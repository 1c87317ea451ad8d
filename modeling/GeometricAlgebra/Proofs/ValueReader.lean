/-
  GeometricAlgebra.Proofs.ValueReader
  ────────────────────────────────
  **THE READER FOLLOWS THE TREE.**

  The reader sees one token at a time and keeps the open brackets on a stack.  On
  the tokens of a tree it does what a recursion over the tree would do: it skips a
  value that stands for nothing known, of whatever depth (`Draft.run_ignored`), reads
  a setting from its value (`Draft.run_field`), and folds over the members of an
  object (`Draft.run_bracket`).  So a document is understood without its tokens: its
  settings are a fold over the members of its `codegen` objects.

  All brackets are passed by the same lemma, in which only the reading of one part
  is left open.

  Main result:
    * `Settings.ofJson_eq_sections` — the settings of a document are those of the fold
      over its members.
-/
import GeometricAlgebra.Proofs.JsonGrammar
import GeometricAlgebra.Proofs.SettingsRoundTrip

namespace GeometricAlgebra

open Json

/-! ## §1. What is known of a value. -/

namespace Json.Value

/-- The first token of a value, which decides what kind of value it is. -/
def opening : Json.Value → Token
  | .text content => .text (some content)
  | .number spelling => .number (Number.ofLexeme spelling)
  | .bool value => .bool value
  | .null => .null
  | .array _ => .openArray
  | .object _ => .openObject

theorem tokens_eq_cons (v : Json.Value) : ∃ rest, v.tokens = v.opening :: rest := by
  cases v <;> exact ⟨_, by rw [tokens]; rfl⟩

/-- A value does not start with the end of an array. -/
theorem opening_ne_closeArray (v : Json.Value) : v.opening ≠ .closeArray := by
  cases v <;> exact Token.noConfusion

/-- The members of an object. -/
def members : Json.Value → List (String × Json.Value)
  | .object members => members
  | _ => []

end Json.Value

namespace Settings

/-- What the reader holds of a document so far. -/
structure Draft where
  /-- The settings. -/
  settings : Settings
  /-- The known members that have been named. -/
  named : List Place

namespace Draft

/-- The reader with this draft. -/
def reader (d : Draft) (frames : List Frame) (expected : Expected) : Reader :=
  ⟨d.settings, d.named, frames, expected⟩

/-- The reader behind a value. -/
def behind (d : Draft) (frames : List Frame) : Reader :=
  (d.reader frames .nothing).afterValue

/-- The draft with one more name. -/
def name (d : Draft) (place : Place) : Draft := { d with named := place :: d.named }

end Draft

/-! ## §2. Brackets. -/

namespace Frame

/-- What comes first behind a bracket. -/
def first : Frame → Expected
  | .object _ => .firstMember
  | _ => .firstItem

/-- What comes behind a comma. -/
def next : Frame → Expected
  | .object _ => .member
  | _ => .item

/-- The token that closes a bracket. -/
def closing : Frame → Token
  | .object _ => .closeObject
  | _ => .closeArray

end Frame

theorem run_cons_error {r : Reader} {token : Token} {fault : Fault}
    (h : r.step token = .error fault) (tokens : List Token) :
    r.run (token :: tokens) = .error fault := by
  unfold Reader.run
  rw [List.foldlM_cons, h]
  rfl

/-- Only the first step depends on what comes next. -/
theorem run_cons_congr {r r' : Reader} {token : Token} (h : r.step token = r'.step token)
    (tokens : List Token) : r.run (token :: tokens) = r'.run (token :: tokens) := by
  unfold Reader.run
  rw [List.foldlM_cons, List.foldlM_cons, h]

namespace Draft

variable (d : Draft) (frame : Frame) (outer : List Frame)

theorem step_comma : (d.behind (frame :: outer)).step .comma
    = .ok (d.reader (frame :: outer) frame.next) := by
  cases frame <;> rfl

theorem step_closing : (d.behind (frame :: outer)).step frame.closing = .ok (d.behind outer) := by
  cases frame <;> rfl

theorem step_empty : (d.reader (frame :: outer) frame.first).step frame.closing
    = .ok (d.behind outer) := by
  cases frame <;> rfl

section Parts

variable {α : Type} {tokens : α → List Token} {read : Draft → α → Except Fault Draft}
  {frame : Frame} {outer : List Frame} {parts : List α}

/-- Parts with commas between them are read one after the other. -/
theorem run_parts
    (hread : ∀ x ∈ parts, ∀ d expected, expected = frame.first ∨ expected = frame.next →
      (d.reader (frame :: outer) expected).run (tokens x)
        = (read d x).map fun d' => d'.behind (frame :: outer))
    (hne : parts ≠ []) {expected : Expected}
    (hexpected : expected = frame.first ∨ expected = frame.next) :
    (d.reader (frame :: outer) expected).run ([Token.comma].intercalate (parts.map tokens))
      = (parts.foldlM read d).map fun d' => d'.behind (frame :: outer) := by
  induction parts generalizing d expected with
  | nil => exact absurd rfl hne
  | cons x parts ih =>
    have hfirst := hread x List.mem_cons_self d expected hexpected
    cases parts with
    | nil =>
      rw [List.map_singleton, List.intercalate_singleton, hfirst, List.foldlM_cons]
      cases read d x <;> rfl
    | cons y parts =>
      rw [List.map_cons, List.map_cons, List.intercalate_cons_cons, List.append_assoc,
        Reader.run_append, hfirst, List.foldlM_cons]
      cases read d x with
      | error fault => rfl
      | ok d' =>
        have hrest := ih d' (fun x' hx' => hread x' (List.mem_cons_of_mem x hx'))
          (List.cons_ne_nil y parts) (.inr rfl)
        exact (Reader.run_cons (step_comma d' frame outer) _).trans hrest

/-- **To read a bracket is to fold over its parts.** -/
theorem run_bracket
    (hread : ∀ x ∈ parts, ∀ d expected, expected = frame.first ∨ expected = frame.next →
      (d.reader (frame :: outer) expected).run (tokens x)
        = (read d x).map fun d' => d'.behind (frame :: outer)) :
    (d.reader (frame :: outer) frame.first).run
        ([Token.comma].intercalate (parts.map tokens) ++ [frame.closing])
      = (parts.foldlM read d).map fun d' => d'.behind outer := by
  cases parts with
  | nil => exact Reader.run_cons (step_empty d frame outer) []
  | cons x parts =>
    rw [Reader.run_append, run_parts d hread (List.cons_ne_nil x parts) (.inl rfl)]
    cases (x :: parts).foldlM read d with
    | error fault => rfl
    | ok d' => exact Reader.run_cons (step_closing d' frame outer) []

end Parts

theorem foldlM_ok {α : Type} (parts : List α) :
    parts.foldlM (fun d' _ => .ok d') d = (.ok d : Except Fault Draft) := by
  induction parts with
  | nil => rfl
  | cons x parts ih => exact ih

/-! ## §3. Names of members. -/

section Names

/-- What the name of a known member does. -/
theorem readName_known {place : Place} (outer : List Frame) (m : String × Json.Value)
    (expected : Expected) (hm : place.member m.1 ≠ .ignored) :
    (d.reader (.object place :: outer) expected).readName (.text (some m.1))
      = if place.member m.1 ∈ d.named then .error .mistyped
        else .ok ((d.name (place.member m.1)).reader (.object place :: outer)
          (.colon (place.member m.1))) := by
  cases place with
  | ignored => exact absurd rfl hm
  | _ => exact if_neg hm

variable {place : Place} {outer : List Frame} {expected : Expected}
  (hexpected : expected = .firstMember ∨ expected = .member) (m : String × Json.Value)
include hexpected

/-- The name of a member and the colon behind it. -/
theorem run_memberTokens_eq :
    (d.reader (.object place :: outer) expected).run (Json.Value.memberTokens m)
      = ((d.reader (.object place :: outer) expected).readName (.text (some m.1))).bind
        fun r => r.run (.colon :: m.2.tokens) := by
  rcases hexpected with rfl | rfl
  all_goals exact List.foldlM_cons

/-- The value of an unknown member stands for nothing known. -/
theorem run_unknown (hm : place.member m.1 = .ignored) :
    (d.reader (.object place :: outer) expected).run (Json.Value.memberTokens m)
      = (d.reader (.object place :: outer) (.value .ignored)).run m.2.tokens := by
  have hname : (d.reader (.object place :: outer) expected).readName (.text (some m.1))
      = .ok (d.reader (.object place :: outer) (.colon .ignored)) := by
    cases place <;> simp [reader, Reader.readName, hm]
  rw [run_memberTokens_eq d hexpected, hname]
  exact Reader.run_cons rfl _

variable (hm : place.member m.1 ≠ .ignored)
include hm

/-- The value of a known member stands for what the name says. -/
theorem run_known (hnew : place.member m.1 ∉ d.named) :
    (d.reader (.object place :: outer) expected).run (Json.Value.memberTokens m)
      = ((d.name (place.member m.1)).reader (.object place :: outer)
          (.value (place.member m.1))).run m.2.tokens := by
  rw [run_memberTokens_eq d hexpected, readName_known d outer m expected hm, if_neg hnew]
  exact Reader.run_cons rfl _

/-- **A known member that is named again is a mistake**, whatever its value is. -/
theorem run_repeated (hold : place.member m.1 ∈ d.named) :
    (d.reader (.object place :: outer) expected).run (Json.Value.memberTokens m)
      = .error .mistyped := by
  rw [run_memberTokens_eq d hexpected, readName_known d outer m expected hm, if_pos hold]
  rfl

end Names

/-! ## §4. Values. -/

/-- **A value that stands for nothing known is skipped**, however deep it is. -/
theorem run_ignored (v : Json.Value) (d : Draft) (frames : List Frame) :
    (d.reader frames (.value .ignored)).run v.tokens = .ok (d.behind frames) := by
  induction v using Json.Value.induction generalizing d frames with
  | text | number | bool | null =>
    rw [Json.Value.tokens]
    rfl
  | array items ih =>
    -- an item is read like a value, since it does not start with the end of the array
    have hitem : ∀ v ∈ items, ∀ (d : Draft) (expected : Expected),
        expected = .firstItem ∨ expected = .item →
          (d.reader (.skipped :: frames) expected).run v.tokens
            = (Except.ok d).map fun d' => d'.behind (.skipped :: frames) := by
      intro v hv d expected hexpected
      obtain ⟨rest, htokens⟩ := v.tokens_eq_cons
      have hvalue := ih v hv d (.skipped :: frames)
      rw [htokens] at hvalue ⊢
      rcases hexpected with rfl | rfl
      · have hstep : (d.reader (.skipped :: frames) .firstItem).step v.opening
            = (d.reader (.skipped :: frames) (.value .ignored)).step v.opening :=
          if_neg v.opening_ne_closeArray
        exact (run_cons_congr hstep rest).trans hvalue
      · exact hvalue
    rw [Json.Value.tokens, Reader.run_cons rfl]
    exact (run_bracket d hitem).trans (by rw [foldlM_ok]; rfl)
  | object ms ih =>
    have hmember : ∀ m ∈ ms, ∀ (d : Draft) (expected : Expected),
        expected = .firstMember ∨ expected = .member →
          (d.reader (.object .ignored :: frames) expected).run (Json.Value.memberTokens m)
            = (Except.ok d).map fun d' => d'.behind (.object .ignored :: frames) := by
      intro m hm d expected hexpected
      exact (run_unknown d hexpected m rfl).trans (ih m hm d _)
    rw [Json.Value.tokens_object, Reader.run_cons rfl]
    exact (run_bracket d hmember).trans (by rw [foldlM_ok]; rfl)

/-- The draft with a setting read from a value. -/
def readField (d : Draft) (field : Field) (v : Json.Value) : Except Fault Draft :=
  (field.read d.settings v.opening).map fun settings => { d with settings := settings }

theorem step_field (field : Field) (v : Json.Value) (frames : List Frame) :
    (d.reader frames (.value (.field field))).step v.opening
      = (d.readField field v).map fun d' => d'.behind frames := by
  show (do let settings ← field.read d.settings v.opening; _) = _
  unfold readField
  cases field.read d.settings v.opening <;> rfl

/-- No setting is an array or an object. -/
theorem readField_bracket (field : Field) {v : Json.Value}
    (hv : v.opening = .openArray ∨ v.opening = .openObject) :
    d.readField field v = .error .mistyped := by
  unfold readField
  rcases hv with hv | hv
  all_goals rw [hv]; cases field <;> rfl

/-- **A setting is read from its value**, which is a single token or a mistake. -/
theorem run_field (field : Field) (v : Json.Value) (frames : List Frame) :
    (d.reader frames (.value (.field field))).run v.tokens
      = (d.readField field v).map fun d' => d'.behind frames := by
  have hstep := step_field d field v frames
  cases v with
  | text | number | bool | null =>
    rw [Json.Value.tokens]
    exact List.foldlM_cons.trans ((bind_pure _).trans hstep)
  | array items =>
    rw [readField_bracket d field (.inl rfl)] at hstep ⊢
    rw [Json.Value.tokens]
    exact run_cons_error hstep _
  | object members =>
    rw [readField_bracket d field (.inr rfl)] at hstep ⊢
    rw [Json.Value.tokens]
    exact run_cons_error hstep _

/-! ## §5. Settings and documents. -/

/-- The draft behind a member of a settings object. -/
def readSetting (d : Draft) (m : String × Json.Value) : Except Fault Draft :=
  match Place.member .settings m.1 with
  | .field field =>
      if .field field ∈ d.named then .error .mistyped
      else (d.name (.field field)).readField field m.2
  | _ => .ok d

/-- The draft behind a member of a document, if the settings are an object. -/
def readSection (d : Draft) (m : String × Json.Value) : Except Fault Draft :=
  if m.1 = Place.settingsName then
    if .settings ∈ d.named then .error .mistyped
    else m.2.members.foldlM readSetting (d.name .settings)
  else .ok d

end Draft

/-- The name of a member of the settings says which setting it is, or nothing. -/
theorem Place.member_settings (name : String) :
    (∃ field : Field, name = field.name ∧ Place.member .settings name = .field field)
      ∨ (∀ field : Field, name ≠ field.name) ∧ Place.member .settings name = .ignored := by
  by_cases h : ∃ field : Field, name = field.name
  · obtain ⟨field, rfl⟩ := h
    exact .inl ⟨field, rfl, Place.member_name field⟩
  · push Not at h
    have hfind : Field.all.find? (fun field => field.name == name) = none := by
      rw [List.find?_eq_none]
      intro field _ heq
      exact h field (eq_of_beq heq).symm
    refine .inr ⟨h, ?_⟩
    unfold Place.member
    rw [hfind]

namespace Draft

variable (d : Draft)

theorem readSetting_known {m : String × Json.Value} {field : Field}
    (hm : Place.member .settings m.1 = .field field) :
    d.readSetting m = if .field field ∈ d.named then .error .mistyped
      else (d.name (.field field)).readField field m.2 := by
  unfold readSetting
  rw [hm]

theorem readSetting_unknown {m : String × Json.Value} (hm : Place.member .settings m.1 = .ignored) :
    d.readSetting m = .ok d := by
  unfold readSetting
  rw [hm]

/-- A member of a settings object. -/
theorem run_setting {outer : List Frame} {expected : Expected}
    (hexpected : expected = .firstMember ∨ expected = .member) (m : String × Json.Value) :
    (d.reader (.object .settings :: outer) expected).run (Json.Value.memberTokens m)
      = (d.readSetting m).map fun d' => d'.behind (.object .settings :: outer) := by
  rcases Place.member_settings m.1 with ⟨field, -, hm⟩ | ⟨-, hm⟩
  · have hknown : Place.member .settings m.1 ≠ .ignored := by
      rw [hm]
      exact Place.noConfusion
    rw [readSetting_known d hm]
    by_cases hold : .field field ∈ d.named
    · rw [run_repeated d hexpected m hknown (hm ▸ hold), if_pos hold]
      rfl
    · rw [run_known d hexpected m hknown (hm ▸ hold), hm, run_field, if_neg hold]
  · rw [run_unknown d hexpected m hm, run_ignored, readSetting_unknown d hm]
    rfl

/-- **A settings object is a fold over its members.** -/
theorem run_settings (members : List (String × Json.Value)) (frames : List Frame) :
    (d.reader frames (.value .settings)).run (Json.Value.object members).tokens
      = (members.foldlM readSetting d).map fun d' => d'.behind frames := by
  rw [Json.Value.tokens_object, Reader.run_cons rfl]
  exact run_bracket d fun m _ d expected hexpected => run_setting d hexpected m

/-- A member of a document. -/
theorem run_section {outer : List Frame} {expected : Expected}
    (hexpected : expected = .firstMember ∨ expected = .member) {m : String × Json.Value}
    (hobject : m.1 = Place.settingsName → ∃ inner, m.2 = .object inner) :
    (d.reader (.object .document :: outer) expected).run (Json.Value.memberTokens m)
      = (d.readSection m).map fun d' => d'.behind (.object .document :: outer) := by
  unfold readSection
  by_cases hname : m.1 = Place.settingsName
  · have hm : Place.member .document m.1 = .settings := if_pos hname
    have hknown : Place.member .document m.1 ≠ .ignored := by
      rw [hm]
      exact Place.noConfusion
    obtain ⟨inner, hinner⟩ := hobject hname
    rw [if_pos hname]
    by_cases hold : .settings ∈ d.named
    · rw [run_repeated d hexpected m hknown (hm ▸ hold), if_pos hold]
      rfl
    · rw [run_known d hexpected m hknown (hm ▸ hold), hm, hinner, run_settings, if_neg hold]
      rfl
  · have hm : Place.member .document m.1 = .ignored := if_neg hname
    rw [run_unknown d hexpected m hm, run_ignored, if_neg hname]
    rfl

end Draft

/-- **THE SETTINGS OF A DOCUMENT ARE A FOLD OVER ITS MEMBERS**, in whatever way the
document is written. -/
theorem ofJson_eq_sections {text : String} {root : List (String × Json.Value)}
    (htext : Written (.element (.object root)) text.toList)
    (hobjects : ∀ m ∈ root, m.1 = Place.settingsName → ∃ inner, m.2 = .object inner) :
    ofJson text = (root.foldlM Draft.readSection ⟨Settings.default, []⟩).map Draft.settings := by
  have hrun : Reader.start.run (Json.Value.object root).tokens
      = (root.foldlM Draft.readSection ⟨Settings.default, []⟩).map fun d => d.behind [] := by
    rw [Json.Value.tokens_object, Reader.run_cons rfl]
    exact Draft.run_bracket ⟨Settings.default, []⟩ fun m hm d expected hexpected =>
      Draft.run_section d hexpected (hobjects m hm)
  rw [ofJson_eq, htext.tokens_eq, hrun]
  cases root.foldlM Draft.readSection ⟨Settings.default, []⟩ <;> rfl

end Settings

end GeometricAlgebra
