/-
  GeometricAlgebra.Proofs.SettingsDocuments
  ────────────────────────────────
  **SETTINGS DOCUMENTS MEAN WHAT THEY SAY.**

  A document may name some of the settings, in any order, among members of other
  names.  What it says is read off its tree: a setting has the value that is written
  for it (`Gives`, `Field.Writes`), and the others are not mentioned.  By then the
  reader is a fold over members (`Settings.ofJson_eq_sections`), and a member touches
  its own setting only.  So a setting behind the fold is the written one if there is
  one, and the default else (`Draft.settings_of_members`); and a fold that gets
  through has met each known name at most once (`Draft.fresh_of_ok`).  Both go by the
  same count: reading a member moves a name from the members to come to those that have
  been named (`Draft.fresh_known`).

  Main result:
    * `Settings.ofJson_document` — the settings of a document are those that it gives,
      and the defaults of the others; a document that names a known member twice has
      none.
-/
import GeometricAlgebra.Proofs.ValueReader

namespace GeometricAlgebra.Settings

open Json

/-! ## §1. What a document says. -/

namespace Field

/-- A value that writes a setting: the dimensions in digits, within an unsigned word,
the negative axis as a text of one character, the others as texts. -/
inductive Writes (s : Settings) : Field → Json.Value → Prop where
  | dimensions {digits : List Char} (hdigits : ∀ c ∈ digits, c.isDigit = true)
      (hvalue : decimalValue digits = s.dimensions) (hlt : s.dimensions < Word.bound) :
      Writes s .dimensions (.number digits)
  | symbols : Writes s .symbols (.text s.symbols)
  | negativeAxis : Writes s .negativeAxis (.text (String.singleton s.negativeAxis))
  | scalarType : Writes s .scalarType (.text s.scalarType)
  | recordStem : Writes s .recordStem (.text s.recordStem)

/-- Two settings with the same value in a field. -/
def Agree (field : Field) (s t : Settings) : Prop :=
  match field with
  | .dimensions => s.dimensions = t.dimensions
  | .symbols => s.symbols = t.symbols
  | .negativeAxis => s.negativeAxis = t.negativeAxis
  | .scalarType => s.scalarType = t.scalarType
  | .recordStem => s.recordStem = t.recordStem

end Field

/-- The document gives this value for a setting. -/
def Gives (root : List (String × Json.Value)) (field : Field) (v : Json.Value) : Prop :=
  ∃ inner, (Place.settingsName, .object inner) ∈ root ∧ (field.name, v) ∈ inner

/-- The settings `s` have the values that are given, and those of `t` where none is. -/
def Reflects (gives : Field → Json.Value → Prop) (s t : Settings) : Prop :=
  ∀ field, (∀ v, gives field v → field.Writes s v)
    ∧ ((∀ v, ¬ gives field v) → field.Agree s t)

/-- The document names its settings object at most once, and each setting at most once
within it. -/
def NamedOnce (root : List (String × Json.Value)) : Prop :=
  (root.map Prod.fst).count Place.settingsName ≤ 1
    ∧ ∀ inner, (Place.settingsName, .object inner) ∈ root →
        ∀ field : Field, (inner.map Prod.fst).count field.name ≤ 1

/-! ## §2. One setting at a time. -/

namespace Field

theorem name_injective {f g : Field} (h : f.name = g.name) : f = g := by
  revert h
  cases f <;> cases g <;> decide

variable {field : Field} {s t u : Settings} {v : Json.Value}

theorem Agree.refl (field : Field) (s : Settings) : field.Agree s s := by
  cases field <;> rfl

theorem Agree.trans (h : field.Agree s t) (h' : field.Agree t u) : field.Agree s u := by
  cases field <;> exact Eq.trans h h'

/-- The field that is replaced. -/
theorem agree_copy (field : Field) (s t : Settings) : field.Agree (field.copy s t) s := by
  cases field <;> rfl

/-- The fields that are not replaced. -/
theorem agree_copy_of_ne {g : Field} (h : g ≠ field) (s t : Settings) :
    g.Agree (field.copy s t) t := by
  cases g <;> cases field <;> first | rfl | exact absurd rfl h

/-- What is written depends on its own field only. -/
theorem Writes.congr (h : field.Writes s v) (hagree : field.Agree t s) : field.Writes t v := by
  cases h with
  | dimensions hdigits hvalue hlt =>
    have hdims : t.dimensions = s.dimensions := hagree
    exact .dimensions hdigits (hvalue.trans hdims.symm) (hdims ▸ hlt)
  | symbols => exact (show t.symbols = s.symbols from hagree) ▸ .symbols
  | negativeAxis => exact (show t.negativeAxis = s.negativeAxis from hagree) ▸ .negativeAxis
  | scalarType => exact (show t.scalarType = s.scalarType from hagree) ▸ .scalarType
  | recordStem => exact (show t.recordStem = s.recordStem from hagree) ▸ .recordStem

/-- A value that writes a setting starts with the token of the setting. -/
theorem Writes.opening_eq (h : field.Writes s v) : v.opening = field.token s := by
  cases h with
  | dimensions hdigits hvalue hlt =>
    have hlexeme := Scanner.ofLexeme_digits hdigits (hvalue.symm ▸ hlt)
    rw [hvalue] at hlexeme
    exact congrArg Token.number hlexeme
  | _ => rfl

end Field

namespace Draft

variable (d : Draft)

/-- **A written setting is taken over**, and the others are left alone. -/
theorem readField_of_writes {field : Field} {s : Settings} {v : Json.Value}
    (h : field.Writes s v) :
    d.readField field v = .ok { d with settings := field.copy s d.settings } := by
  unfold readField
  rw [h.opening_eq, Field.read_token]
  rfl

/-! ## §3. The members of a settings object. -/

/-- What the members of a settings object give. -/
def Lists (members : List (String × Json.Value)) (field : Field) (v : Json.Value) : Prop :=
  (field.name, v) ∈ members

theorem reflects_unknown {m : String × Json.Value} {members : List (String × Json.Value)}
    {s t : Settings} (hm : ∀ field : Field, m.1 ≠ field.name) (h : Reflects (Lists members) s t) :
    Reflects (Lists (m :: members)) s t := by
  have hlists : ∀ field v, Lists (m :: members) field v ↔ Lists members field v := by
    intro field v
    refine ⟨fun hv => (List.mem_cons.mp hv).resolve_left ?_, List.mem_cons_of_mem m⟩
    rintro rfl
    exact hm field rfl
  simpa only [Reflects, hlists] using h

/-- A setting that is written, in front of members that do not name it again. -/
theorem reflects_known {f : Field} {v : Json.Value} {members : List (String × Json.Value)}
    {s t u : Settings} (hwrites : f.Writes s v) (hnew : f.name ∉ members.map Prod.fst)
    (h : Reflects (Lists members) u (f.copy s t)) :
    Reflects (Lists ((f.name, v) :: members)) u t := by
  have habsent : ∀ w, ¬ Lists members f w := fun w hw =>
    hnew (List.mem_map.mpr ⟨(f.name, w), hw, rfl⟩)
  have hcopied : f.Agree u s := ((h f).2 habsent).trans (Field.agree_copy f s t)
  intro g
  by_cases hg : g = f
  · subst hg
    refine ⟨fun w hw => ?_, fun hnone => absurd List.mem_cons_self (hnone v)⟩
    rcases List.mem_cons.mp hw with heq | hw
    · cases heq
      exact hwrites.congr hcopied
    · exact absurd hw (habsent w)
  · refine ⟨fun w hw => ?_, fun hnone => ?_⟩
    · rcases List.mem_cons.mp hw with heq | hw
      · exact absurd (Field.name_injective (Prod.mk.inj heq).1) hg
      · exact (h g).1 w hw
    · have hrest := (h g).2 fun w hw => hnone w (List.mem_cons_of_mem _ hw)
      exact hrest.trans (Field.agree_copy_of_ne hg s t)

/-- With what has been named before, each setting is named at most once. -/
def Fresh (named : List Place) (members : List (String × Json.Value)) : Prop :=
  ∀ field : Field, named.count (.field field) + (members.map Prod.fst).count field.name ≤ 1

section Fresh

variable {named : List Place} {members : List (String × Json.Value)} {m : String × Json.Value}

theorem fresh_unknown (hm : ∀ field : Field, m.1 ≠ field.name) :
    Fresh named (m :: members) ↔ Fresh named members := by
  unfold Fresh
  refine forall_congr' fun field => ?_
  rw [List.map_cons, List.count_cons_of_ne (hm field)]

/-- A name moves from the members to come to those that have been named. -/
theorem fresh_known {f : Field} (hm : m.1 = f.name) :
    Fresh named (m :: members) ↔ Fresh (.field f :: named) members := by
  unfold Fresh
  refine forall_congr' fun field => ?_
  rw [List.map_cons, hm]
  by_cases hf : f = field
  · subst hf
    rw [List.count_cons_self, List.count_cons_self]
    omega
  · have hname : f.name ≠ field.name := fun h => hf (Field.name_injective h)
    have hplace : Place.field f ≠ .field field := fun h => hf (Place.field.inj h)
    rw [List.count_cons_of_ne hname, List.count_cons_of_ne hplace]

/-- A name that is new may be named. -/
theorem Fresh.name (h : Fresh named []) {f : Field} (hnew : Place.field f ∉ named) :
    Fresh (.field f :: named) [] := by
  intro field
  by_cases hf : f = field
  · subst hf
    rw [List.count_cons_self, List.count_eq_zero.mpr hnew]
    exact Nat.le_refl 1
  · rw [List.count_cons_of_ne fun heq => hf (Place.field.inj heq)]
    exact h field

theorem Fresh.notMem {f : Field} (h : Fresh (.field f :: named) members) :
    Place.field f ∉ named ∧ f.name ∉ members.map Prod.fst := by
  have hcount := h f
  rw [List.count_cons_self] at hcount
  exact ⟨List.count_eq_zero.mp (by omega), List.count_eq_zero.mp (by omega)⟩

end Fresh

/-- **Behind the members of a settings object**, each setting that one of them names has
its written value, and the others are as they were. -/
theorem settings_of_members {members : List (String × Json.Value)} (hfresh : Fresh d.named members)
    (htyped : ∀ field v, Lists members field v → ∃ s, field.Writes s v) :
    ∃ d', members.foldlM readSetting d = .ok d'
      ∧ Reflects (Lists members) d'.settings d.settings := by
  induction members generalizing d with
  | nil =>
    refine ⟨d, rfl, fun field => ⟨fun v hv => ?_, fun _ => Field.Agree.refl field _⟩⟩
    cases hv
  | cons m members ih =>
    obtain ⟨n, v⟩ := m
    have htyped' : ∀ field w, Lists members field w → ∃ s, field.Writes s w :=
      fun field w hw => htyped field w (List.mem_cons_of_mem _ hw)
    rw [List.foldlM_cons]
    rcases Place.member_settings n with ⟨f, rfl, hplace⟩ | ⟨hother, hplace⟩
    · -- a known name, which is new and does not come again
      obtain ⟨s, hs⟩ := htyped f v List.mem_cons_self
      have hrest := (fresh_known rfl).mp hfresh
      have hread : d.readSetting (f.name, v)
          = .ok ⟨f.copy s d.settings, .field f :: d.named⟩ := by
        rw [readSetting_known d hplace, if_neg hrest.notMem.1, readField_of_writes _ hs]
        rfl
      rw [hread]
      obtain ⟨d', hfold, hd'⟩ := ih ⟨f.copy s d.settings, .field f :: d.named⟩ hrest htyped'
      exact ⟨d', hfold, reflects_known hs hrest.notMem.2 hd'⟩
    · rw [readSetting_unknown d hplace]
      obtain ⟨d', hfold, hd'⟩ := ih d ((fresh_unknown hother).mp hfresh) htyped'
      exact ⟨d', hfold, reflects_unknown hother hd'⟩

theorem named_of_readField {field : Field} {v : Json.Value} {d' : Draft}
    (h : d.readField field v = .ok d') : d'.named = d.named := by
  unfold readField at h
  cases hread : field.read d.settings v.opening with
  | error fault =>
    rw [hread] at h
    cases h
  | ok settings =>
    rw [hread] at h
    cases h
    rfl

/-- What a member of a settings object names. -/
theorem named_of_readSetting {m : String × Json.Value} {d' : Draft} (h : d.readSetting m = .ok d') :
    (∃ f : Field, m.1 = f.name ∧ .field f ∉ d.named ∧ d'.named = .field f :: d.named)
      ∨ (∀ field : Field, m.1 ≠ field.name) ∧ d'.named = d.named := by
  rcases Place.member_settings m.1 with ⟨f, hname, hplace⟩ | ⟨hother, hplace⟩
  · rw [readSetting_known d hplace] at h
    by_cases hold : .field f ∈ d.named
    · rw [if_pos hold] at h
      cases h
    · rw [if_neg hold] at h
      exact .inl ⟨f, hname, hold, named_of_readField _ h⟩
  · rw [readSetting_unknown d hplace] at h
    cases h
    exact .inr ⟨hother, rfl⟩

/-- **Members that are read name each setting at most once.** -/
theorem fresh_of_ok {members : List (String × Json.Value)} {d' : Draft}
    (h : members.foldlM readSetting d = .ok d') (hd : Fresh d.named []) :
    Fresh d.named members ∧ ∀ place ∈ d.named, place ∈ d'.named := by
  induction members generalizing d with
  | nil =>
    cases h
    exact ⟨hd, fun _ hplace => hplace⟩
  | cons m members ih =>
    rw [List.foldlM_cons] at h
    cases hread : d.readSetting m with
    | error fault =>
      rw [hread] at h
      cases h
    | ok d₁ =>
      rw [hread] at h
      rcases named_of_readSetting d hread with ⟨f, hname, hnew, hnamed⟩ | ⟨hother, hnamed⟩
      · obtain ⟨hfresh, hsub⟩ := ih d₁ h (hnamed ▸ hd.name hnew)
        rw [hnamed] at hfresh hsub
        exact ⟨(fresh_known hname).mpr hfresh, fun place hplace =>
          hsub place (List.mem_cons_of_mem _ hplace)⟩
      · obtain ⟨hfresh, hsub⟩ := ih d₁ h (hnamed.symm ▸ hd)
        rw [hnamed] at hfresh hsub
        exact ⟨(fresh_unknown hother).mpr hfresh, hsub⟩

/-! ## §4. The members of a document. -/

theorem readSections_unknown {root : List (String × Json.Value)}
    (hroot : Place.settingsName ∉ root.map Prod.fst) : root.foldlM readSection d = .ok d := by
  induction root with
  | nil => rfl
  | cons m root ih =>
    rw [List.map_cons, List.mem_cons, not_or] at hroot
    have hread : d.readSection m = .ok d := if_neg fun h => hroot.1 h.symm
    rw [List.foldlM_cons, hread]
    exact ih hroot.2

theorem readSections_repeated {root : List (String × Json.Value)} (hold : .settings ∈ d.named)
    (hroot : Place.settingsName ∈ root.map Prod.fst) :
    root.foldlM readSection d = .error .mistyped := by
  induction root with
  | nil => cases hroot
  | cons m root ih =>
    rw [List.foldlM_cons]
    by_cases hm : m.1 = Place.settingsName
    · have hread : d.readSection m = .error .mistyped := (if_pos hm).trans (if_pos hold)
      rw [hread]
      rfl
    · have hread : d.readSection m = .ok d := if_neg hm
      rw [hread]
      exact ih ((List.mem_cons.mp hroot).resolve_left fun h => hm h.symm)

/-- A document is read up to its first settings object, then that, then the rest. -/
theorem readSections_eq {front back inner : List (String × Json.Value)}
    (hfront : Place.settingsName ∉ front.map Prod.fst) (hnew : .settings ∉ d.named) :
    (front ++ (Place.settingsName, .object inner) :: back).foldlM readSection d
      = (inner.foldlM readSetting (d.name .settings)).bind
          fun d' => back.foldlM readSection d' := by
  have hread : d.readSection (Place.settingsName, .object inner)
      = inner.foldlM readSetting (d.name .settings) := (if_pos rfl).trans (if_neg hnew)
  rw [List.foldlM_append, readSections_unknown d hfront, ← hread]
  show ((Place.settingsName, Json.Value.object inner) :: back).foldlM readSection d = _
  rw [List.foldlM_cons]
  rfl

end Draft

/-- A document with a settings object, up to the first one. -/
theorem exists_first_section {root : List (String × Json.Value)}
    (hroot : Place.settingsName ∈ root.map Prod.fst) :
    ∃ front v back, root = front ++ (Place.settingsName, v) :: back
      ∧ Place.settingsName ∉ front.map Prod.fst := by
  induction root with
  | nil => cases hroot
  | cons m root ih =>
    obtain ⟨n, v⟩ := m
    by_cases hm : n = Place.settingsName
    · subst hm
      exact ⟨[], v, root, rfl, List.not_mem_nil⟩
    · obtain ⟨front, w, back, rfl, hfront⟩ :=
        ih ((List.mem_cons.mp hroot).resolve_left fun h => hm h.symm)
      refine ⟨(n, v) :: front, w, back, rfl, fun hmem => ?_⟩
      exact hfront ((List.mem_cons.mp hmem).resolve_left fun h => hm h.symm)

section OneSection

variable {front back inner : List (String × Json.Value)}
  (hfront : Place.settingsName ∉ front.map Prod.fst)
include hfront

theorem mem_section_iff {v : Json.Value} (hback : Place.settingsName ∉ back.map Prod.fst)
    (w : Json.Value) :
    (Place.settingsName, w) ∈ front ++ (Place.settingsName, v) :: back ↔ w = v := by
  constructor
  · intro hmem
    rcases List.mem_append.mp hmem with hmem | hmem
    · exact absurd (List.mem_map.mpr ⟨_, hmem, rfl⟩) hfront
    · rcases List.mem_cons.mp hmem with heq | hmem
      · exact (Prod.mk.inj heq).2
      · exact absurd (List.mem_map.mpr ⟨_, hmem, rfl⟩) hback
  · rintro rfl
    exact List.mem_append_right front List.mem_cons_self

theorem namedOnce_iff : NamedOnce (front ++ (Place.settingsName, .object inner) :: back)
    ↔ Place.settingsName ∉ back.map Prod.fst ∧ Draft.Fresh [.settings] inner := by
  have hcount :
      ((front ++ (Place.settingsName, Json.Value.object inner) :: back).map Prod.fst).count
        Place.settingsName = (back.map Prod.fst).count Place.settingsName + 1 := by
    rw [List.map_append, List.count_append, List.map_cons, List.count_cons_self,
      List.count_eq_zero.mpr hfront, Nat.zero_add]
  have hnamed : ∀ field : Field, [Place.settings].count (.field field) = 0 := by
    intro field
    cases field <;> rfl
  unfold NamedOnce Draft.Fresh
  rw [hcount]
  constructor
  · rintro ⟨honce, hinner⟩
    have hback : Place.settingsName ∉ back.map Prod.fst := List.count_eq_zero.mp (by omega)
    refine ⟨hback, fun field => ?_⟩
    rw [hnamed, Nat.zero_add]
    exact hinner inner ((mem_section_iff hfront hback _).mpr rfl) field
  · rintro ⟨hback, hfresh⟩
    refine ⟨by rw [List.count_eq_zero.mpr hback], fun inner' hmem field => ?_⟩
    obtain rfl := Json.Value.object.inj ((mem_section_iff hfront hback _).mp hmem)
    have hfield := hfresh field
    rwa [hnamed, Nat.zero_add] at hfield

theorem gives_iff (hback : Place.settingsName ∉ back.map Prod.fst) (field : Field)
    (v : Json.Value) :
    Gives (front ++ (Place.settingsName, .object inner) :: back) field v
      ↔ Draft.Lists inner field v := by
  constructor
  · rintro ⟨inner', hmem, hv⟩
    obtain rfl := Json.Value.object.inj ((mem_section_iff hfront hback _).mp hmem)
    exact hv
  · intro hv
    exact ⟨inner, (mem_section_iff hfront hback _).mpr rfl, hv⟩

end OneSection

/-! ## §5. Whole documents. -/

namespace Draft

/-- The draft in front of a document. -/
def start : Draft := ⟨Settings.default, []⟩

/-- **What a document says is what its members are read as.** -/
theorem readSections_ok {root : List (String × Json.Value)}
    (hobjects : ∀ v, (Place.settingsName, v) ∈ root → ∃ inner, v = .object inner)
    (honce : NamedOnce root) (htyped : ∀ field v, Gives root field v → ∃ s, field.Writes s v) :
    ∃ d, root.foldlM readSection start = .ok d
      ∧ Reflects (Gives root) d.settings Settings.default := by
  by_cases hsection : Place.settingsName ∈ root.map Prod.fst
  · obtain ⟨front, v, back, rfl, hfront⟩ := exists_first_section hsection
    obtain ⟨inner, rfl⟩ := hobjects v (List.mem_append_right front List.mem_cons_self)
    obtain ⟨hback, hfresh⟩ := (namedOnce_iff hfront).mp honce
    obtain ⟨d, hfold, hd⟩ := settings_of_members (start.name .settings) hfresh
      fun field v hv => htyped field v ((gives_iff hfront hback field v).mpr hv)
    refine ⟨d, ?_, ?_⟩
    · rw [readSections_eq start hfront List.not_mem_nil, hfold]
      exact readSections_unknown d hback
    · intro field
      simp only [gives_iff hfront hback]
      exact hd field
  · refine ⟨start, readSections_unknown start hsection, fun field => ⟨?_, fun _ => .refl field _⟩⟩
    rintro v ⟨inner, hmem, -⟩
    exact absurd (List.mem_map.mpr ⟨_, hmem, rfl⟩) hsection

/-- **Members that are read name the settings object and each setting at most once.** -/
theorem namedOnce_of_ok {root : List (String × Json.Value)} {d : Draft}
    (hobjects : ∀ v, (Place.settingsName, v) ∈ root → ∃ inner, v = .object inner)
    (h : root.foldlM readSection start = .ok d) : NamedOnce root := by
  by_cases hsection : Place.settingsName ∈ root.map Prod.fst
  · obtain ⟨front, v, back, rfl, hfront⟩ := exists_first_section hsection
    obtain ⟨inner, rfl⟩ := hobjects v (List.mem_append_right front List.mem_cons_self)
    rw [readSections_eq start hfront List.not_mem_nil] at h
    cases hfold : inner.foldlM readSetting (start.name .settings) with
    | error fault =>
      rw [hfold] at h
      cases h
    | ok d' =>
      have hstart : Fresh (start.name .settings).named [] := by
        intro field
        cases field <;> decide
      obtain ⟨hfresh, hnamed⟩ := fresh_of_ok (start.name .settings) hfold hstart
      refine (namedOnce_iff hfront).mpr ⟨fun hback => ?_, hfresh⟩
      rw [hfold] at h
      cases (readSections_repeated d' (hnamed _ List.mem_cons_self) hback).symm.trans h
  · refine ⟨(List.count_eq_zero.mpr hsection).trans_le (Nat.zero_le 1), fun inner hmem => ?_⟩
    exact absurd (List.mem_map.mpr ⟨_, hmem, rfl⟩) hsection

end Draft

/-- **DOCUMENTS MEAN WHAT THEY SAY.**  The text is any spelling of an object whose
`codegen` members are objects; there may be other members on both levels, with values
of any depth.  If it names `codegen` and each setting at most once, and the values are
of their types, then the text is read: the settings that it gives have their written
values, and the others their defaults.  If it names one of them twice, it is not read,
whatever the values are. -/
theorem ofJson_document {text : String} {root : List (String × Json.Value)}
    (htext : Written (.element (.object root)) text.toList)
    (hobjects : ∀ v, (Place.settingsName, v) ∈ root → ∃ inner, v = .object inner) :
    (NamedOnce root → (∀ field v, Gives root field v → ∃ s, field.Writes s v) →
        ∃ s, ofJson text = .ok s ∧ Reflects (Gives root) s Settings.default)
      ∧ (¬ NamedOnce root → ∃ fault, ofJson text = .error fault) := by
  have hread : ofJson text = (root.foldlM Draft.readSection Draft.start).map Draft.settings :=
    ofJson_eq_sections htext fun m hm hname => hobjects m.2 (hname ▸ hm)
  rw [hread]
  constructor
  · intro honce htyped
    obtain ⟨d, hfold, hd⟩ := Draft.readSections_ok hobjects honce htyped
    exact ⟨d.settings, by rw [hfold]; rfl, hd⟩
  · intro htwice
    cases hfold : root.foldlM Draft.readSection Draft.start with
    | error fault => exact ⟨fault, rfl⟩
    | ok d => exact absurd (Draft.namedOnce_of_ok hobjects hfold) htwice

/-- A document with members of other names, white space and an escaped name. -/
def mixedText : String :=
  "\x7b\"x\":[\x7b\"y\":null\x7d],\n\"c\\u006fdegen\" :\x7b\"more\":[true],\"dimensions\":4\x7d\x7d"

/-- The settings object in it. -/
def mixedSection : List (String × Json.Value) :=
  [("more", .array [.bool true]), ("dimensions", .number ['4'])]

/-- The members of the whole. -/
def mixedRoot : List (String × Json.Value) :=
  [("x", .array [.object [("y", .null)]]), ("codegen", .object mixedSection)]

/-- The derivation of the document. -/
theorem mixedText_written : Written (.element (.object mixedRoot)) mixedText.toList := by
  have gap : Gap [] := fun _ h => by cases h
  have blank : Gap [' '] := by simp [Gap]
  have newline : Gap ['\n'] := by simp [Gap]
  have hplain : ∀ c ∈ ['c', 'd', 'e', 'g', 'n'], CharSpelled c [c] := by
    intro c hc
    have hall : c ≠ '"' ∧ c ≠ '\\' ∧ ¬ c.toNat < 0x20 := by
      fin_cases hc
      all_goals decide
    exact .itself hall.1 hall.2.1 hall.2.2
  have hunit : UnitSpelled 'o'.toNat ['\\', 'u', '0', '0', '6', 'f'] := by
    have h0 : ('0', 0) ∈ hexDigits := by decide
    have h6 : ('6', 6) ∈ hexDigits := by decide
    have hf : ('f', 15) ∈ hexDigits := by decide
    exact .digits h0 h0 h6 hf
  have hname : TextSpelled "codegen" _ :=
    .quoted (.cons (hplain 'c' (by simp)) (.cons (.unit hunit) (.cons (hplain 'd' (by simp))
      (.cons (hplain 'e' (by simp)) (.cons (hplain 'g' (by simp)) (.cons (hplain 'e' (by simp))
        (.cons (hplain 'n' (by simp)) .nil)))))))
  have hy := Written.member gap (textSpelled_quote "y") gap (.element gap .nullName gap)
  have hobject := Written.element gap (.object (.lastMember hy)) gap
  have hx := Written.member gap (textSpelled_quote "x") gap
    (.element gap (.array (.lastItem hobject)) gap)
  have hmore := Written.member gap (textSpelled_quote "more") gap
    (.element gap (.array (.lastItem (.element gap .trueName gap))) gap)
  have hdims := Written.member gap (textSpelled_quote "dimensions") gap
    (.element gap (.number (isNumber_toDigits 4)) gap)
  have hsettings := Written.member newline hname blank
    (.element gap (.object (.moreMembers hmore (.lastMember hdims))) gap)
  exact Written.element gap (.object (.moreMembers hx (.lastMember hsettings))) gap

/-- A document that names `codegen` twice. -/
def twiceText : String := "\x7b\"codegen\":\x7b\x7d,\"codegen\":\x7b\x7d\x7d"

/-- The members of that document. -/
def twiceRoot : List (String × Json.Value) := [("codegen", .object []), ("codegen", .object [])]

theorem twiceText_written : Written (.element (.object twiceRoot)) twiceText.toList := by
  have gap : Gap [] := fun _ h => by cases h
  have hmember := Written.member gap (textSpelled_quote "codegen") gap
    (.element gap (.object (.noMembers gap)) gap)
  exact Written.element gap (.object (.moreMembers hmember (.lastMember hmember))) gap

/-- The first document is read, with four dimensions and the default of everything
else; the second one is not. -/
theorem ofJson_document_mixed :
    (Written (.element (.object mixedRoot)) mixedText.toList ∧ NamedOnce mixedRoot
        ∧ ofJson mixedText = .ok { Settings.default with dimensions := 4 })
      ∧ Written (.element (.object twiceRoot)) twiceText.toList ∧ ¬ NamedOnce twiceRoot
        ∧ ∃ fault, ofJson twiceText = .error fault := by
  have hfront : Place.settingsName
      ∉ [("x", Json.Value.array [.object [("y", .null)]])].map Prod.fst := by decide
  have honce : NamedOnce mixedRoot :=
    (namedOnce_iff hfront).mpr ⟨List.not_mem_nil, fun field => by cases field <;> decide⟩
  have hgives : ∀ field v, Gives mixedRoot field v ↔ field = .dimensions ∧ v = .number ['4'] := by
    intro field v
    refine (gives_iff hfront List.not_mem_nil field v).trans ?_
    cases field <;> simp [Draft.Lists, mixedSection, Field.name]
  have hdims : ∀ s : Settings, s.dimensions = 4 → Field.Writes s .dimensions (.number ['4']) :=
    fun s hs => .dimensions (by simp) hs.symm (hs ▸ by decide)
  have htwice : ¬ NamedOnce twiceRoot := fun h => absurd h.1 (by decide)
  have hmixed := ofJson_document mixedText_written fun v hv =>
    ⟨mixedSection, (mem_section_iff hfront List.not_mem_nil v).mp hv⟩
  have hrefused := ofJson_document twiceText_written fun v hv => by
    simp only [twiceRoot, Place.settingsName, List.mem_cons, Prod.mk.injEq, true_and,
      List.not_mem_nil, or_false, or_self] at hv
    exact ⟨[], hv⟩
  obtain ⟨s, hs, hreflects⟩ := hmixed.1 honce fun field v hv => by
    obtain ⟨rfl, rfl⟩ := (hgives field v).mp hv
    exact ⟨{ Settings.default with dimensions := 4 }, hdims _ rfl⟩
  have hothers : ∀ field ≠ Field.dimensions, field.Agree s Settings.default :=
    fun field hne => (hreflects field).2 fun v hv => hne ((hgives field v).mp hv).1
  have hfour : s.dimensions = 4 := by
    cases (hreflects .dimensions).1 _ ((hgives _ _).mpr ⟨rfl, rfl⟩) with
    | dimensions _ hvalue _ => exact hvalue.symm
  have hs4 : s = { Settings.default with dimensions := 4 } := by
    obtain ⟨dimensions, symbols, negativeAxis, scalarType, recordStem⟩ := s
    obtain rfl : dimensions = 4 := hfour
    obtain rfl : symbols = _ := hothers .symbols (by decide)
    obtain rfl : negativeAxis = _ := hothers .negativeAxis (by decide)
    obtain rfl : scalarType = _ := hothers .scalarType (by decide)
    obtain rfl : recordStem = _ := hothers .recordStem (by decide)
    rfl
  exact ⟨⟨mixedText_written, honce, hs4 ▸ hs⟩, twiceText_written, htwice, hrefused.2 htwice⟩

end GeometricAlgebra.Settings
