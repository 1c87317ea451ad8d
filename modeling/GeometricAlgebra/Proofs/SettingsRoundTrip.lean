/-
  GeometricAlgebra.Proofs.SettingsRoundTrip
  ────────────────────────────────
  **SETTINGS SURVIVE BEING WRITTEN AND READ AGAIN.**

  What the writer writes for texts and numbers are spellings of the grammar
  (`Settings.textSpelled_quote`, `Settings.isNumber_toDigits`).  So the written
  document is scanned piece by piece, and each member turns out to be three tokens:
  its name, the colon and its value (`Settings.tokens_memberLine`).
  The reader takes the value over from its token and leaves the other settings
  alone (`Reader.run_memberTokens`), so behind the members of a list it has their
  written values and still its own of the others (`Reader.run_membersTokens`).
  The document lists all five, each once.

  Main result:
    * `Settings.ofJson_toJson` — whatever the texts contain, the settings read
      from a written document are those that were written.
-/
import GeometricAlgebra.Proofs.JsonGrammar
import GeometricAlgebra.Settings.Writer

namespace GeometricAlgebra.Settings

open Json

/-! ## §1. Spellings of the writer. -/

theorem hexDigit_mem : ∀ n < 16, (hexDigit n, n) ∈ hexDigits := by decide

/-- An escaped character is a spelling of the character. -/
theorem charSpelled_escapeChar (c : Char) : CharSpelled c (escapeChar c) := by
  unfold escapeChar
  split_ifs with hquote hbackslash hb hf hn hr ht hcontrol
  · subst hquote
    exact .letter (by decide)
  · subst hbackslash
    exact .letter (by decide)
  · subst hb
    exact .letter (by decide)
  · subst hf
    exact .letter (by decide)
  · subst hn
    exact .letter (by decide)
  · subst hr
    exact .letter (by decide)
  · subst ht
    exact .letter (by decide)
  · have hzero : ('0', 0) ∈ hexDigits := by decide
    have hhigh := hexDigit_mem (c.toNat / 16) (by omega)
    have hlow := hexDigit_mem (c.toNat % 16) (by omega)
    have hvalue : ((0 * 16 + 0) * 16 + c.toNat / 16) * 16 + c.toNat % 16 = c.toNat := by omega
    have hunit := UnitSpelled.digits hzero hzero hhigh hlow
    rw [hvalue] at hunit
    exact .unit hunit
  · exact .itself hquote hbackslash hcontrol

/-- **A quoted text is a spelling of the text.** -/
theorem textSpelled_quote (text : String) : TextSpelled text (quote text).toList := by
  have hquote : (quote text).toList
      = '"' :: ((text.toList.map escapeChar).flatten ++ ['"']) := by
    simp [quote, List.flatMap_def]
  rw [hquote]
  exact .quoted (List.forall₂_map_right_iff.mpr
    (List.forall₂_same.mpr fun c _ => charSpelled_escapeChar c))

theorem tokens_quote (text : String) (rest : List Char) :
    Scanner.between.tokens ((quote text).toList ++ rest)
      = .text (some text) :: Scanner.between.tokens rest :=
  Scanner.tokens_text (textSpelled_quote text) rest

theorem isDigit_of_mem_toDigits {n : Nat} {c : Char} (h : c ∈ Nat.toDigits 10 n) :
    c.isDigit = true :=
  Nat.isDigit_of_mem_toDigits (by decide) (by decide) h

/-- **A written number has no leading zero**, unless it is zero. -/
theorem toDigits_eq_cons {n : Nat} (hn : 0 < n) :
    ∃ first digits, Nat.toDigits 10 n = Nat.digitChar first :: digits ∧ 0 < first ∧ first < 10 := by
  induction n using Nat.strongRecOn with
  | ind n ih =>
    by_cases hlt : n < 10
    · exact ⟨n, [], Nat.toDigits_of_lt_base hlt, hn, hlt⟩
    · obtain ⟨first, digits, hdigits, hfirst⟩ := ih (n / 10) (by omega) (by omega)
      refine ⟨first, digits ++ [(n % 10).digitChar], ?_, hfirst⟩
      rw [Nat.toDigits_of_base_le (by decide) (Nat.le_of_not_lt hlt), hdigits, List.cons_append]

theorem digitChar_ne_zero : ∀ first < 10, 0 < first → Nat.digitChar first ≠ '0' := by decide

/-- **A written number is a spelling of a number.** -/
theorem isNumber_toDigits (n : Nat) : IsNumber (Nat.toDigits 10 n) := by
  have hall : ∀ c ∈ Nat.toDigits 10 n, c.isDigit = true := fun c => isDigit_of_mem_toDigits
  have hwhole : IsWhole (Nat.toDigits 10 n) := by
    rcases Nat.eq_zero_or_pos n with rfl | hpos
    · exact ⟨⟨by decide, hall⟩, fun _ => Nat.toDigits_zero 10⟩
    · obtain ⟨first, digits, hdigits, hfirst0, hfirst⟩ := toDigits_eq_cons hpos
      rw [hdigits] at hall ⊢
      refine ⟨⟨List.cons_ne_nil _ _, hall⟩, fun hzero => ?_⟩
      exact absurd (Option.some.inj hzero) (digitChar_ne_zero first hfirst hfirst0)
  have hnumber : IsNumber ([] ++ Nat.toDigits 10 n ++ [] ++ []) :=
    .parts List.mem_cons_self hwhole .none .none
  rwa [List.nil_append, List.append_nil, List.append_nil] at hnumber

theorem decimalValue_toDigits (n : Nat) : decimalValue (Nat.toDigits 10 n) = n := by
  have hvalue : ∀ digits : List Char, decimalValue digits = Nat.ofDigitChars 10 digits 0 := by
    intro digits
    unfold decimalValue
    rw [Nat.ofDigitChars_eq_foldl]
    simp only [Nat.mul_comm 10]
    rfl
  rw [hvalue, Nat.ofDigitChars_ten_toDigits]

/-- The kind of a written number. -/
theorem ofLexeme_toDigits {n : Nat} (hn : n < Word.bound) :
    Number.ofLexeme (Nat.toDigits 10 n) = .natural n := by
  rw [Scanner.ofLexeme_digits (fun c => isDigit_of_mem_toDigits)
    ((decimalValue_toDigits n).symm ▸ hn), decimalValue_toDigits]

/-! ## §2. Scanning a written document. -/

/-- The token of a written setting. -/
def Field.token (field : Field) (s : Settings) : Token :=
  match field with
  | .dimensions => .number (.natural s.dimensions)
  | .symbols => .text (some s.symbols)
  | .negativeAxis => .text (some (String.singleton s.negativeAxis))
  | .scalarType => .text (some s.scalarType)
  | .recordStem => .text (some s.recordStem)

/-- The tokens of a written member. -/
def memberTokens (s : Settings) (field : Field) : List Token :=
  [.text (some field.name), .colon, field.token s]

/-- The tokens of written members. -/
def membersTokens (s : Settings) (fields : List Field) : List Token :=
  [Token.comma].intercalate (fields.map s.memberTokens)

theorem membersTokens_cons_cons (s : Settings) (field next : Field) (fields : List Field) :
    s.membersTokens (field :: next :: fields)
      = s.memberTokens field ++ .comma :: s.membersTokens (next :: fields) := by
  unfold membersTokens
  rw [List.map_cons, List.map_cons, List.intercalate_cons_cons, List.append_assoc]
  rfl

section Scan

variable {s : Settings} (hs : s.dimensions < Word.bound)
include hs

/-- A written value is one token. -/
theorem tokens_write (field : Field) {c : Char} (hc : Scanner.EndsNumber c) (rest : List Char) :
    Scanner.between.tokens ((field.write s).toList ++ c :: rest)
      = field.token s :: Scanner.between.tokens (c :: rest) := by
  cases field with
  | dimensions =>
    have hrest := Scanner.ends_cons hc rest
    have hscans := Scanner.scans_number (isNumber_toDigits s.dimensions) _ hrest
    rwa [ofLexeme_toDigits hs, ← Nat.toList_repr] at hscans
  | symbols => exact tokens_quote s.symbols _
  | negativeAxis => exact tokens_quote (String.singleton s.negativeAxis) _
  | scalarType => exact tokens_quote s.scalarType _
  | recordStem => exact tokens_quote s.recordStem _

/-- **A written member is three tokens.** -/
theorem tokens_memberLine (field : Field) {c : Char} (hc : Scanner.EndsNumber c)
    (rest : List Char) :
    Scanner.between.tokens ((s.memberLine field).toList ++ c :: rest)
      = s.memberTokens field ++ Scanner.between.tokens (c :: rest) := by
  have hline : (s.memberLine field).toList ++ c :: rest
      = ' ' :: ' ' :: ' ' :: ' ' :: ((quote field.name).toList
        ++ ':' :: ' ' :: ((field.write s).toList ++ c :: rest)) := by
    simp [memberLine]
  have hcolon : Scanner.step .between ':' = (.between, [.colon]) := rfl
  rw [hline, Scanner.tokens_skip rfl, Scanner.tokens_skip rfl, Scanner.tokens_skip rfl,
    Scanner.tokens_skip rfl, tokens_quote, Scanner.tokens_cons hcolon,
    Scanner.tokens_skip rfl, tokens_write hs field hc]
  rfl

/-- Lines of members, with a comma behind each but the last. -/
theorem tokens_memberLines (fields : List Field) (rest : List Char) :
    Scanner.between.tokens
        ((String.intercalate ",\n" (fields.map s.memberLine)).toList ++ '\n' :: rest)
      = s.membersTokens fields ++ Scanner.between.tokens rest := by
  have hnewline : Scanner.step .between '\n' = (.between, []) := rfl
  have hcomma : Scanner.step .between ',' = (.between, [.comma]) := rfl
  induction fields with
  | nil => exact Scanner.tokens_skip hnewline rest
  | cons field fields ih =>
    cases fields with
    | nil =>
      rw [List.map_singleton, String.intercalate_singleton,
        tokens_memberLine hs field (by decide), Scanner.tokens_skip hnewline]
      rfl
    | cons next fields =>
      have hlines : (String.intercalate ",\n" ((field :: next :: fields).map s.memberLine)).toList
            ++ '\n' :: rest
          = (s.memberLine field).toList ++ ',' :: '\n' ::
            ((String.intercalate ",\n" ((next :: fields).map s.memberLine)).toList
              ++ '\n' :: rest) := by
        simp
      rw [hlines, tokens_memberLine hs field (by decide), Scanner.tokens_cons hcomma,
        Scanner.tokens_skip hnewline, ih, membersTokens_cons_cons, List.append_assoc]
      rfl

/-- **The tokens of a written document.** -/
theorem tokens_toJson : Scanner.between.tokens s.toJson.toList
    = [Token.openObject, .text (some Place.settingsName), .colon, .openObject]
      ++ (s.membersTokens Field.all ++ [Token.closeObject, .closeObject]) := by
  have htext : s.toJson.toList
      = '\x7b' :: '\n' :: ' ' :: ' ' :: ((quote Place.settingsName).toList
        ++ ':' :: ' ' :: '\x7b' :: '\n' ::
          ((String.intercalate ",\n" (Field.all.map s.memberLine)).toList
            ++ '\n' :: ' ' :: ' ' :: '\x7d' :: '\n' :: '\x7d' :: [])) := by
    simp [toJson]
  have hopen : Scanner.step .between '\x7b' = (.between, [.openObject]) := rfl
  have hclose : Scanner.step .between '\x7d' = (.between, [.closeObject]) := rfl
  have hcolon : Scanner.step .between ':' = (.between, [.colon]) := rfl
  have hspace : Scanner.step .between ' ' = (.between, []) := rfl
  have hnewline : Scanner.step .between '\n' = (.between, []) := rfl
  rw [htext, Scanner.tokens_cons hopen, Scanner.tokens_skip hnewline, Scanner.tokens_skip hspace,
    Scanner.tokens_skip hspace, tokens_quote, Scanner.tokens_cons hcolon,
    Scanner.tokens_skip hspace, Scanner.tokens_cons hopen, Scanner.tokens_skip hnewline,
    tokens_memberLines hs, Scanner.tokens_skip hspace, Scanner.tokens_skip hspace,
    Scanner.tokens_cons hclose, Scanner.tokens_skip hnewline, Scanner.tokens_cons hclose]
  rfl

end Scan

/-! ## §3. Reading the tokens. -/

/-- The settings `t` with one of them replaced by that of `s`. -/
def Field.copy (field : Field) (s t : Settings) : Settings :=
  match field with
  | .dimensions => { t with dimensions := s.dimensions }
  | .symbols => { t with symbols := s.symbols }
  | .negativeAxis => { t with negativeAxis := s.negativeAxis }
  | .scalarType => { t with scalarType := s.scalarType }
  | .recordStem => { t with recordStem := s.recordStem }

/-- **A setting is read from its token.** -/
theorem Field.read_token (field : Field) (s t : Settings) :
    field.read t (field.token s) = .ok (field.copy s t) := by
  cases field with
  | negativeAxis =>
    unfold Field.token Field.read
    simp only [String.toList_singleton]
    rfl
  | _ => rfl

/-- A setting is found by its name. -/
theorem Place.member_name (field : Field) : Place.member .settings field.name = .field field := by
  cases field <;> decide

/-- With all settings replaced, nothing is left of the others. -/
theorem foldl_copy_all (s t : Settings) :
    Field.all.foldl (fun t field => field.copy s t) t = s := rfl

namespace Reader

theorem run_cons {r r' : Reader} {token : Token} (h : r.step token = .ok r')
    (tokens : List Token) : r.run (token :: tokens) = r'.run tokens := by
  unfold run
  rw [List.foldlM_cons, h]
  rfl

theorem run_append_ok {r r' : Reader} {front : List Token} (h : r.run front = .ok r')
    (back : List Token) : r.run (front ++ back) = r'.run back := by
  rw [run_append, h]
  rfl

/-- The reader within the settings object. -/
def within (settings : Settings) (named : List Place) (outer : List Frame)
    (expected : Expected) : Reader :=
  ⟨settings, named, .object .settings :: outer, expected⟩

variable (s settings : Settings) {named : List Place} (outer : List Frame) {expected : Expected}

/-- **A member sets its setting**, if it has not been named before. -/
theorem run_memberTokens {field : Field}
    (hexpected : expected = .firstMember ∨ expected = .member) (hnew : .field field ∉ named) :
    (within settings named outer expected).run (s.memberTokens field)
      = .ok (within (field.copy s settings) (.field field :: named) outer .separator) := by
  have hread : (within settings named outer expected).readName (.text (some field.name))
      = .ok (within settings (.field field :: named) outer (.colon (.field field))) := by
    simp [within, readName, Place.member_name, hnew]
  have hname : (within settings named outer expected).step (.text (some field.name))
      = .ok (within settings (.field field :: named) outer (.colon (.field field))) := by
    rcases hexpected with rfl | rfl
    · exact hread
    · exact hread
  have hcolon : (within settings (.field field :: named) outer (.colon (.field field))).step .colon
      = .ok (within settings (.field field :: named) outer (.value (.field field))) := rfl
  have hvalue : (within settings (.field field :: named) outer (.value (.field field))).step
        (field.token s)
      = .ok (within (field.copy s settings) (.field field :: named) outer .separator) := by
    simp only [within, step, readValue, Field.read_token]
    rfl
  unfold memberTokens
  rw [run_cons hname, run_cons hcolon, run_cons hvalue]
  rfl

/-- **Different members set their settings**, one after the other. -/
theorem run_membersTokens {fields : List Field} (hne : fields ≠ [])
    (hexpected : expected = .firstMember ∨ expected = .member) (hnodup : fields.Nodup)
    (hnew : ∀ field ∈ fields, .field field ∉ named) :
    (within settings named outer expected).run (s.membersTokens fields)
      = .ok (within (fields.foldl (fun t field => field.copy s t) settings)
          ((fields.map Place.field).reverse ++ named) outer .separator) := by
  induction fields generalizing settings named expected with
  | nil => exact absurd rfl hne
  | cons field fields ih =>
    obtain ⟨hfield, hrest⟩ := List.nodup_cons.mp hnodup
    have hfirst := run_memberTokens s settings outer hexpected (hnew field List.mem_cons_self)
    cases fields with
    | nil => exact hfirst
    | cons next fields =>
      have hcomma : (within (field.copy s settings) (.field field :: named) outer .separator).step
            .comma
          = .ok (within (field.copy s settings) (.field field :: named) outer .member) := rfl
      -- the others are neither this member nor one of those before
      have hothers : ∀ f ∈ next :: fields, Place.field f ∉ .field field :: named := by
        intro f hf hmem
        rcases List.mem_cons.mp hmem with heq | hmem
        · cases heq
          exact hfield hf
        · exact hnew f (List.mem_cons_of_mem field hf) hmem
      rw [membersTokens_cons_cons, run_append_ok hfirst, run_cons hcomma,
        ih _ (List.cons_ne_nil next fields) (.inr rfl) hrest hothers]
      simp

end Reader

/-! ## §4. The round trip. -/

/-- **SETTINGS SURVIVE JSON**: whatever their texts contain, quotation marks,
backslashes, control characters and characters of all planes among them, settings
whose dimensions an unsigned word can hold are read back from the document they are
written to. -/
theorem ofJson_toJson {s : Settings} (hs : s.dimensions < Word.bound) :
    ofJson s.toJson = .ok s := by
  have hhead : Reader.start.run
      [.openObject, .text (some Place.settingsName), .colon, .openObject]
      = .ok (Reader.within Settings.default [.settings] [.object .document] .firstMember) := by
    decide
  have hne : Field.all ≠ [] := by decide
  have hnodup : Field.all.Nodup := by decide
  have hnew : ∀ field ∈ Field.all, Place.field field ∉ [Place.settings] := by decide
  have hmembers := Reader.run_membersTokens s Settings.default [.object .document]
    hne (.inl rfl) hnodup hnew
  rw [foldl_copy_all] at hmembers
  rw [ofJson_eq, tokens_toJson hs, Reader.run_append_ok hhead, Reader.run_append_ok hmembers]
  rfl

/-- Settings with a quotation mark, a backslash, control characters and a character
beyond the first plane, at the greatest number of dimensions. -/
theorem ofJson_toJson_escapes :
    let s : Settings := ⟨18446744073709551615, "m\"\\\x00\x1f\n", '𝔾', "f\t64é", ""⟩
    s.dimensions < Word.bound ∧ quote s.symbols = "\"m\\\"\\\\\\u0000\\u001f\\n\""
      ∧ ofJson s.toJson = .ok s := by
  intro s
  have hs : s.dimensions < Word.bound := by decide
  exact ⟨hs, by decide, ofJson_toJson hs⟩

end GeometricAlgebra.Settings
