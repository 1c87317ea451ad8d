/-
  GeometricAlgebra.Proofs.TokenStream
  ────────────────────────────────
  **A DOCUMENT IS ITS STREAM OF TOKENS.**

  Scanner and reader move in lockstep, character by character, but neither
  depends on the other: to read a document is to scan all of it and then to read
  the tokens (`Settings.ofJson_eq`).  What is written is therefore understood in
  two halves.  This module opens the scanner for the first one: what a spelling of a
  character does within a text (`Scanner.tokens_itself`, `Scanner.tokens_letter`,
  `Scanner.tokens_fourDigits`), what completes a text (`Scanner.tokens_endText`), and
  what completes a number, whose end only the next character tells
  (`Scanner.tokens_endNumber`).

  A lemma about a piece of a document leaves the rest of it open, so the lemmas
  chain as the pieces do.
-/
import GeometricAlgebra.Settings.Reader
import Mathlib

namespace GeometricAlgebra

/-! ## §1. Scanning before reading. -/

namespace Json.Scanner

/-- The tokens of all characters to come, and of the end of the document. -/
def tokens (scanner : Scanner) : List Char → List Token
  | [] => scanner.finish
  | c :: rest => (scanner.step c).2 ++ tokens (scanner.step c).1 rest

theorem tokens_cons {scanner next : Scanner} {c : Char} {completed : List Token}
    (h : scanner.step c = (next, completed)) (rest : List Char) :
    scanner.tokens (c :: rest) = completed ++ next.tokens rest := by
  rw [tokens, h]

/-- A step that completes nothing. -/
theorem tokens_skip {scanner next : Scanner} {c : Char} (h : scanner.step c = (next, []))
    (rest : List Char) : scanner.tokens (c :: rest) = next.tokens rest :=
  tokens_cons h rest

end Json.Scanner

namespace Settings

open Json

/-- The scanner and the reader behind it do what they do one after the other. -/
theorem Document.run_eq (d : Document) (characters : List Char) :
    (characters.foldlM Document.step d).bind Document.finish
      = (d.reader.run (d.scanner.tokens characters)).bind Reader.finish := by
  induction characters generalizing d with
  | nil => rfl
  | cons c rest ih =>
    have hstep : d.step c = (d.reader.run (d.scanner.step c).2).bind
        fun reader => .ok ⟨(d.scanner.step c).1, reader⟩ := rfl
    rw [List.foldlM_cons, Scanner.tokens, Reader.run_append, hstep]
    cases d.reader.run (d.scanner.step c).2 with
    | error fault => rfl
    | ok reader => exact ih ⟨(d.scanner.step c).1, reader⟩

/-- **To read a document is to read its tokens.** -/
theorem ofJson_eq (text : String) :
    ofJson text = (Reader.start.run (Scanner.between.tokens text.toList)).bind Reader.finish :=
  Document.run_eq Document.start text.toList

end Settings

namespace Json.Scanner

/-! ## §2. Texts. -/

/-- A character is no half of a surrogate pair. -/
theorem not_isSurrogate (c : Char) :
    (isHighSurrogate c.toNat || isLowSurrogate c.toNat) = false := by
  have hvalid : c.toNat < 0xD800 ∨ 0xDFFF < c.toNat ∧ c.toNat < 0x110000 := c.valid
  unfold isHighSurrogate isLowSurrogate
  simp only [Bool.or_eq_false_iff, Bool.and_eq_false_iff, decide_eq_false_iff_not]
  omega

/-- What is no second half joins nothing in front of it. -/
theorem pushUnit_of_not_low (units : List Nat) {unit : Nat} (hlow : isLowSurrogate unit = false) :
    pushUnit units unit = unit :: units := by
  unfold pushUnit
  cases units with
  | nil => rfl
  | cons high rest =>
    show (if (isHighSurrogate high && isLowSurrogate unit) = true then _ else _) = _
    rw [hlow, Bool.and_false, if_neg Bool.false_ne_true]

theorem pushUnit_toNat (units : List Nat) (c : Char) :
    pushUnit units c.toNat = c.toNat :: units :=
  pushUnit_of_not_low units (Bool.or_eq_false_iff.mp (not_isSurrogate c)).2

/-- **Four hexadecimal digits are one code unit.** -/
theorem tokens_fourDigits (units : List Nat) {a b c d : Char} {a' b' c' d' : Nat}
    (ha : hexValue a = some a') (hb : hexValue b = some b') (hc : hexValue c = some c')
    (hd : hexValue d = some d') (rest : List Char) :
    (Scanner.hex units 4 0).tokens (a :: b :: c :: d :: rest)
      = (Scanner.text (pushUnit units (((a' * 16 + b') * 16 + c') * 16 + d'))).tokens rest := by
  have h1 : step (.hex units 4 0) a = (.hex units 3 a', []) := by
    simp [step, stepHex, ha]
  have h2 : step (.hex units 3 a') b = (.hex units 2 (a' * 16 + b'), []) := by
    simp [step, stepHex, hb]
  have h3 : step (.hex units 2 (a' * 16 + b')) c
      = (.hex units 1 ((a' * 16 + b') * 16 + c'), []) := by
    simp [step, stepHex, hc]
  have h4 : step (.hex units 1 ((a' * 16 + b') * 16 + c')) d
      = (.text (pushUnit units (((a' * 16 + b') * 16 + c') * 16 + d')), []) := by
    simp [step, stepHex, hd]
  rw [tokens_skip h1, tokens_skip h2, tokens_skip h3, tokens_skip h4]

/-- A backslash and the letter of a character. -/
theorem tokens_letter (units : List Nat) {letter c : Char} (hu : letter ≠ 'u')
    (hc : escaped letter = some c) (rest : List Char) :
    (Scanner.text units).tokens ('\\' :: letter :: rest)
      = (Scanner.text (c.toNat :: units)).tokens rest := by
  have hbackslash : step (.text units) '\\' = (.escape units, []) := rfl
  have hletter : step (.escape units) letter = (.text (c.toNat :: units), []) := by
    simp [step, stepEscape, hu, hc, pushUnit_toNat]
  rw [tokens_skip hbackslash, tokens_skip hletter]

/-- A character that stands for itself. -/
theorem tokens_itself (units : List Nat) {c : Char} (hquote : c ≠ '"') (hbackslash : c ≠ '\\')
    (hcontrol : ¬ c.toNat < 0x20) (rest : List Char) :
    (Scanner.text units).tokens (c :: rest) = (Scanner.text (c.toNat :: units)).tokens rest := by
  have hstep : step (.text units) c = (.text (c.toNat :: units), []) := by
    simp [step, stepText, hquote, hbackslash, hcontrol, pushUnit_toNat]
  exact tokens_skip hstep rest

/-- Code units of characters make up their text. -/
theorem contentOf_toNat (characters : List Char) :
    contentOf (characters.map Char.toNat).reverse = some (String.ofList characters) := by
  have hany : (characters.map Char.toNat).reverse.any
      (fun unit => isHighSurrogate unit || isLowSurrogate unit) = false := by
    rw [List.any_reverse, List.any_map, List.any_eq_false]
    intro c _
    rw [Function.comp_apply, not_isSurrogate]
    exact Bool.false_ne_true
  have hmap : (characters.map Char.toNat).map Char.ofNat = characters := by
    rw [List.map_map]
    exact List.map_id'' Char.ofNat_toNat characters
  unfold contentOf
  rw [hany, if_neg Bool.false_ne_true, List.reverse_reverse, hmap]

/-- The quotation mark behind a text completes it. -/
theorem tokens_endText (text : String) (rest : List Char) :
    (Scanner.text (text.toList.map Char.toNat).reverse).tokens ('"' :: rest)
      = .text (some text) :: between.tokens rest := by
  have hend : step (.text (text.toList.map Char.toNat).reverse) '"'
      = (.between, [.text (some text)]) := by
    show (Scanner.between, [Token.text (contentOf (text.toList.map Char.toNat).reverse)]) = _
    rw [contentOf_toNat, String.ofList_toList]
  rw [tokens_cons hend, List.singleton_append]

/-! ## §3. Numbers. -/

/-- Characters behind which a number is complete. -/
def EndsNumber (c : Char) : Prop := c.isDigit = false ∧ c ≠ '.' ∧ c ≠ 'e' ∧ c ≠ 'E'

instance (c : Char) : Decidable (EndsNumber c) := inferInstanceAs (Decidable (_ ∧ _))

/-- What follows a number: nothing, or a character that ends it. -/
def Ends (rest : List Char) : Prop := ∀ c ∈ rest.head?, EndsNumber c

theorem ends_nil : Ends [] := fun _ hc => by cases hc

theorem ends_cons {c : Char} (hc : EndsNumber c) (rest : List Char) : Ends (c :: rest) := by
  intro c' hc'
  cases hc'
  exact hc

/-- A number is completed by the character behind it, which is then read anew, or by
the end of the document. -/
theorem tokens_endNumber {phase : NumberPhase} (lexeme : List Char)
    (hphase : isComplete phase = true) {rest : List Char} (hrest : Ends rest) :
    (Scanner.number phase lexeme).tokens rest
      = .number (Number.ofLexeme lexeme.reverse) :: between.tokens rest := by
  have hend : endNumber phase lexeme = .number (Number.ofLexeme lexeme.reverse) := if_pos hphase
  cases rest with
  | nil =>
    show [endNumber phase lexeme] = _
    rw [hend]
    rfl
  | cons c rest =>
    obtain ⟨hdigit, hpoint, he, hE⟩ := hrest c rfl
    have hnext : nextPhase phase c = none := by
      cases phase with
      | zero | whole | fraction | exponent =>
        simp [nextPhase, nextPhase.mark, hdigit, hpoint, he, hE]
      | _ => cases hphase
    have hstep : step (.number phase lexeme) c
        = ((begin c).1, .number (Number.ofLexeme lexeme.reverse) :: (begin c).2) := by
      simp only [step, stepNumber, hend, hnext, hphase, hdigit, Bool.and_false,
        Bool.not_false, Bool.and_true, if_true]
    rw [tokens_cons hstep]
    rfl

/-- Digits join what has been read of a number, in the phases that take digits. -/
theorem tokens_digits {phase : NumberPhase}
    (hphase : ∀ c : Char, c.isDigit = true → nextPhase phase c = some phase)
    (lexeme : List Char) {digits : List Char} (hdigits : ∀ c ∈ digits, c.isDigit = true)
    (rest : List Char) :
    (Scanner.number phase lexeme).tokens (digits ++ rest)
      = (Scanner.number phase (digits.reverse ++ lexeme)).tokens rest := by
  induction digits generalizing lexeme with
  | nil => rfl
  | cons c digits ih =>
    have hnext := hphase c (hdigits c List.mem_cons_self)
    have hstep : step (.number phase lexeme) c = (.number phase (c :: lexeme), []) := by
      simp only [step, stepNumber, hnext]
    rw [List.cons_append, tokens_skip hstep,
      ih _ fun c' hc' => hdigits c' (List.mem_cons_of_mem c hc'), List.reverse_cons,
      List.append_assoc, List.singleton_append]

theorem nextPhase_whole {c : Char} (hc : c.isDigit = true) : nextPhase .whole c = some .whole :=
  if_pos hc

/-- A number that does not start with a zero. -/
theorem step_digit {c : Char} (hc : c.isDigit = true) (hzero : c ≠ '0') :
    step .between c = (.number .whole [c], []) := by
  have hall : ∀ n < 58, 48 < n →
      step .between (Char.ofNat n) = (.number .whole [Char.ofNat n], []) := by decide
  have hrange : 48 ≤ c.toNat ∧ c.toNat ≤ 57 := Char.isDigit_iff_toNat.mp hc
  have hne : c.toNat ≠ 48 := fun h => hzero (Char.toNat_inj.mp h)
  have h := hall c.toNat (by omega) (by omega)
  rwa [Char.ofNat_toNat] at h

/-- The kind of a number that is written with digits only. -/
theorem ofLexeme_digits {digits : List Char} (hdigits : ∀ c ∈ digits, c.isDigit = true)
    (hlt : decimalValue digits < Word.bound) :
    Number.ofLexeme digits = .natural (decimalValue digits) := by
  have hsign : (digits.head? == some '-') = false := by
    rw [beq_eq_false_iff_ne]
    intro h
    cases hdigits '-' (List.mem_of_mem_head? h)
  have hwhole : digits.takeWhile Char.isDigit = digits :=
    List.takeWhile_eq_self_iff.mpr hdigits
  have hrest : digits.dropWhile Char.isDigit = [] :=
    List.dropWhile_eq_nil_iff.mpr hdigits
  unfold Number.ofLexeme
  rw [hsign]
  simp only [Bool.false_eq_true, if_false, hwhole, hrest, true_and, hlt, if_true]

end Json.Scanner

end GeometricAlgebra
