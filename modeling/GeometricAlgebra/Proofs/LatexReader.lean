/-
  GeometricAlgebra.Proofs.LatexReader
  ────────────────────────────────
  **READING LATEX AS IT IS TYPESET.**

  A formula is read word by word.  A word is a number, a fraction, a variable or a raised
  variable; the words `+` and `-` begin the next term.  What a circumflex raises is the
  token behind it and no more: one digit, or one braced group.  Digits behind that token
  stand on the line again and are a factor of their own,

      {a}^12   is typeset as   a¹ 2,   and   {a}^{12}   as   a¹².

  A power is therefore read with the first digit of its exponent, times the number that the
  other digits spell (`Latex.readFactor_power`).

  Main result:
    * `Polynomial.read_render` — what is read off the LaTeX text of a polynomial: its terms,
      with their powers seen in this way.
-/
import GeometricAlgebra.Proofs.PolynomialReading

namespace GeometricAlgebra

open Outcome Text

namespace Latex

/-! ## §1. Tokens. -/

/-- The number that decimal digits spell. -/
def number? (w : List Char) : Option Nat :=
  if w ≠ [] ∧ w.all Char.isDigit then some (Nat.ofDigitChars 10 w 0) else none

/-- A group up to its closing brace, and what stands behind it. -/
def group : List Char → Option (List Char × List Char)
  | [] => none
  | c :: rest =>
      if c = '\x7d' then some ([], rest)
      else do
        let (inner, behind) ← group rest
        return (c :: inner, behind)

/-- The token in front, a braced group or one character, and what stands behind it. -/
def token : List Char → Option (List Char × List Char)
  | [] => none
  | c :: rest => if c = '\x7b' then group rest else some ([c], rest)

/-! ## §2. Words. -/

/-- What a product has of a word: names that are multiplied, and a number. -/
structure Factor where
  /-- The names, each as often as it is a factor. -/
  names : List String
  /-- The number. -/
  number : ℚ
  deriving DecidableEq

/-- The empty product. -/
def Factor.one : Factor := ⟨[], 1⟩

/-- The product of two factors. -/
def Factor.mul (f g : Factor) : Factor := ⟨f.names ++ g.names, f.number * g.number⟩

/-- A word of digits. -/
def readNumber (w : List Char) : Option Factor := do
  let n ← number? w
  return ⟨[], n⟩

/-- A fraction, behind its backslash. -/
def readFraction (w : List Char) : Option Factor :=
  if w.take 4 = "frac".toList then do
    let (num, behind) ← token (w.drop 4)
    let (den, behind) ← token behind
    let n ← number? num
    let d ← number? den
    if behind = [] then return ⟨[], n / d⟩ else none
  else none

/-- A variable. -/
def readName (w : List Char) : Option Factor :=
  if IsIdentifier (String.ofList w) then some ⟨[String.ofList w], 1⟩ else none

/-- The digits that are left on the line, as a number; none of them are the factor 1. -/
def readLine (w : List Char) : Option Nat := if w = [] then some 1 else number? w

/-- A variable in braces, raised to the token behind the circumflex.  What is left behind
that token stands on the line. -/
def readRaised (w : List Char) : Option Factor := do
  let (name, behind) ← token w
  let base ← readName name
  if behind.head? = some '^' then do
    let (script, line) ← token (behind.drop 1)
    let exponent ← number? script
    let number ← readLine line
    return ⟨(List.replicate exponent base.names).flatten, number⟩
  else none

/-- A word of a product. -/
def readFactor (w : List Char) : Option Factor :=
  match w with
  | [] => none
  | c :: rest =>
      if c = '\\' then readFraction rest
      else if c = '\x7b' then readRaised w
      else if c.isDigit then readNumber w
      else readName w

/-- A braced exponent is raised as a whole, a bare one up to its first digit. -/
example : readFactor "\x7ba\x7d^\x7b12\x7d".toList = some ⟨List.replicate 12 "a", 1⟩
    ∧ readFactor "\x7ba\x7d^12".toList = some ⟨["a"], 2⟩ := by decide +kernel

/-! ## §3. Sums. -/

/-- A product as a term with this sign. -/
def Factor.term (f : Factor) (negative : Bool) : Monomial × ℚ :=
  (.ofNames f.names, if negative then -f.number else f.number)

/-- The terms of a sum, given its words and the sign and the factors that have been read of
the first term. -/
def readTerms (negative : Bool) (f : Factor) : List (List Char) → Option (List (Monomial × ℚ))
  | [] => some [f.term negative]
  | w :: ws =>
      if w = ['+'] then do return f.term negative :: (← readTerms false .one ws)
      else if w = ['-'] then do return f.term negative :: (← readTerms true .one ws)
      else do readTerms negative (f.mul (← readFactor w)) ws

/-- The terms of a formula. -/
def read (text : String) : Option (List (Monomial × ℚ)) :=
  match text.toList with
  | [] => none
  | c :: rest =>
      if c = '-' then readTerms true .one (rest.splitOn ' ')
      else readTerms false .one ((c :: rest).splitOn ' ')

/-- The sum of the terms, as an element of the ring. -/
noncomputable def valueOf (terms : List (Monomial × ℚ)) : MvPolynomial String ℚ :=
  (terms.map fun t => Polynomial.ringTerm t.1 t.2).sum

/-- The formula is read as the polynomial. -/
def Reads (text : String) (p : Polynomial) : Prop :=
  ∃ terms, read text = some terms ∧ valueOf terms = p.value

/-! ## §4. What words are read as. -/

theorem isDigit_toDigits {n : Nat} : ∀ c ∈ Nat.toDigits 10 n, c.isDigit = true :=
  fun _ hc => Nat.isDigit_of_mem_toDigits (by decide) (by decide) hc

theorem brace_notMem_toDigits (n : Nat) : '\x7d' ∉ Nat.toDigits 10 n := by
  intro hmem
  cases isDigit_toDigits _ hmem

theorem number?_toDigits (n : Nat) : number? (Nat.toDigits 10 n) = some n := by
  unfold number?
  rw [if_pos ⟨Nat.toDigits_ne_nil, List.all_eq_true.mpr isDigit_toDigits⟩,
    Nat.ofDigitChars_ten_toDigits]

theorem group_append {w behind : List Char} (h : '\x7d' ∉ w) :
    group (w ++ '\x7d' :: behind) = some (w, behind) := by
  induction w with
  | nil => rfl
  | cons c w ih =>
    obtain ⟨hc, hw⟩ := not_or.mp (mt List.mem_cons.mpr h)
    rw [List.cons_append, group, if_neg (Ne.symm hc), ih hw]
    rfl

/-- A braced group without inner groups is one token. -/
theorem token_group {w behind : List Char} (h : '\x7d' ∉ w) :
    token ('\x7b' :: (w ++ '\x7d' :: behind)) = some (w, behind) := group_append h

theorem readFactor_toDigits (n : Nat) : readFactor (Nat.toDigits 10 n) = some ⟨[], n⟩ := by
  have hread : readNumber (Nat.toDigits 10 n) = some ⟨[], n⟩ := by
    rw [readNumber, number?_toDigits]
    rfl
  obtain ⟨c, cs, hcs⟩ : ∃ c cs, Nat.toDigits 10 n = c :: cs :=
    List.exists_cons_of_ne_nil Nat.toDigits_ne_nil
  have hdigit : c.isDigit = true := isDigit_toDigits (n := n) c (by simp [hcs])
  have hback : c ≠ '\\' := by
    rintro rfl
    cases hdigit
  have hbrace : c ≠ '\x7b' := by
    rintro rfl
    cases hdigit
  rw [hcs] at hread ⊢
  rw [readFactor, if_neg hback, if_neg hbrace, if_pos hdigit, hread]

/-- **A number is read as its value.** -/
theorem readFactor_number {x : Fraction} (hx : x.Unsigned) :
    readFactor (x.render .latex).toList = some ⟨[], x.value⟩ := by
  obtain ⟨⟨hden, -⟩, hnum⟩ := hx
  obtain ⟨n, hn⟩ := Int.eq_ofNat_of_zero_le hnum
  obtain ⟨d, hd⟩ := Int.eq_ofNat_of_zero_le hden.le
  have hrepr : ∀ k : Nat, (Int.repr k).toList = Nat.toDigits 10 k := fun k => Nat.toList_repr
  cases hi : x.isInteger with
  | true =>
    have hone : x.den = 1 := beq_iff_eq.mp hi
    rw [Fraction.render_of_isInteger hi, hn, hrepr, readFactor_toDigits, Fraction.value, hn, hone]
    simp
  | false =>
    rw [Fraction.render_latex hi, hn, hd, hrepr, hrepr]
    -- behind the command there are two tokens, and nothing is left
    show (do
      let (num, behind) ← token ('\x7b' :: (Nat.toDigits 10 n
        ++ '\x7d' :: '\x7b' :: (Nat.toDigits 10 d ++ ['\x7d'])))
      let (den, behind) ← token behind
      let n ← number? num
      let d ← number? den
      if behind = [] then return (⟨[], n / d⟩ : Factor) else none) = _
    rw [token_group (brace_notMem_toDigits n)]
    show (do
      let (den, behind) ← token ('\x7b' :: (Nat.toDigits 10 d ++ ['\x7d']))
      let n ← number? (Nat.toDigits 10 n)
      let d ← number? den
      if behind = [] then return (⟨[], n / d⟩ : Factor) else none) = _
    rw [token_group (brace_notMem_toDigits d), number?_toDigits]
    show (do
      let d ← number? (Nat.toDigits 10 d)
      return (⟨[], n / d⟩ : Factor)) = _
    rw [number?_toDigits, Fraction.value, hn, hd]
    rfl

/-- A name is read as a variable. -/
theorem readName_identifier {name : String} (h : IsIdentifier name) :
    readName name.toList = some ⟨[name], 1⟩ := by
  rw [readName, String.ofList_toList, if_pos h]

theorem readFactor_identifier {name : String} (h : IsIdentifier name) :
    readFactor name.toList = some ⟨[name], 1⟩ := by
  obtain ⟨c, cs, hcs, hletter⟩ := h.exists_cons
  have hread := readName_identifier h
  have hback : c ≠ '\\' := by
    rintro rfl
    cases hletter
  have hbrace : c ≠ '\x7b' := by
    rintro rfl
    cases hletter
  have hdigit : ¬ c.isDigit = true := by
    intro hdigit
    rw [isLetter_of_isDigit hdigit] at hletter
    cases hletter
  rw [hcs] at hread ⊢
  rw [readFactor, if_neg hback, if_neg hbrace, if_neg hdigit, hread]

/-- The exponent that is raised: the first digit of a written one. -/
def superscript (n : Nat) : Nat := Nat.ofDigitChars 10 ((Nat.toDigits 10 n).take 1) 0

/-- The number that the other digits of a written exponent put on the line. -/
def onLine (n : Nat) : Nat :=
  if (Nat.toDigits 10 n).drop 1 = [] then 1
  else Nat.ofDigitChars 10 ((Nat.toDigits 10 n).drop 1) 0

theorem superscript_of_lt {n : Nat} (h : n < 10) : superscript n = n := by
  have hone : (Nat.toDigits 10 n).take 1 = Nat.toDigits 10 n := by
    rw [Nat.toDigits_of_lt_base h]
    rfl
  rw [superscript, hone, Nat.ofDigitChars_ten_toDigits]

theorem onLine_of_lt {n : Nat} (h : n < 10) : onLine n = 1 := by
  rw [onLine, Nat.toDigits_of_lt_base h]
  rfl

/-- At most nine can be raised. -/
theorem superscript_lt (n : Nat) : superscript n < 10 := by
  obtain ⟨c, cs, hcs⟩ : ∃ c cs, Nat.toDigits 10 n = c :: cs :=
    List.exists_cons_of_ne_nil Nat.toDigits_ne_nil
  have hdigit : c.isDigit = true := isDigit_toDigits (n := n) c (by simp [hcs])
  have hrange : 48 ≤ c.toNat ∧ c.toNat ≤ 57 := Char.isDigit_iff_toNat.mp hdigit
  rw [superscript, hcs]
  show Nat.ofDigitChars 10 [c] 0 < 10
  rw [Nat.ofDigitChars_cons, Nat.ofDigitChars_nil]
  show 10 * 0 + (c.toNat - 48) < 10
  omega

/-- **Of a written number the circumflex takes one digit**, and the others stay on the line. -/
theorem token_toDigits (n : Nat) : ∃ c cs, Nat.toDigits 10 n = c :: cs
    ∧ token (c :: cs) = some ([c], cs) ∧ number? [c] = some (superscript n)
    ∧ readLine cs = some (onLine n) := by
  obtain ⟨c, cs, hcs⟩ : ∃ c cs, Nat.toDigits 10 n = c :: cs :=
    List.exists_cons_of_ne_nil Nat.toDigits_ne_nil
  have hdigits : ∀ d ∈ c :: cs, d.isDigit = true := hcs ▸ isDigit_toDigits
  obtain ⟨hc, hrest⟩ := List.forall_mem_cons.mp hdigits
  refine ⟨c, cs, hcs, ?_, ?_, ?_⟩
  · have hbrace : c ≠ '\x7b' := by
      rintro rfl
      cases hc
    rw [token, if_neg hbrace]
  · rw [superscript, hcs, number?, if_pos (by simp [hc])]
    rfl
  · rw [readLine, onLine, hcs]
    show _ = some (if cs = [] then 1 else Nat.ofDigitChars 10 cs 0)
    by_cases hnil : cs = []
    · rw [if_pos hnil, if_pos hnil]
    · rw [if_neg hnil, if_neg hnil, number?, if_pos ⟨hnil, List.all_eq_true.mpr hrest⟩]

/-- **A power is read with the first digit of its exponent**, times what the others spell. -/
theorem readFactor_power {t : String × Nat} (h : IsIdentifier t.1) :
    readFactor (Monomial.renderPower .latex t).toList
      = some ⟨List.replicate (superscript t.2) t.1, onLine t.2⟩ := by
  by_cases h1 : t.2 = 1
  · rw [Monomial.renderPower_one h1, readFactor_identifier h, h1, superscript_of_lt (by decide),
      onLine_of_lt (by decide), Nat.cast_one]
    rfl
  · obtain ⟨c, cs, hcs, hscript, hraised, hline⟩ := token_toDigits t.2
    rw [Monomial.renderPower_latex h1, Nat.toList_repr, hcs]
    show (do
      let (name, behind) ← token ('\x7b' :: (t.1.toList ++ '\x7d' :: '^' :: c :: cs))
      let base ← readName name
      if behind.head? = some '^' then do
        let (script, line) ← token (behind.drop 1)
        let exponent ← number? script
        let number ← readLine line
        return (⟨(List.replicate exponent base.names).flatten, number⟩ : Factor)
      else none) = _
    rw [token_group (h.notMem (by decide))]
    show (do
      let base ← readName t.1.toList
      let (script, line) ← token (c :: cs)
      let exponent ← number? script
      let number ← readLine line
      return (⟨(List.replicate exponent base.names).flatten, number⟩ : Factor)) = _
    rw [readName_identifier h, hscript]
    show (do
      let exponent ← number? [c]
      let number ← readLine cs
      return (⟨(List.replicate exponent [t.1]).flatten, number⟩ : Factor)) = _
    rw [hraised, hline]
    show some (⟨(List.replicate (superscript t.2) [t.1]).flatten, onLine t.2⟩ : Factor) = _
    rw [List.flatten_replicate_singleton]

/-! ## §5. What terms are read as. -/

theorem Factor.one_mul (f : Factor) : one.mul f = f := by
  simp [mul, one]

theorem Factor.mul_assoc (f g h : Factor) : (f.mul g).mul h = f.mul (g.mul h) := by
  simp [mul, Rat.mul_assoc]

/-- What is read of a product of powers. -/
def seenPowers (powers : List (String × Nat)) : Factor :=
  powers.foldr (fun t f => Factor.mul ⟨List.replicate (superscript t.2) t.1, onLine t.2⟩ f) .one

/-- What is read of a term. -/
def seen (t : Monomial × Fraction) : Monomial × ℚ :=
  (.ofNames (seenPowers t.1.powers).names, t.2.value * (seenPowers t.1.powers).number)

variable {negative : Bool} {f g : Factor} {w : List Char} {ws : List (List Char)}

/-- A word that is no sign goes on with the term. -/
theorem readTerms_word (h : readFactor w = some g) :
    readTerms negative f (w :: ws) = readTerms negative (f.mul g) ws := by
  have hplus : w ≠ ['+'] := by
    rintro rfl
    cases h
  have hminus : w ≠ ['-'] := by
    rintro rfl
    cases h
  rw [readTerms, if_neg hplus, if_neg hminus, h]
  rfl

theorem readTerms_powers {powers : List (String × Nat)} (h : ∀ t ∈ powers, IsIdentifier t.1) :
    readTerms negative f (powers.map (fun t => (Monomial.renderPower .latex t).toList) ++ ws)
      = readTerms negative (f.mul (seenPowers powers)) ws := by
  induction powers generalizing f with
  | nil =>
    show readTerms negative f ws = readTerms negative (f.mul .one) ws
    simp [Factor.mul, Factor.one]
  | cons t powers ih =>
    obtain ⟨ht, hpowers⟩ := List.forall_mem_cons.mp h
    rw [List.map_cons, List.cons_append, readTerms_word (readFactor_power ht), ih hpowers,
      Factor.mul_assoc]
    rfl

/-- **A product is read as its number and its powers**, also if the number 1 is left out. -/
theorem readTerms_product {x : Fraction} {m : Monomial} (h : Readable .latex IsIdentifier x m []) :
    readTerms negative .one (factors .latex x m [] ++ ws)
      = readTerms negative (Factor.mul ⟨[], x.value⟩ (seenPowers m.powers)) ws := by
  have hnames : ∀ t ∈ m.powers, IsIdentifier t.1 :=
    fun t ht => h.named t.1 (Monomial.fst_mem_names ht)
  unfold factors
  rw [List.append_nil, List.append_assoc]
  by_cases hone : x = Fraction.one ∧ powerFactors .latex m ≠ []
  · have hvalue : (⟨[], x.value⟩ : Factor) = .one := by
      simp [hone.1, Fraction.value, Fraction.one, Fraction.ofInt, Factor.one]
    rw [if_pos hone, List.nil_append, hvalue]
    exact readTerms_powers hnames
  · rw [if_neg hone, List.singleton_append, readTerms_word (readFactor_number h.unsigned),
      Factor.one_mul]
    exact readTerms_powers hnames

/-! ## §6. What sums are read as. -/

/-- The words of a later piece: its sign and its factors. -/
def laterWords (piece : SignedText) : List (List Char) :=
  [if piece.negative then '-' else '+'] :: piece.body.toList.splitOn ' '

theorem splitOn_append_blank (u v : List Char) :
    (u ++ ' ' :: v).splitOn ' ' = u.splitOn ' ' ++ v.splitOn ' ' :=
  List.splitOnP_append_cons u v (beq_self_eq_true ' ')

/-- The words of a sum are those of its pieces, with the signs between them. -/
theorem splitOn_rest (u : List Char) (pieces : List SignedText) :
    (u ++ SignedText.rest " + " " - " pieces).splitOn ' '
      = u.splitOn ' ' ++ pieces.flatMap laterWords := by
  induction pieces generalizing u with
  | nil => simp [SignedText.rest]
  | cons piece pieces ih =>
    have hjoiner : (piece.joiner " + " " - ").toList
        = ' ' :: ([if piece.negative then '-' else '+'] ++ [' ']) := by
      unfold SignedText.joiner
      cases piece.negative <;> rfl
    have hsign : [if piece.negative then '-' else '+'].splitOn ' '
        = [[if piece.negative then '-' else '+']] := by
      cases piece.negative <;> rfl
    rw [SignedText.rest_cons, hjoiner, List.cons_append, splitOn_append_blank, List.append_assoc,
      List.singleton_append (x := ' '), splitOn_append_blank, ih, hsign]
    rfl

/-- The words of a shown term. -/
theorem splitOn_product {x : Fraction} {m : Monomial} (h : Readable .latex IsIdentifier x m []) :
    (product .latex x m []).splitOn ' ' = factors .latex x m [] :=
  List.splitOn_intercalate ' ' (fun w hw => (h.isFactor (fun _ hN => hN) w hw).blank_notMem)
    (factors_ne_nil .latex x m [])

/-- A product with the sign of a coefficient is the term that is seen. -/
theorem term_eq_seen {t : Monomial × Fraction} {x : Fraction} (h : t.2.IsMagnitude x) :
    (Factor.mul ⟨[], x.value⟩ (seenPowers t.1.powers)).term t.2.isNegative = seen t := by
  have hvalue := h.value_eq
  unfold Factor.term seen
  cases hsign : t.2.isNegative with
  | false =>
    rw [hsign] at hvalue
    rw [hvalue]
    rfl
  | true =>
    rw [hsign] at hvalue
    rw [hvalue]
    show (_, -(x.value * _)) = (_, -x.value * _)
    rw [neg_mul]
    rfl

/-- **A shown term is read as it is seen**, and the sum goes on behind it. -/
theorem readTerms_shows {t : Monomial × Fraction} {piece : SignedText}
    (h : Polynomial.Shows .latex IsIdentifier t piece) : ∃ f : Factor, f.term piece.negative = seen t
      ∧ ∀ ws, readTerms piece.negative .one (piece.body.toList.splitOn ' ' ++ ws)
        = readTerms piece.negative f ws := by
  obtain ⟨⟨hnormal, hnames⟩, hrender⟩ := h
  obtain ⟨x, hx, hreadable, hsign, hbody⟩ := Polynomial.renderTerm_product hnormal hnames hrender
  refine ⟨Factor.mul ⟨[], x.value⟩ (seenPowers t.1.powers), ?_, fun ws => ?_⟩
  · rw [hsign]
    exact term_eq_seen hx
  · rw [hbody, splitOn_product hreadable]
    exact readTerms_product hreadable

theorem readTerms_later {terms : List (Monomial × Fraction)} {pieces : List SignedText}
    (h : List.Forall₂ (Polynomial.Shows .latex IsIdentifier) terms pieces) :
    readTerms negative f (pieces.flatMap laterWords)
      = some (f.term negative :: terms.map seen) := by
  induction h generalizing negative f with
  | nil => rfl
  | @cons t piece terms pieces hshow _ ih =>
    obtain ⟨g, hterm, hread⟩ := readTerms_shows hshow
    have hnext : readTerms negative f ((piece :: pieces).flatMap laterWords)
        = (do return f.term negative :: (← readTerms piece.negative .one
            (piece.body.toList.splitOn ' ' ++ pieces.flatMap laterWords))) := by
      rw [List.flatMap_cons]
      unfold laterWords
      cases piece.negative <;> rfl
    rw [hnext, hread, ih, hterm]
    rfl

end Latex

namespace Polynomial

open Latex

variable {p : Polynomial} {text : String}

/-- **The LaTeX text of a polynomial is read as its terms are seen.** -/
theorem read_render (hp : p.Legible IsIdentifier) (hp0 : p ≠ zero)
    (h : p.render .latex = .ok text) : Latex.read text = some (p.terms.map seen) := by
  obtain ⟨pieces, hpieces, rfl⟩ := render_eq_ok h
  have hshows := hp.shows hpieces
  have hpiece := isPiece_of_shows (fun _ hN => hN) hshows
  obtain ⟨terms⟩ := p
  cases hshows with
  | nil => exact absurd rfl hp0
  | @cons t piece terms pieces hshow hrest =>
    obtain ⟨f, hterm, hread⟩ := readTerms_shows hshow
    obtain ⟨c, cs, hcs, hc⟩ := (hpiece piece List.mem_cons_self).unsigned
    have hsum : readTerms piece.negative .one
        ((piece.body.toList ++ SignedText.rest " + " " - " pieces).splitOn ' ')
          = some ((t :: terms).map seen) := by
      rw [splitOn_rest, hread, readTerms_later hrest, hterm]
      rfl
    have htext : (SignedText.sum "" " + " " - " (piece :: pieces)).toList
        = (if piece.negative then ['-'] else []) ++ (piece.body.toList
          ++ SignedText.rest " + " " - " pieces) := by
      simp only [SignedText.sum, SignedText.opening, String.toList_append,
        SignedText.toList_join_continuing]
      cases piece.negative <;> simp
    unfold Latex.read
    rw [htext]
    rw [hcs] at hsum ⊢
    cases hneg : piece.negative with
    | false =>
      rw [hneg] at hsum
      show (if c = '-' then _ else _) = _
      rw [if_neg hc]
      exact hsum
    | true =>
      rw [hneg] at hsum
      exact hsum

theorem read_zero : Latex.read "0" = some [(Monomial.one, 0)] := by decide +kernel

end Polynomial

end GeometricAlgebra
