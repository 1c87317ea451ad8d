/-
  GeometricAlgebra.Proofs.StoredWords
  ────────────────────────────────
  **WHAT IS STORED ARE WORDS.**

  Every step of the arithmetic is checked, so the words of an answer fit whatever the
  operands are: a product of fractions is a fraction of words, and so is a sum whose left
  denominator is a word.  Collecting terms only adds stored values, hence a property that
  sums of values inherit holds of all values of a sum of terms.

  Main result:
    * `Polynomial.mul_ensures_representable` — the coefficients of a product are fractions
      of words.
-/
import GeometricAlgebra.Proofs.Magnitudes
import GeometricAlgebra.Proofs.Refusals

namespace GeometricAlgebra

open Outcome

/-! ## §1. Checked words. -/

namespace Word

theorem ofInt_ensures_fits (n : Int) : Ensures (ofInt n) Fits := by
  intro m h
  obtain ⟨hfits, rfl⟩ := ofInt_eq_ok_iff.mp h
  exact hfits

/-- A quotient of a word is a word. -/
theorem fits_ediv {n g : Int} (hn : Fits n) (hg : 0 < g) : Fits (n / g) := by
  obtain ⟨hlow, hhigh⟩ := hn
  unfold Fits
  constructor
  · refine Int.le_ediv_of_mul_le hg ?_
    have hscale : least * g ≤ least * 1 := Int.mul_le_mul_of_nonpos_left (by decide) hg
    omega
  · refine Int.ediv_le_of_le_mul hg ?_
    have hscale : greatest * 1 ≤ greatest * g := Int.mul_le_mul_of_nonneg_left (by omega) (by decide)
    omega

end Word

/-! ## §2. Fractions of words. -/

namespace Fraction

/-- Numerator and denominator are words. -/
def OfWords (x : Fraction) : Prop := Word.Fits x.num ∧ Word.Fits x.den

instance (x : Fraction) : Decidable x.OfWords := inferInstanceAs (Decidable (_ ∧ _))

variable {x y : Fraction}

theorem reduce_ensures_words {num den : Int} (hnum : Word.Fits num) (hden : Word.Fits den) :
    Ensures (reduce num den) OfWords := by
  unfold reduce
  by_cases h0 : den = 0
  · rw [if_pos h0]
    exact ensures_error _
  rw [if_neg h0]
  by_cases hzero : num = 0
  · rw [if_pos hzero]
    exact ensures_ok (by decide)
  rw [if_neg hzero]
  by_cases heq : num = den
  · rw [if_pos heq]
    exact ensures_ok (by decide)
  rw [if_neg heq]
  refine (gcd_yields num den).ensures.bind fun g hg => ?_
  by_cases hneg : den < 0
  · -- a negative denominator: both opposites are checked
    rw [if_pos hneg]
    refine (Word.ofInt_ensures_fits _).bind fun n hn => ?_
    exact (Word.ofInt_ensures_fits _).bind fun d hd => ensures_ok ⟨hn, hd⟩
  · rw [if_neg hneg]
    have hpos : 0 < g := by
      have hgcd : 0 < Int.gcd num den := Int.gcd_pos_of_ne_zero_left den hzero
      omega
    exact ensures_ok ⟨Word.fits_ediv hnum hpos, Word.fits_ediv hden hpos⟩

/-- **A product is a fraction of words**, whatever the factors are. -/
theorem mul_ensures_words (x y : Fraction) : Ensures (x.mul y) OfWords := by
  unfold mul
  refine ensures_bind fun g => ensures_bind fun h => ?_
  refine (Word.ofInt_ensures_fits _).bind fun n hn => ?_
  exact (Word.ofInt_ensures_fits _).bind fun d hd => reduce_ensures_words hn hd

/-- **A sum is a fraction of words**: a common denominator is checked, unless there was
one from the start. -/
theorem add_ensures_words (hx : x.OfWords) : Ensures (x.add y) OfWords := by
  unfold Fraction.add
  by_cases hden : x.den = y.den
  · rw [if_pos hden]
    exact (Word.ofInt_ensures_fits _).bind fun n hn => reduce_ensures_words hn hx.2
  · rw [if_neg hden]
    have hlcm : Ensures (lcm x.den y.den) Word.Fits :=
      ensures_bind fun g => Word.ofInt_ensures_fits _
    refine hlcm.bind fun l hl => ensures_bind fun a => ensures_bind fun b => ?_
    exact (Word.ofInt_ensures_fits _).bind fun n hn => reduce_ensures_words hn hl

/-- Lowest terms are not reduced any further. -/
theorem reduce_of_normal (hx : x.Normal) : reduce x.num x.den = .ok x := by
  obtain ⟨hpos, hgcd⟩ := hx
  have hone : gcd x.num x.den = .ok 1 := by
    unfold gcd
    rw [hgcd]
    decide
  unfold reduce
  rw [if_neg (by omega)]
  by_cases hzero : x.num = 0
  · have hden : x.den = 1 := by
      rw [hzero, Int.gcd_zero_left] at hgcd
      omega
    rw [if_pos hzero, zero, ofInt, ← hzero, ← hden]
  rw [if_neg hzero]
  by_cases heq : x.num = x.den
  · have hden : x.den = 1 := by
      rw [heq, Int.gcd_self] at hgcd
      omega
    have hx : x = one := by
      cases x
      cases hden
      cases heq
      rfl
    rw [if_pos heq, hx]
  rw [if_neg heq, hone]
  show (if x.den < 0 then _ else _) = _
  rw [if_neg (by omega), Int.ediv_one, Int.ediv_one]
  rfl

/-- **The factor one changes no fraction of words.** -/
theorem mul_one_eq (hx : x.Normal) (hwords : x.OfWords) : x.mul one = .ok x := by
  have hnum : x.num / 1 * (1 / 1) = x.num := by rw [Int.ediv_one, Int.ediv_one, mul_one]
  have hden : x.den / 1 * (1 / 1) = x.den := by rw [Int.ediv_one, Int.ediv_one, mul_one]
  have hmul : x.mul one = (do
      let g ← gcd x.num 1
      let h ← gcd x.den 1
      let n ← Word.ofInt (x.num / g * (1 / h))
      let d ← Word.ofInt (x.den / h * (1 / g))
      reduce n d) := rfl
  rw [hmul, gcd_one_right, gcd_one_right]
  show (do
    let n ← Word.ofInt (x.num / 1 * (1 / 1))
    let d ← Word.ofInt (x.den / 1 * (1 / 1))
    reduce n d) = _
  rw [hnum, hden, Word.ofInt_of_fits hwords.1, Word.ofInt_of_fits hwords.2]
  exact reduce_of_normal hx

end Fraction

/-! ## §3. Sums of terms. -/

namespace SortedTerms

variable {κ ν : Type} [Ord κ] [Summand ν] {P : ν → Prop}

/-- One more term leaves values with `P` behind, provided that sums of such values have it. -/
theorem insert_ensures_values (hadd : ∀ v w, P v → P w → Ensures (Summand.add v w) P) {key : κ}
    {value : ν} {terms : List (κ × ν)} (hterms : ∀ t ∈ terms, P t.2) (hvalue : P value) :
    Ensures (insert key value terms) (fun sum => ∀ t ∈ sum, P t.2) := by
  induction terms with
  | nil => exact ensures_ok (by simpa using hvalue)
  | cons head rest ih =>
    obtain ⟨k, v⟩ := head
    obtain ⟨hv, hrest⟩ := List.forall_mem_cons.mp hterms
    unfold insert
    cases compare key k with
    | lt => exact ensures_ok (List.forall_mem_cons.mpr ⟨hvalue, hterms⟩)
    | eq =>
      refine (hadd v value hv hvalue).bind fun sum hsum => ?_
      by_cases h0 : Summand.isZero sum = true
      · rw [if_pos h0]
        exact ensures_ok hrest
      · rw [if_neg h0]
        exact ensures_ok (List.forall_mem_cons.mpr ⟨hsum, hrest⟩)
    | gt =>
      exact (ih hrest).bind fun rest' hrest' => ensures_ok (List.forall_mem_cons.mpr ⟨hv, hrest'⟩)

/-- **What sums of values inherit holds of all that is stored.** -/
theorem accumulateAll_ensures_values (hadd : ∀ v w, P v → P w → Ensures (Summand.add v w) P)
    {terms more : List (κ × ν)} (hterms : ∀ t ∈ terms, P t.2) (hmore : ∀ t ∈ more, P t.2) :
    Ensures (accumulateAll terms more) (fun sum => ∀ t ∈ sum, P t.2) := by
  refine Ensures.foldlM (I := fun sum : List (κ × ν) => ∀ t ∈ sum, P t.2) hterms ?_
  intro t ht sum hsum
  unfold accumulate
  by_cases h0 : Summand.isZero t.2 = true
  · rw [if_pos h0]
    exact ensures_ok hsum
  · rw [if_neg h0]
    exact insert_ensures_values hadd hsum (hmore t ht)

end SortedTerms

/-! ## §4. Polynomials. -/

namespace Polynomial

open SortedTerms

/-- **The coefficients of a product are fractions of words**, whatever the factors are. -/
theorem mul_ensures_representable (p q : Polynomial) : Ensures (p.mul q) Representable := by
  have hterm : ∀ s t : Monomial × Fraction, Ensures (mulTerm s t) (fun u => u.2.OfWords) :=
    fun s t => (Fraction.mul_ensures_words s.2 t.2).bind fun c hc => ensures_ok hc
  have hrows : Ensures (p.terms.mapM fun s => q.terms.mapM (mulTerm s))
      (fun rows => ∀ row ∈ rows, ∀ u ∈ row, u.2.OfWords) :=
    Ensures.mapM fun s _ => Ensures.mapM fun t _ => hterm s t
  refine hrows.bind fun rows hrows => ?_
  have hflatten : ∀ u ∈ rows.flatten, u.2.OfWords := by
    intro u hu
    obtain ⟨row, hrow, hu⟩ := List.mem_flatten.mp hu
    exact hrows row hrow u hu
  have hsum : Ensures (ofList rows.flatten) (fun terms => ∀ u ∈ terms, u.2.OfWords) :=
    accumulateAll_ensures_values (fun _ _ hv _ => Fraction.add_ensures_words hv) (by simp) hflatten
  exact hsum.bind fun terms hterms => ensures_ok hterms

/-- **The factor one changes no polynomial of words.** -/
theorem scale_one {p : Polynomial} (hp : p.Canonical) (hwords : p.Representable) :
    p.scale .one = .ok p := by
  have hterms : p.terms.mapM (scaleTerm .one) = .ok (p.terms.map id) := by
    apply mapM_eq_ok
    intro t ht
    unfold scaleTerm
    rw [Fraction.mul_one_eq (hp.2 t ht).2 (hwords t ht)]
    rfl
  unfold scale
  rw [if_neg (by decide), hterms, List.map_id]
  rfl

end Polynomial

end GeometricAlgebra
