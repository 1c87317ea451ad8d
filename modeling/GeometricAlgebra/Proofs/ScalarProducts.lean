/-
  GeometricAlgebra.Proofs.ScalarProducts
  ────────────────────────────────
  **A MULTIPLE IS A PRODUCT WITH A SCALAR.**

  Scaling multiplies each coefficient and leaves the blades where they are.  The product
  with a scalar goes the long way: it brings the word of each blade into order again, and
  multiplies the sign of that order into the product of the coefficients,

      (q K) (p 1)  =  ± (q p) K.

  A canonical blade is in order, so the sign is +1; a product of coefficients is made of
  words in lowest terms, so the factor +1 neither changes it nor overflows.  Both ways
  answer alike and overflow alike.

  Main result:
    * `Multivector.scaling_is_product` — multiples, quotients by a number and opposites are
      products with a scalar, overflows included.
-/
import GeometricAlgebra.Proofs.ScalarDivision
import GeometricAlgebra.Proofs.StoredWords
import GeometricAlgebra.Proofs.VectorProducts

namespace GeometricAlgebra

open Outcome

/-! ## §1. Reciprocals. -/

/-- **A reciprocal that is made of words is computed.** -/
theorem Fraction.recip_eq_ok {k r : Fraction} (hk : k.Normal) (hr : r.Normal) (hwords : r.OfWords)
    (h0 : k.value ≠ 0) (h : r.value = k.value⁻¹) : k.recip = .ok r := by
  have hnum : k.num ≠ 0 := by
    intro hzero
    simp [value, hzero] at h0
  have hunique : ∀ x : Fraction, x.Normal → x.value = k.value⁻¹ → r = x :=
    fun x hx hvalue => value_injective hr hx (h.trans hvalue.symm)
  unfold recip
  rw [if_neg hnum]
  by_cases hpos : 0 < k.num
  · rw [if_pos hpos]
    refine congrArg _ (hunique ⟨k.den, k.num⟩ ⟨hpos, ?_⟩ (by simp [value])).symm
    rw [Int.gcd_comm]
    exact hk.2
  · -- the sign moves to the new numerator, and both words are those of `r`
    rw [if_neg hpos]
    have hflip : r = ⟨-k.den, -k.num⟩ := by
      refine hunique _ ⟨?_, ?_⟩ (by simp [value])
      · show 0 < -k.num
        omega
      · rw [Int.neg_gcd, Int.gcd_neg, Int.gcd_comm]
        exact hk.2
    rw [hflip] at hwords
    rw [Word.ofInt_of_fits hwords.1, Word.ofInt_of_fits hwords.2, hflip]
    rfl

/-! ## §2. Multiples of a polynomial. -/

namespace Polynomial

open SortedTerms

variable {p q : Polynomial} {c : Fraction}

/-- The sign +1 neither changes a product nor overflows on it. -/
theorem mul_scale_one (hp : p.Canonical) (hq : q.Canonical) :
    (do (← p.mul q).scale .one) = p.mul q := by
  cases h : p.mul q with
  | error failure => rfl
  | ok r => exact scale_one (hp.mul hq r h) (mul_ensures_representable p q r h)

theorem mul_zero_eq (p : Polynomial) : p.mul zero = .ok zero :=
  table_nil mulTerm p.terms ofTerms

/-- The factor `c` alone meets each term of a polynomial. -/
theorem mulTerm_one {t : Monomial × Fraction} (ht : t.1.Sorted) (c : Fraction) :
    mulTerm t (Monomial.one, c) = scaleTerm c t := by
  have hproduct : t.1.product Monomial.one = t.1 := by
    show Monomial.ofNames (t.1.names ++ []) = t.1
    rw [List.append_nil]
    exact ht.symm
  unfold mulTerm scaleTerm
  rw [hproduct]

/-- **A multiple by a number is the product with the constant**, as an outcome. -/
theorem mul_constant (hp : p.Canonical) (hc : c.Normal) : p.mul (constant c) = p.scale c := by
  unfold constant
  by_cases h0 : c.isZero = true
  · rw [if_pos h0, mul_zero_eq, scale, if_pos h0]
  have hscale : p.scale c = (do return Polynomial.mk (← p.terms.mapM (scaleTerm c))) := if_neg h0
  have htable : p.mul ⟨[(Monomial.one, c)]⟩ = (do ofTerms (← p.terms.mapM (mulTerm · (Monomial.one, c)))) :=
    table_singleton mulTerm p.terms ofTerms (Monomial.one, c)
  rw [if_neg h0, htable, mapM_congr fun t ht => mulTerm_one (hp.2 t ht).1 c]
  cases hscaled : p.terms.mapM (scaleTerm c) with
  | error failure =>
    rw [hscale, hscaled]
    rfl
  | ok terms =>
    -- the scaled terms are in normal form, so there is nothing to collect
    rw [hscaled] at hscale
    have hcanonical : Canonical ⟨terms⟩ := hp.scale hc _ hscale
    rw [hscale]
    show (do return Polynomial.mk (← SortedTerms.ofList terms)) = _
    rw [ofList_of_isNormal (canonical_iff.mp hcanonical)]

end Polynomial

/-! ## §3. Multiples of a multivector. -/

namespace Multivector

variable {a : Multivector} {p : Polynomial} {k r : Fraction}

/-- The product of a stored term and a scalar keeps the blade. -/
theorem mulTerm_scalar {s : Blade × Polynomial} (hblade : CanonicalBlade s.1)
    (hs : s.2.Canonical) (hp : p.Canonical) :
    mulTerm s ([], p) = (do return (s.1, ← s.2.mul p)) := by
  have hmul : mulTerm s ([], p)
      = (do return (s.1, ← (do (← s.2.mul p).scale .one))) := by
    unfold mulTerm
    rw [List.append_nil, Metric.canonicalizeKnown_of_inAlphabet hblade.2,
      Metric.normalForm_of_increasing hblade.1]
    simp only [bind_assoc]
    rfl
  rw [hmul, Polynomial.mul_scale_one hs hp]

/-- Zero coefficients are not stored. -/
theorem ofBlades_of_isZero {terms : List (Blade × Polynomial)}
    (h : ∀ t ∈ terms, t.2.isZero = true) : ofBlades terms = .ok zero := by
  have hterms : SortedTerms.ofList terms = .ok [] := by
    unfold SortedTerms.ofList
    induction terms with
    | nil => rfl
    | cons t terms ih =>
      obtain ⟨ht, hrest⟩ := List.forall_mem_cons.mp h
      rw [SortedTerms.accumulateAll_cons, SortedTerms.accumulate_of_isZero ht]
      exact ih hrest
  unfold ofBlades
  rw [hterms]
  rfl

/-- The multiple by zero is zero. -/
theorem scale_zero (a : Multivector) : a.scale .zero = .ok zero := by
  have hterms : (a.terms.mapM fun t => do return (t.1, ← t.2.mul .zero))
      = .ok (a.terms.map fun t => (t.1, Polynomial.zero)) := by
    apply mapM_eq_ok
    intro t _
    rw [Polynomial.mul_zero_eq]
    rfl
  unfold scale
  rw [hterms]
  refine ofBlades_of_isZero fun u hu => ?_
  obtain ⟨t, -, rfl⟩ := List.mem_map.mp hu
  rfl

/-- **The product with a scalar is the multiple**, as an outcome. -/
theorem Canonical.mul_scalar (ha : a.Canonical) (hp : p.Canonical) :
    a.mul (scalar p) = a.scale p := by
  unfold scalar
  by_cases h0 : p.isZero = true
  · obtain rfl : p = .zero := Polynomial.isZero_iff.mp h0
    rw [if_pos h0, mul_of_zero (Or.inr rfl), scale_zero]
  have htable : a.mul ⟨[([], p)]⟩ = (do ofBlades (← a.terms.mapM (mulTerm · ([], p)))) :=
    table_singleton mulTerm a.terms ofBlades ([], p)
  have hcolumn : a.terms.mapM (mulTerm · ([], p))
      = a.terms.mapM fun t => do return (t.1, ← t.2.mul p) := by
    apply mapM_congr
    intro t ht
    obtain ⟨hblade, hcoefficient⟩ := (canonical_iff.mp ha).2 t ht
    exact mulTerm_scalar hblade hcoefficient hp
  rw [if_neg h0, htable, hcolumn]
  rfl

/-- **The quotient by a number is the multiple by its reciprocal**, as an outcome. -/
theorem Canonical.divScalar_eq_scale (ha : a.Canonical) (hr : r.Normal) (hk : k.recip = .ok r) :
    a.divScalar k = a.scale (.constant r) := by
  have h0 : ¬ k.isZero = true := by
    intro h0
    unfold Fraction.recip at hk
    rw [if_pos (Fraction.isZero_iff.mp h0)] at hk
    cases hk
  have hterm : ∀ t ∈ a.terms, (do return (t.1, ← t.2.divScalar k) : Outcome (Blade × Polynomial))
      = (do return (t.1, ← t.2.mul (.constant r))) := by
    intro t ht
    have hdivide : t.2.divScalar k = (do t.2.scale (← k.recip)) := if_neg h0
    rw [hdivide, hk, Polynomial.mul_constant ((canonical_iff.mp ha).2 t ht).2 hr]
    rfl
  unfold Multivector.divScalar Multivector.scale
  rw [mapM_congr hterm]

/-! ## §4. Both ways. -/

/-- **SCALING IS MULTIPLICATION BY A SCALAR**: a multiple is the product with the scalar of
the factor, a quotient by a number that with the scalar of its reciprocal, if words can hold
it, and the opposite that with −1.  The outcomes are the same: both ways answer with the
same multivector, or both overflow.  The product from the left agrees with them, but may
overflow elsewhere. -/
theorem scaling_is_product (ha : a.Canonical) (hp : p.Canonical) :
    a.scale p = a.mul (scalar p)
      ∧ Agree ((scalar p).mul a) (a.scale p)
      ∧ (∀ k r : Fraction, k.Normal → k ≠ .zero → r.Normal → r.OfWords → r.value = k.value⁻¹ →
        a.divScalar k = a.mul (scalar (.constant r)))
      ∧ a.neg = a.mul (scalar (.ofInt (-1)))
      ∧ Yields (a.scale p) (Denotes (p.value • a.value)) := by
  have hA : Denotes a.value a := ⟨ha, rfl⟩
  have hP : Polynomial.Denotes p.value p := ⟨hp, rfl⟩
  have hleft : Yields ((scalar p).mul a) (Denotes (p.value • a.value)) := by
    rw [Algebra.smul_def]
    exact (scalar_denotes hP).mul hA
  refine ⟨(ha.mul_scalar hp).symm, agree_of_denotes hleft (hA.scale hP), ?_, ?_, hA.scale hP⟩
  · intro k r hk h0 hr hwords hvalue
    have hrecip := Fraction.recip_eq_ok hk hr hwords (Fraction.value_ne_zero hk h0) hvalue
    rw [ha.divScalar_eq_scale hr hrecip, ha.mul_scalar (Polynomial.constant_denotes ⟨hr, rfl⟩).1]
  · exact (ha.mul_scalar (Polynomial.ofInt_denotes (-1)).1).symm

/-- The multivector `2⁶² t − 2⁶³ e₋x`. -/
def brimming : Multivector :=
  ⟨[([], ⟨[(⟨["t"]⟩, ⟨4611686018427387904, 1⟩)]⟩), ([0, 2], ⟨[(⟨[]⟩, ⟨Word.least, 1⟩)]⟩)]⟩

/-- Both ways multiply it by zero and divide it by −2, and both overflow on its opposite
and on its quotient by −1. -/
theorem scaling_is_product_brimming :
    (brimming.Canonical ∧ Polynomial.zero.Canonical)
      ∧ brimming.mul (scalar .zero) = .ok zero
      ∧ (Fraction.Normal ⟨-2, 1⟩ ∧ Fraction.Normal ⟨-1, 2⟩ ∧ Fraction.OfWords ⟨-1, 2⟩)
      ∧ brimming.mul (scalar (.constant ⟨-1, 2⟩))
        = .ok ⟨[([], ⟨[(⟨["t"]⟩, ⟨-2305843009213693952, 1⟩)]⟩),
            ([0, 2], ⟨[(⟨[]⟩, ⟨4611686018427387904, 1⟩)]⟩)]⟩
      ∧ brimming.mul (scalar (.constant ⟨-1, 1⟩)) = .error .overflow
      ∧ brimming.mul (scalar (.ofInt (-1))) = .error .overflow := by
  have hbrimming : brimming.Canonical := by decide
  have hzero : Polynomial.zero.Canonical := by decide
  have hk : Fraction.Normal ⟨-2, 1⟩ := by decide
  have hr : Fraction.Normal ⟨-1, 2⟩ := by decide
  have hwords : Fraction.OfWords ⟨-1, 2⟩ := by decide
  obtain ⟨hscale, -, hdivide, hneg, -⟩ := scaling_is_product hbrimming hzero
  have hhalf := hdivide ⟨-2, 1⟩ ⟨-1, 2⟩ hk (by decide) hr hwords (by norm_num [Fraction.value])
  have hone := hdivide ⟨-1, 1⟩ ⟨-1, 1⟩ (by decide) (by decide) (by decide) (by decide)
    (by norm_num [Fraction.value])
  refine ⟨⟨hbrimming, hzero⟩, ?_, ⟨hk, hr, hwords⟩, ?_, ?_, ?_⟩
  · rw [← hscale]
    decide
  · rw [← hhalf]
    decide
  · rw [← hone]
    decide
  · rw [← hneg]
    decide

end Multivector

end GeometricAlgebra
