/-
  GeometricAlgebra.Proofs.Coefficients
  ────────────────────────────────
  **ARITHMETIC, COEFFICIENT BY COEFFICIENT.**

  `PolynomialRing` says that every operation answers with the element of
  ℚ[variables] that it should.  This file says the same about what a client
  can ask for, the coefficient of one monomial:

      p + q        p[m] + q[m]
      p · q        Σ  p[m₁] · q[m₂]   over the pairs with m₁ · m₂ = m
      c · p        c · p[m]

  The pairs are found by comparing multisets of names, not by sorting them as
  `Monomial.product` does.

  Main result:
    * `Polynomial.arithmetic_exact` — all operations, for all polynomials,
      fractions and lists of terms.
-/
import GeometricAlgebra.Proofs.PolynomialRing

namespace GeometricAlgebra

open Outcome

namespace Monomial

/-- Exponents add up iff the multisets of names do. -/
theorem exponents_add_eq_iff {m n k : Monomial} : m.exponents + n.exponents = k.exponents
    ↔ (m.names : Multiset String) + n.names = k.names := by
  unfold exponents
  rw [← map_add]
  exact Multiset.toFinsupp.injective.eq_iff

end Monomial

namespace Polynomial

open SortedTerms

/-! ## §1. Coefficients. -/

/-- The coefficient of a monomial, as a rational number. -/
def coeff (p : Polynomial) (m : Monomial) : ℚ := (p.coefficient m).value

/-- The monomials that occur. -/
def monomials (p : Polynomial) : Finset Monomial := (p.terms.map Prod.fst).toFinset

theorem coeff_eq_total {p : Polynomial} (hp : p.Canonical) (m : Monomial) :
    p.coeff m = total p.terms m := by
  rw [total_apply (canonical_iff.mp hp), coeff, coefficient]
  cases p.terms.lookup m with
  | none => simp [Fraction.zero, Fraction.ofInt, Fraction.value]
  | some c => rfl

/-- **A stored coefficient is the coefficient in the ring.** -/
theorem coeff_eq {p : Polynomial} (hp : p.Canonical) {m : Monomial} (hm : m.Sorted) :
    p.coeff m = MvPolynomial.coeff m.exponents p.value := by
  have hkeys : ∀ t ∈ p.terms, t.1.Sorted := fun t ht => (hp.2 t ht).1
  rw [coeff_eq_total hp]
  exact (coord_reading (fun _ _ hk hk' => ringCoeff_ringTerm hk hk') hkeys hm).symm

/-- A polynomial is the sum of its monomials with their coefficients. -/
theorem value_eq_sum {p : Polynomial} (hp : p.Canonical) :
    p.value = ∑ m ∈ p.monomials, MvPolynomial.monomial m.exponents (p.coeff m) := by
  have hsupport : (total p.terms).support ⊆ p.monomials := by
    intro m hm
    by_contra hmem
    apply Finsupp.mem_support_iff.mp hm
    apply total_eq_zero
    intro t ht h
    exact hmem (List.mem_toFinset.mpr (List.mem_map.mpr ⟨t, ht, h⟩))
  rw [value, reading_eq_liftAddHom, Finsupp.liftAddHom_apply,
    Finsupp.sum_of_support_subset _ hsupport _ fun m _ => map_zero _]
  exact Finset.sum_congr rfl fun m _ => by rw [coeff_eq_total hp]; rfl

/-! ## §2. Results with given coefficients. -/

/-- The polynomial is canonical and has these coefficients. -/
def HasCoefficients (c : Monomial → ℚ) (p : Polynomial) : Prop :=
  p.Canonical ∧ ∀ m, m.Sorted → p.coeff m = c m

/-- An exact operation has the coefficients of its exact result. -/
theorem hasCoefficients {x : Outcome Polynomial} {f : MvPolynomial String ℚ} {c : Monomial → ℚ}
    (hx : Yields x (Denotes f))
    (hc : ∀ m, m.Sorted → MvPolynomial.coeff m.exponents f = c m) :
    Yields x (HasCoefficients c) := by
  apply hx.mono
  rintro p ⟨hp, rfl⟩
  exact ⟨hp, fun m hm => (coeff_eq hp hm).trans (hc m hm)⟩

/-- The coefficient of a monomial in a list of terms: the sum over its occurrences. -/
theorem coeff_reading {terms : List (Monomial × Fraction)} (hterms : ∀ t ∈ terms, t.1.Sorted)
    {m : Monomial} (hm : m.Sorted) : MvPolynomial.coeff m.exponents (reading ringTerm terms)
      = ((terms.filter (·.1 = m)).map (·.2.value)).sum := by
  induction terms with
  | nil => simp
  | cons t terms ih =>
    have ht : t.1.Sorted := hterms t List.mem_cons_self
    have hhead : MvPolynomial.coeff m.exponents (ringTerm t.1 (ExactSummand.value t.2)) = _ :=
      ringCoeff_ringTerm hm ht _
    have htail := ih fun t' ht' => hterms t' (List.mem_cons_of_mem t ht')
    rw [reading_cons, MvPolynomial.coeff_add, hhead, htail, List.filter_cons]
    by_cases h : t.1 = m
    · simp only [h, decide_true, if_true, List.map_cons, List.sum_cons]
      rfl
    · simp [h]

/-- The sum over all pairs of monomials with the product `m`.  Monomials that do
not occur have coefficient zero and are left out. -/
def convolution (p q : Polynomial) (m : Monomial) : ℚ :=
  ∑ pair ∈ (p.monomials ×ˢ q.monomials).filter
      (fun pair => (pair.1.names : Multiset String) + pair.2.names = m.names),
    p.coeff pair.1 * q.coeff pair.2

/-- **The coefficients of a product are convolutions.** -/
theorem coeff_mul {p q : Polynomial} (hp : p.Canonical) (hq : q.Canonical) (m : Monomial) :
    MvPolynomial.coeff m.exponents (p.value * q.value) = convolution p q m := by
  rw [value_eq_sum hp, value_eq_sum hq, Finset.sum_mul_sum, ← Finset.sum_product',
    MvPolynomial.coeff_sum, convolution, Finset.sum_filter]
  refine Finset.sum_congr rfl fun pair _ => ?_
  rw [MvPolynomial.monomial_mul, MvPolynomial.coeff_monomial]
  simp only [Monomial.exponents_add_eq_iff]

/-! ## §3. The operations. -/

/-- **POLYNOMIAL ARITHMETIC IS EXACT**: unless a step overflows, every operation
answers, and its coefficients are those of the ring ℚ[variables]. -/
theorem arithmetic_exact {terms : List (Monomial × Fraction)} {p q : Polynomial} {k : Fraction}
    (hterms : ∀ t ∈ terms, t.1.Sorted ∧ t.2.Normal) (hp : p.Canonical) (hq : q.Canonical)
    (hk : k.Normal) :
    Yields (ofTerms terms)
        (HasCoefficients fun m => ((terms.filter (·.1 = m)).map (·.2.value)).sum)
      ∧ Yields (p.add q) (HasCoefficients fun m => p.coeff m + q.coeff m)
      ∧ Yields (p.sub q) (HasCoefficients fun m => p.coeff m - q.coeff m)
      ∧ Yields (p.mul q) (HasCoefficients (convolution p q))
      ∧ Yields (p.pow 2) (HasCoefficients (convolution p p))
      ∧ Yields p.neg (HasCoefficients fun m => -p.coeff m)
      ∧ Yields (p.scale k) (HasCoefficients fun m => k.value * p.coeff m)
      ∧ (k.value ≠ 0 → Yields (p.divScalar k) (HasCoefficients fun m => 1 / k.value * p.coeff m))
    := by
  have hP : Denotes p.value p := ⟨hp, rfl⟩
  have hQ : Denotes q.value q := ⟨hq, rfl⟩
  have hK : Fraction.Denotes k.value k := ⟨hk, rfl⟩
  refine ⟨?_, ?_, ?_, ?_, ?_, ?_, ?_, ?_⟩
  · exact hasCoefficients (ofTerms_denotes hterms) fun m hm =>
      coeff_reading (fun t ht => (hterms t ht).1) hm
  · refine hasCoefficients (hP.add hQ) fun m hm => ?_
    rw [MvPolynomial.coeff_add, coeff_eq hp hm, coeff_eq hq hm]
  · refine hasCoefficients (hP.sub hQ) fun m hm => ?_
    rw [MvPolynomial.coeff_sub, coeff_eq hp hm, coeff_eq hq hm]
  · exact hasCoefficients (hP.mul hQ) fun m _ => coeff_mul hp hq m
  · exact hasCoefficients hP.pow_two fun m _ => coeff_mul hp hp m
  · refine hasCoefficients hP.neg fun m hm => ?_
    rw [MvPolynomial.coeff_neg, coeff_eq hp hm]
  · refine hasCoefficients (hP.scale hK) fun m hm => ?_
    rw [mul_comm, MvPolynomial.coeff_C_mul, coeff_eq hp hm]
  · intro h0
    refine hasCoefficients (hP.divScalar hK h0) fun m hm => ?_
    rw [mul_comm, MvPolynomial.coeff_C_mul, coeff_eq hp hm, one_div]

/-- The polynomial `a + b`. -/
def binomial : Polynomial := ⟨[(⟨["a"]⟩, ⟨1, 1⟩), (⟨["b"]⟩, ⟨1, 1⟩)]⟩

/-- The polynomial `a − b`. -/
def conjugate : Polynomial := ⟨[(⟨["a"]⟩, ⟨1, 1⟩), (⟨["b"]⟩, ⟨-1, 1⟩)]⟩

/-- In `(a + b)(a − b)` two pairs of monomials cancel, and `ab/2 − ba/2` vanishes. -/
theorem arithmetic_exact_conjugate :
    ((∀ t ∈ [(Monomial.ofNames ["a", "b"], (⟨1, 2⟩ : Fraction)),
          (Monomial.ofNames ["b", "a"], ⟨-1, 2⟩)], t.1.Sorted ∧ t.2.Normal)
        ∧ binomial.Canonical ∧ conjugate.Canonical ∧ Fraction.Normal ⟨-2, 3⟩)
      ∧ (∃ r, binomial.mul conjugate = .ok r
        ∧ HasCoefficients (convolution binomial conjugate) r)
      ∧ ∃ r, binomial.divScalar ⟨-2, 3⟩ = .ok r
        ∧ HasCoefficients (fun m => 1 / Fraction.value ⟨-2, 3⟩ * binomial.coeff m) r := by
  have hterms : ∀ t ∈ [(Monomial.ofNames ["a", "b"], (⟨1, 2⟩ : Fraction)),
      (Monomial.ofNames ["b", "a"], ⟨-1, 2⟩)], t.1.Sorted ∧ t.2.Normal := by
    unfold Monomial.Sorted
    decide
  have hp : binomial.Canonical := by decide
  have hq : conjugate.Canonical := by decide
  have hk : Fraction.Normal ⟨-2, 3⟩ := by decide
  obtain ⟨-, -, -, hmul, -, -, -, hdiv⟩ := arithmetic_exact hterms hp hq hk
  have hk0 : Fraction.value ⟨-2, 3⟩ ≠ 0 := by norm_num [Fraction.value]
  have hmulOk : binomial.mul conjugate
      = .ok ⟨[(⟨["a", "a"]⟩, ⟨1, 1⟩), (⟨["b", "b"]⟩, ⟨-1, 1⟩)]⟩ := by decide
  have hdivOk : binomial.divScalar ⟨-2, 3⟩
      = .ok ⟨[(⟨["a"]⟩, ⟨-3, 2⟩), (⟨["b"]⟩, ⟨-3, 2⟩)]⟩ := by decide
  exact ⟨⟨hterms, hp, hq, hk⟩, ⟨_, hmulOk, hmul.ensures _ hmulOk⟩,
    ⟨_, hdivOk, (hdiv hk0).ensures _ hdivOk⟩⟩

end Polynomial

end GeometricAlgebra
