/-
  GeometricAlgebra.Proofs.BuiltPolynomials
  ────────────────────────────────
  **A POLYNOMIAL IS ITS COEFFICIENTS.**

  Every operation keeps the normal form, so a polynomial with any history is in
  normal form (`Built.canonical`).  In normal form the stored terms can be read
  off the coefficients: a monomial is stored exactly if its coefficient is not
  zero, with that coefficient, at its place in the order.  A client that can only
  ask for coefficients therefore sees all there is.

  Main result:
    * `Polynomial.built_normal_form` — the normal form of built polynomials, and
      equality and vanishing by coefficients.
-/
import GeometricAlgebra.Proofs.BuiltValues
import GeometricAlgebra.Proofs.Coefficients

namespace GeometricAlgebra

open Outcome

/-- The quotient of two words is in lowest terms, also if it is written unreduced
or with a negative denominator. -/
theorem Fraction.reduce_normal (num den : Int) : Ensures (reduce num den) Normal := by
  by_cases hden : den = 0
  · unfold reduce
    rw [if_pos hden]
    exact ensures_error _
  · exact ((reduce_denotes num hden).mono fun _ h => h.1).ensures

namespace Polynomial

open SortedTerms

/-! ## §1. Terms in normal form. -/

/-- A stored term: names in order, and a fraction in lowest terms over a positive
denominator, other than zero. -/
theorem Canonical.term {p : Polynomial} (hp : p.Canonical) {t : Monomial × Fraction}
    (ht : t ∈ p.terms) : t.1.names.Pairwise Monomial.NameLE
      ∧ t.2.num ≠ 0 ∧ 0 < t.2.den ∧ Int.gcd t.2.num t.2.den = 1 := by
  obtain ⟨⟨-, hnonzero⟩, hterms⟩ := hp
  obtain ⟨hsorted, hpos, hgcd⟩ := hterms t ht
  refine ⟨Monomial.Sorted.ordered hsorted, ?_, hpos, hgcd⟩
  intro h0
  have hzero : t.2.isZero = true := Fraction.isZero_iff.mpr h0
  exact absurd hzero (Bool.eq_false_iff.mp (hnonzero t ht))

/-! ## §2. Equality by coefficients. -/

/-- **Polynomials are equal iff their coefficients are.**  No other monomials than
the products of names have to be asked for. -/
theorem Canonical.eq_iff {p q : Polynomial} (hp : p.Canonical) (hq : q.Canonical) :
    p = q ↔ ∀ names, p.coefficient (.ofNames names) = q.coefficient (.ofNames names) := by
  constructor
  · intro h names
    rw [h]
  · intro h
    have htotal : total p.terms = total q.terms := by
      ext1 m
      by_cases hm : m.Sorted
      · have hcoeff : p.coeff m = q.coeff m := by
          rw [hm]
          exact congrArg Fraction.value (h m.names)
        rw [← coeff_eq_total hp, ← coeff_eq_total hq, hcoeff]
      · -- such a monomial is no key on either side
        have hkeys : ∀ {r : Polynomial}, r.Canonical → ∀ t ∈ r.terms, t.1 ≠ m :=
          fun hr t ht heq => hm (heq ▸ (hr.2 t ht).1)
        rw [total_eq_zero (hkeys hp), total_eq_zero (hkeys hq)]
    have hterms := eq_of_total_eq (canonical_iff.mp hp) (canonical_iff.mp hq) htotal
    cases p
    cases q
    exact congrArg _ hterms

/-- **THE REPRESENTATION OF BUILT POLYNOMIALS**: whatever operations they come from,
and whatever quotients of words have entered, monomials increase strictly, each
with its names in order; coefficients are in lowest terms over a positive
denominator and not zero; and a polynomial is determined by its coefficients, so
that it is zero iff all of them are. -/
theorem built_normal_form {p q : Polynomial} (hp : Built (.polynomial p))
    (hq : Built (.polynomial q)) :
    p.terms.Pairwise (fun s t => compare s.1 t.1 = .lt)
      ∧ (∀ t ∈ p.terms, t.1.names.Pairwise Monomial.NameLE
        ∧ t.2.num ≠ 0 ∧ 0 < t.2.den ∧ Int.gcd t.2.num t.2.den = 1)
      ∧ (p = q ↔ ∀ names, p.coefficient (.ofNames names) = q.coefficient (.ofNames names))
      ∧ (p.isZero = true ↔ ∀ names, p.coefficient (.ofNames names) = Fraction.zero)
      ∧ ∀ num den c, Fraction.reduce num den = .ok c → Built (.polynomial (.constant c)) := by
  have hP : p.Canonical := hp.canonical
  have hQ : q.Canonical := hq.canonical
  refine ⟨hP.1.1, fun t ht => hP.term ht, hP.eq_iff hQ, ?_, ?_⟩
  · rw [isZero_iff, hP.eq_iff zero_denotes.1]
    rfl
  · exact fun num den c h => .constant (Fraction.reduce_normal num den c h)

/-- `(a + b)(a − b)`, in which two terms cancel, and `2/−4` of a variable. -/
theorem built_normal_form_conjugate : ∃ p q,
    (Built (.polynomial p) ∧ Built (.polynomial q))
      ∧ binomial.mul conjugate = .ok p
      ∧ (do (Polynomial.var "a").scale (← Fraction.reduce 2 (-4))) = .ok q
      ∧ (∀ t ∈ p.terms, t.2.num ≠ 0 ∧ 0 < t.2.den)
      ∧ (p = q ↔ ∀ names, p.coefficient (.ofNames names) = q.coefficient (.ofNames names))
      ∧ (p.isZero = true ↔ ∀ names, p.coefficient (.ofNames names) = Fraction.zero) := by
  have hadd : (Polynomial.var "a").add (.var "b") = .ok binomial := by decide
  have hsub : (Polynomial.var "a").sub (.var "b") = .ok conjugate := by decide
  have hmul : binomial.mul conjugate
      = .ok ⟨[(⟨["a", "a"]⟩, ⟨1, 1⟩), (⟨["b", "b"]⟩, ⟨-1, 1⟩)]⟩ := by decide
  have hreduce : Fraction.reduce 2 (-4) = .ok ⟨-1, 2⟩ := by decide
  have hscale : (Polynomial.var "a").scale ⟨-1, 2⟩ = .ok ⟨[(⟨["a"]⟩, ⟨-1, 2⟩)]⟩ := by decide
  have hp : Built (.polynomial _) :=
    .polyMul (.polyAdd (.var "a") (.var "b") hadd) (.polySub (.var "a") (.var "b") hsub) hmul
  have hq : Built (.polynomial _) :=
    .polyScale (.var "a") (Fraction.reduce_normal _ _ _ hreduce) hscale
  obtain ⟨-, hterms, heq, hzero, -⟩ := built_normal_form hp hq
  refine ⟨_, _, ⟨hp, hq⟩, hmul, ?_, fun t ht => ⟨(hterms t ht).2.1, (hterms t ht).2.2.1⟩, heq, hzero⟩
  rw [hreduce]
  exact hscale

end Polynomial

end GeometricAlgebra
