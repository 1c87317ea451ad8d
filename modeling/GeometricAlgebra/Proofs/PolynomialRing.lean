/-
  GeometricAlgebra.Proofs.PolynomialRing
  ────────────────────────────────
  **SPARSE POLYNOMIALS ARE THE RING ℚ[variables].**

  A canonical polynomial stands for one element of `MvPolynomial String ℚ` and
  is the only canonical polynomial that does (`Polynomial.value_injective`).
  Sums, multiples and products are canonical and have the exact value, unless
  a coefficient overflows (`Polynomial.Denotes.add`, `Polynomial.Denotes.scale`,
  `Polynomial.Denotes.mul`).
-/
import GeometricAlgebra.Polynomial
import GeometricAlgebra.Proofs.FractionValue
import GeometricAlgebra.Proofs.SortedSums

namespace GeometricAlgebra

open Outcome

/-! ## §1. Monomials are multisets of names. -/

namespace Monomial

/-- The order in which names are sorted. -/
def NameLE (a b : String) : Prop := (compare a b).isLE

theorem nameLE_antisymm {a b : String} (hab : NameLE a b) (hba : NameLE b a) : a = b := by
  have hswap : compare b a = (compare a b).swap := Std.OrientedCmp.eq_swap
  unfold NameLE at hab hba
  rw [hswap] at hba
  cases h : compare a b with
  | lt =>
    rw [h] at hba
    exact absurd hba (by decide)
  | eq => exact Std.LawfulEqCmp.eq_of_compare h
  | gt =>
    rw [h] at hab
    exact absurd hab (by decide)

theorem nameLE_of_not {a b : String} (h : ¬ NameLE a b) : NameLE b a := by
  have hswap : compare b a = (compare a b).swap := Std.OrientedCmp.eq_swap
  unfold NameLE at *
  rw [hswap]
  cases hab : compare a b with
  | lt => exact absurd (by rw [hab]; rfl) h
  | eq => exact absurd (by rw [hab]; rfl) h
  | gt => rfl

theorem insertName_sorted (name : String) {names : List String} (h : names.Pairwise NameLE) :
    (insertName name names).Pairwise NameLE := by
  induction names with
  | nil => exact List.pairwise_singleton _ _
  | cons first rest ih =>
    obtain ⟨hfirst, hrest⟩ := List.pairwise_cons.mp h
    unfold insertName
    split
    next hle =>
      refine List.pairwise_cons.mpr ⟨?_, h⟩
      intro b hb
      rcases List.mem_cons.mp hb with rfl | hb
      · exact hle
      · exact Std.TransCmp.isLE_trans hle (hfirst b hb)
    next hgt =>
      refine List.pairwise_cons.mpr ⟨?_, ih hrest⟩
      intro b hb
      rcases List.mem_cons.mp ((insertName_perm name rest).mem_iff.mp hb) with rfl | hb
      · exact nameLE_of_not hgt
      · exact hfirst b hb

theorem sortNames_sorted (names : List String) : (sortNames names).Pairwise NameLE := by
  induction names with
  | nil => exact List.Pairwise.nil
  | cons name rest ih => exact insertName_sorted name ih

/-- Names in any order give the same monomial. -/
theorem ofNames_eq_of_perm {a b : List String} (h : a.Perm b) : ofNames a = ofNames b := by
  have hperm : (sortNames a).Perm (sortNames b) :=
    (sortNames_perm a).trans (h.trans (sortNames_perm b).symm)
  have heq : sortNames a = sortNames b :=
    List.Perm.eq_of_pairwise (fun _ _ _ _ hab hba => nameLE_antisymm hab hba)
      (sortNames_sorted a) (sortNames_sorted b) hperm
  rw [ofNames, ofNames, heq]

/-- A monomial with its names in order, as the constructors build it. -/
def Sorted (m : Monomial) : Prop := m = ofNames m.names

theorem sorted_ofNames (names : List String) : (ofNames names).Sorted :=
  ofNames_eq_of_perm (sortNames_perm names).symm

/-- The names of a sorted monomial are in order. -/
theorem Sorted.ordered {m : Monomial} (hm : m.Sorted) : m.names.Pairwise NameLE := by
  rw [hm]
  exact sortNames_sorted m.names

/-- How often each name is a factor. -/
noncomputable def exponents (m : Monomial) : String →₀ ℕ :=
  Multiset.toFinsupp (m.names : Multiset String)

theorem exponents_product (m n : Monomial) :
    (m.product n).exponents = m.exponents + n.exponents := by
  have hperm : (m.product n).names.Perm (m.names ++ n.names) := sortNames_perm _
  rw [exponents, Multiset.coe_eq_coe.mpr hperm, ← Multiset.coe_add, map_add]
  rfl

/-- **A sorted monomial is determined by its exponents.** -/
theorem exponents_injective {m n : Monomial} (hm : m.Sorted) (hn : n.Sorted)
    (h : m.exponents = n.exponents) : m = n := by
  -- equal exponents are equal multisets of names, and sorting forgets the order
  have hperm : m.names.Perm n.names := Multiset.coe_eq_coe.mp (Multiset.toFinsupp.injective h)
  rw [hm, hn, ofNames_eq_of_perm hperm]

end Monomial

/-! ## §2. The value of a polynomial. -/

instance : ExactSummand Fraction ℚ where
  Normal := Fraction.Normal
  value := Fraction.value
  value_injective := fun _ _ => Fraction.value_injective
  isZero_iff := fun _ => Fraction.isZero_iff_value
  add_yields := fun _ _ hv hw => Fraction.Denotes.add ⟨hv, rfl⟩ ⟨hw, rfl⟩

namespace Polynomial

open SortedTerms

/-- A monomial with a coefficient, as an element of the ring. -/
noncomputable def ringTerm (m : Monomial) : ℚ →+ MvPolynomial String ℚ :=
  (MvPolynomial.monomial m.exponents).toAddMonoidHom

/-- The element of the ring that a polynomial stands for. -/
noncomputable def value (p : Polynomial) : MvPolynomial String ℚ := reading ringTerm p.terms

/-- The polynomial is canonical and stands for `f`. -/
def Denotes (f : MvPolynomial String ℚ) (p : Polynomial) : Prop := p.Canonical ∧ p.value = f

theorem canonical_iff {p : Polynomial} : p.Canonical ↔ IsNormal Monomial.Sorted p.terms := Iff.rfl

/-- The coefficient of a monomial. -/
noncomputable def ringCoeff (m : Monomial) : MvPolynomial String ℚ →+ ℚ :=
  (MvPolynomial.lcoeff ℚ m.exponents).toAddMonoidHom

theorem ringCoeff_ringTerm {m n : Monomial} (hm : m.Sorted) (hn : n.Sorted) (c : ℚ) :
    ringCoeff m (ringTerm n c) = if n = m then c else 0 := by
  have hiff : n.exponents = m.exponents ↔ n = m :=
    ⟨fun h => Monomial.exponents_injective hn hm h, fun h => congrArg _ h⟩
  show MvPolynomial.coeff m.exponents (MvPolynomial.monomial n.exponents c) = _
  rw [MvPolynomial.coeff_monomial]
  simp only [hiff]

/-- **Canonical polynomials with the same value are the same.** -/
theorem value_injective {p q : Polynomial} (hp : p.Canonical) (hq : q.Canonical)
    (h : p.value = q.value) : p = q := by
  have hterms : p.terms = q.terms :=
    eq_of_reading_eq (fun _ _ hm hn => ringCoeff_ringTerm hm hn) (canonical_iff.mp hp)
      (canonical_iff.mp hq) h
  cases p
  cases q
  exact congrArg _ hterms

/-! ## §3. Constants. -/

theorem zero_denotes : Denotes 0 zero := ⟨canonical_iff.mpr isNormal_nil, rfl⟩

theorem isZero_iff_value {p : Polynomial} (hp : p.Canonical) : p.isZero = true ↔ p.value = 0 := by
  have heq : p.isZero = true ↔ p = zero := by
    cases p
    simp [isZero, zero]
  rw [heq]
  constructor
  · intro h
    subst h
    rfl
  · intro h
    exact value_injective hp zero_denotes.1 (h.trans zero_denotes.2.symm)

theorem constant_denotes {q : ℚ} {c : Fraction} (hc : Fraction.Denotes q c) :
    Denotes (MvPolynomial.C q) (constant c) := by
  obtain ⟨hc, rfl⟩ := hc
  unfold constant
  split
  next h0 =>
    rw [(Fraction.isZero_iff_value hc).mp h0, MvPolynomial.C_0]
    exact zero_denotes
  next h0 =>
    have hone : Monomial.one.Sorted := rfl
    refine ⟨canonical_iff.mpr (isNormal_cons.mpr ⟨⟨hone, hc, ?_⟩, isNormal_nil⟩), ?_⟩
    · exact Bool.eq_false_iff.mpr h0
    · show MvPolynomial.monomial Monomial.one.exponents c.value + 0 = _
      rw [add_zero]
      rfl

theorem ofInt_denotes (n : Int) : Denotes (n : MvPolynomial String ℚ) (ofInt n) := by
  have h := constant_denotes (Fraction.ofInt_denotes n)
  rw [map_intCast] at h
  exact h

theorem one_denotes : Denotes 1 one := by
  have h := ofInt_denotes 1
  rw [Int.cast_one] at h
  exact h

/-! ## §4. Arithmetic. -/

/-- Collecting terms sums them up. -/
theorem ofTerms_denotes {terms : List (Monomial × Fraction)}
    (hterms : ∀ t ∈ terms, t.1.Sorted ∧ t.2.Normal) :
    Yields (ofTerms terms) (Denotes (reading ringTerm terms)) := by
  apply (ofList_reading_yields (φ := ringTerm) hterms).bind
  intro sum h
  obtain ⟨hsum, hread⟩ := h
  exact yields_pure ⟨canonical_iff.mpr hsum, hread⟩

/-- **Addition is exact.** -/
theorem Denotes.add {f g : MvPolynomial String ℚ} {p q : Polynomial} (hp : Denotes f p)
    (hq : Denotes g q) : Yields (p.add q) (Denotes (f + g)) := by
  obtain ⟨hp, rfl⟩ := hp
  obtain ⟨hq, rfl⟩ := hq
  apply (accumulateAll_reading_yields (φ := ringTerm) (canonical_iff.mp hp) hq.2).bind
  intro sum h
  obtain ⟨hsum, hread⟩ := h
  exact yields_pure ⟨canonical_iff.mpr hsum, hread⟩

theorem reading_scaled {terms us : List (Monomial × Fraction)} {q : ℚ}
    (h : us.map (fun u => (u.1, u.2.value)) = terms.map fun t => (t.1, t.2.value * q)) :
    reading ringTerm us = reading ringTerm terms * MvPolynomial.C q := by
  have hus : reading ringTerm us
      = ((us.map fun u => (u.1, u.2.value)).map fun x => ringTerm x.1 x.2).sum := by
    rw [List.map_map]
    rfl
  rw [hus, h, List.map_map, reading, ← List.sum_map_mul_right]
  refine congrArg List.sum (List.map_congr_left fun t _ => ?_)
  show MvPolynomial.monomial t.1.exponents (t.2.value * q)
    = MvPolynomial.monomial t.1.exponents t.2.value * MvPolynomial.C q
  rw [mul_comm _ (MvPolynomial.C q), MvPolynomial.C_mul_monomial, mul_comm]

/-- **Multiplication by a number is exact.**  The terms stay where they are,
because no product of numbers other than zero vanishes. -/
theorem Denotes.scale {f : MvPolynomial String ℚ} {q : ℚ} {p : Polynomial} {c : Fraction}
    (hp : Denotes f p) (hc : Fraction.Denotes q c) :
    Yields (p.scale c) (Denotes (f * MvPolynomial.C q)) := by
  obtain ⟨hp, rfl⟩ := hp
  obtain ⟨hc, rfl⟩ := hc
  unfold Polynomial.scale
  split
  next h0 =>
    rw [(Fraction.isZero_iff_value hc).mp h0, MvPolynomial.C_0, mul_zero]
    exact yields_ok zero_denotes
  next h0 =>
    -- no coefficient vanishes, so the scaled terms are in normal form as they are
    have hc0 : c.value ≠ 0 := fun h => h0 ((Fraction.isZero_iff_value hc).mpr h)
    have hterm : ∀ t ∈ p.terms, Yields (scaleTerm c t)
        (fun u => u.2.Normal ∧ (u.1, u.2.value) = (t.1, t.2.value * c.value)) := by
      intro t ht
      apply (Fraction.Denotes.mul ⟨(hp.2 t ht).2, rfl⟩ ⟨hc, rfl⟩).bind
      intro x h
      obtain ⟨hx, hvalue⟩ := h
      exact yields_pure ⟨hx, by rw [hvalue]⟩
    apply (mapValues_yields (fun _ hm => mul_ne_zero hm hc0) (canonical_iff.mp hp) hterm).bind
    intro us h
    obtain ⟨hus, hmap⟩ := h
    refine yields_pure ⟨canonical_iff.mpr hus, ?_⟩
    exact reading_scaled hmap

/-- **Multiplication is exact.** -/
theorem Denotes.mul {f g : MvPolynomial String ℚ} {p q : Polynomial} (hp : Denotes f p)
    (hq : Denotes g q) : Yields (p.mul q) (Denotes (f * g)) := by
  obtain ⟨hp, rfl⟩ := hp
  obtain ⟨hq, rfl⟩ := hq
  have hterm : ∀ s ∈ p.terms, ∀ t ∈ q.terms, Yields (mulTerm s t) (fun u =>
      (u.1.Sorted ∧ u.2.Normal)
        ∧ ringTerm u.1 u.2.value = ringTerm s.1 s.2.value * ringTerm t.1 t.2.value) := by
    intro s hs t ht
    apply (Fraction.Denotes.mul ⟨(hp.2 s hs).2, rfl⟩ ⟨(hq.2 t ht).2, rfl⟩).bind
    intro x h
    obtain ⟨hx, hvalue⟩ := h
    refine yields_pure ⟨⟨Monomial.sorted_ofNames _, hx⟩, ?_⟩
    show MvPolynomial.monomial (s.1.product t.1).exponents x.value
      = MvPolynomial.monomial s.1.exponents s.2.value * MvPolynomial.monomial t.1.exponents t.2.value
    rw [MvPolynomial.monomial_mul, Monomial.exponents_product, hvalue]
  apply (rows_reading_yields (φ := ringTerm) hterm).bind
  intro rows h
  obtain ⟨hrows, hread⟩ := h
  apply (ofTerms_denotes hrows).mono
  intro r h
  obtain ⟨hr, hvalue⟩ := h
  exact ⟨hr, hvalue.trans hread⟩

/-! ## §5. Derived operations. -/

/-- **The opposite is exact.** -/
theorem Denotes.neg {f : MvPolynomial String ℚ} {p : Polynomial} (hp : Denotes f p) :
    Yields p.neg (Denotes (-f)) := by
  have h := hp.scale (Fraction.ofInt_denotes (-1))
  simp only [Int.cast_neg, Int.cast_one, map_neg, map_one, mul_neg, mul_one] at h
  exact h

/-- **Subtraction is exact.** -/
theorem Denotes.sub {f g : MvPolynomial String ℚ} {p q : Polynomial} (hp : Denotes f p)
    (hq : Denotes g q) : Yields (p.sub q) (Denotes (f - g)) := by
  rw [sub_eq_add_neg]
  exact hq.neg.bind fun _ h => hp.add h

/-- **Division by a number other than zero is exact.** -/
theorem Denotes.divScalar {f : MvPolynomial String ℚ} {k : ℚ} {p : Polynomial} {c : Fraction}
    (hp : Denotes f p) (hc : Fraction.Denotes k c) (hk : k ≠ 0) :
    Yields (p.divScalar c) (Denotes (f * MvPolynomial.C k⁻¹)) := by
  have hzero : ¬ c.isZero = true := by
    rw [Fraction.isZero_iff_value hc.1, hc.2]
    exact hk
  unfold Polynomial.divScalar
  rw [if_neg hzero]
  exact (hc.recip hk).bind fun _ h => hp.scale h

/-- **Squaring is exact.** -/
theorem Denotes.pow_two {f : MvPolynomial String ℚ} {p : Polynomial} (hp : Denotes f p) :
    Yields (p.pow 2) (Denotes (f * f)) := by
  rw [Polynomial.pow, if_pos rfl]
  exact hp.mul hp

end Polynomial

/-- Polynomials are summed exactly. -/
noncomputable instance : ExactSummand Polynomial (MvPolynomial String ℚ) where
  Normal := Polynomial.Canonical
  value := Polynomial.value
  value_injective := fun _ _ => Polynomial.value_injective
  isZero_iff := fun _ => Polynomial.isZero_iff_value
  add_yields := fun _ _ hv hw => Polynomial.Denotes.add ⟨hv, rfl⟩ ⟨hw, rfl⟩

end GeometricAlgebra
