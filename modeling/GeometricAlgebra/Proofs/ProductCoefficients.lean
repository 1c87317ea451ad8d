/-
  GeometricAlgebra.Proofs.ProductCoefficients
  ────────────────────────────────
  **THE COEFFICIENTS OF A GEOMETRIC PRODUCT.**

  The product is collected term by term, and on the way sums cancel, leave the
  list and come back.  What remains at the end has a closed form: the coefficient
  of a blade `S` is a signed sum over all pairs of stored blades with the symmetric
  difference `S`,

      (a b)[S]  =  Σ  ε(K, L) · a[K] · b[L]    over the pairs with K ∆ L = S,

  where `ε` flips once for each pair of axes in the wrong order and once if both
  blades contain the axis that squares to −1.  A symmetric difference loses the
  shared axes on both sides, so the sizes of the two blades leave few grades to
  the product.

  Main result:
    * `Multivector.product_coefficients` — the coefficients of every geometric
      product, and the grades of the product of homogeneous multivectors.
-/
import GeometricAlgebra.Proofs.GradedLaws

namespace GeometricAlgebra

open Outcome

/-! ## §1. The sign of a pair of blades. -/

theorem Sign.toInt_ofParity (n : Nat) : (ofParity n).toInt = (-1) ^ n := by
  induction n with
  | zero => rfl
  | succ n ih => rw [ofParity_succ, toInt_neg, ih, pow_succ, mul_neg_one]

namespace Multivector

/-- The sign of the product of two blades: one flip for each pair of a left and a
right axis in the wrong order, and one if both contain the axis that squares to −1. -/
def productSign (K L : Blade) : ℤ :=
  (-1) ^ (crossings K L
    + if Conformal.minusAxis ∈ K ∧ Conformal.minusAxis ∈ L then 1 else 0)

theorem square_eq_negative_iff {i : Axis} :
    metric.square i = .negative ↔ i = Conformal.minusAxis := by
  rw [square_eq]
  show (if i = Conformal.minusAxis then Sign.negative else .positive) = .negative ↔ _
  split
  next h => exact iff_of_true rfl h
  next h => exact iff_of_false nofun h

/-- At most one shared axis squares to −1. -/
theorem negativeShared_eq {K : Blade} (hK : K.Nodup) (L : Blade) : metric.negativeShared K L
    = if Conformal.minusAxis ∈ K ∧ Conformal.minusAxis ∈ L then 1 else 0 := by
  unfold Metric.negativeShared
  simp only [square_eq_negative_iff]
  by_cases hL : Conformal.minusAxis ∈ L
  · have hshared : ∀ i ∈ K, decide (i ∈ L ∧ i = Conformal.minusAxis) = true
        ↔ (i == Conformal.minusAxis) = true := by
      intro i _
      rw [decide_eq_true_iff, beq_iff_eq]
      exact ⟨fun h => h.2, fun h => ⟨h ▸ hL, h⟩⟩
    rw [List.countP_congr hshared]
    simp only [hL, and_true]
    exact hK.count
  · have hnone : ∀ i ∈ K, ¬ decide (i ∈ L ∧ i = Conformal.minusAxis) = true := by
      intro i _ h
      obtain ⟨hi, rfl⟩ := of_decide_eq_true h
      exact hL hi
    rw [List.countP_eq_zero.mpr hnone, if_neg fun h => hL h.2]

/-- **The twist of two canonical blades is the sign of the pair.** -/
theorem toInt_twist {K L : Blade} (hK : K.Nodup) (hL : L.Nodup) :
    (metric.twist K.toFinset L.toFinset).toInt = productSign K L := by
  rw [Metric.twist_toFinset hK hL, Sign.toInt_ofParity, negativeShared_eq hK, productSign]

/-! ## §2. The coefficients of a product. -/

/-- The blades that are stored. -/
def support (a : Multivector) : Finset Blade := (a.terms.map Prod.fst).toFinset

theorem mem_support {a : Multivector} {K : Blade} :
    K ∈ a.support ↔ ∃ t ∈ a.terms, t.1 = K := by
  rw [support, List.mem_toFinset, List.mem_map]

theorem Canonical.canonicalBlade {a : Multivector} (ha : a.Canonical) {K : Blade}
    (hK : K ∈ a.support) : CanonicalBlade K := by
  obtain ⟨t, ht, rfl⟩ := mem_support.mp hK
  exact (ha.term ht).1

/-- The pairs of a stored blade of each multivector that multiply to a blade. -/
def pairsOf (a b : Multivector) (S : Blade) : Finset (Blade × Blade) :=
  (a.support ×ˢ b.support).filter fun pair =>
    symmDiff pair.1.toFinset pair.2.toFinset = S.toFinset

/-- The signed sum over the pairs of stored blades that multiply to a blade. -/
noncomputable def productCoefficient (a b : Multivector) (S : Blade) : MvPolynomial String ℚ :=
  ∑ pair ∈ pairsOf a b S,
    productSign pair.1 pair.2 • ((a.coefficientOf pair.1).value * (b.coefficientOf pair.2).value)

section Product

variable {a b c : Multivector} (ha : a.Canonical) (hb : b.Canonical)
include ha hb

/-- **The coordinates of a product are signed sums over pairs of blades.** -/
theorem coord_mul (S : Blade) :
    Clifford.coord S.toFinset (a.value * b.value) = productCoefficient a b S := by
  have hA : a.value = ∑ K ∈ a.support, algebraTerm K (a.coefficientOf K).value :=
    ha.value_eq_sum_over fun t ht => mem_support.mpr ⟨t, ht, rfl⟩
  have hB : b.value = ∑ L ∈ b.support, algebraTerm L (b.coefficientOf L).value :=
    hb.value_eq_sum_over fun t ht => mem_support.mpr ⟨t, ht, rfl⟩
  rw [hA, hB, Finset.sum_mul_sum, ← Finset.sum_product', map_sum, productCoefficient, pairsOf,
    Finset.sum_filter]
  refine Finset.sum_congr rfl fun pair hpair => ?_
  -- one pair contributes to the blade that it multiplies to, and to no other
  obtain ⟨hK, hL⟩ := Finset.mem_product.mp hpair
  have hKnodup : pair.1.Nodup := (ha.canonicalBlade hK).1.imp Nat.ne_of_lt
  have hLnodup : pair.2.Nodup := (hb.canonicalBlade hL).1.imp Nat.ne_of_lt
  rw [algebraTerm, algebraTerm, Clifford.single_mul_single, map_zsmul, Clifford.coord_single,
    smul_ite, smul_zero, toInt_twist hKnodup hLnodup]

variable (hc : Denotes (a.value * b.value) c)
include hc

theorem coefficientOf_product {S : Blade} (hS : CanonicalBlade S) :
    (c.coefficientOf S).value = productCoefficient a b S := by
  rw [← hc.1.coord_value hS, hc.2, coord_mul ha hb]

/-- **A blade of a product is the symmetric difference of a blade on each side.** -/
theorem exists_pair_of_mem {t : Blade × Polynomial} (ht : t ∈ c.terms) :
    ∃ K ∈ a.support, ∃ L ∈ b.support, symmDiff K.toFinset L.toFinset = t.1.toFinset := by
  have hne : productCoefficient a b t.1 ≠ 0 := by
    rw [← coefficientOf_product ha hb hc (hc.1.term ht).1]
    exact hc.1.value_coefficientOf_ne_zero ht
  obtain ⟨pair, hpair, -⟩ := Finset.exists_ne_zero_of_sum_ne_zero hne
  obtain ⟨hsupport, hdiff⟩ := Finset.mem_filter.mp hpair
  obtain ⟨hK, hL⟩ := Finset.mem_product.mp hsupport
  exact ⟨pair.1, hK, pair.2, hL, hdiff⟩

end Product

/-! ## §3. The grades of a product. -/

/-- The number of axes of a canonical blade is the size of its set. -/
theorem CanonicalBlade.card {K : Blade} (hK : CanonicalBlade K) : K.toFinset.card = K.length :=
  List.toFinset_card_of_nodup (hK.1.imp Nat.ne_of_lt)

/-- Two canonical blades together have no more axes than there are. -/
theorem CanonicalBlade.card_union_le {K L : Blade} (hK : CanonicalBlade K)
    (hL : CanonicalBlade L) : (K.toFinset ∪ L.toFinset).card ≤ metric.size := by
  have hsub : K.toFinset ∪ L.toFinset ⊆ Finset.range metric.size := by
    intro i hi
    rw [Finset.mem_range]
    rcases Finset.mem_union.mp hi with h | h
    · exact hK.2 i (List.mem_toFinset.mp h)
    · exact hL.2 i (List.mem_toFinset.mp h)
  have hle := Finset.card_le_card hsub
  rwa [Finset.card_range] at hle

/-- **The grades of a symmetric difference**: shared axes are lost on both sides, and
there are at most as many of them as in the smaller blade, and at least as many as
do not fit beside each other. -/
theorem grade_of_symmDiff {K L S : Blade} (hK : CanonicalBlade K) (hL : CanonicalBlade L)
    (hS : CanonicalBlade S) (h : symmDiff K.toFinset L.toFinset = S.toFinset) :
    (∃ j : ℕ, (S.length : ℤ) = |(K.length : ℤ) - L.length| + 2 * j)
      ∧ (S.length : ℤ) ≤ min ((K.length : ℤ) + L.length) (10 - K.length - L.length) := by
  set shared := (K.toFinset ∩ L.toFinset).card
  have hsymm : S.length + 2 * shared = K.length + L.length := by
    rw [← hK.card, ← hL.card, ← hS.card, ← h]
    exact card_symmDiff K.toFinset L.toFinset
  have hunion : (K.toFinset ∪ L.toFinset).card + shared = K.length + L.length := by
    rw [← hK.card, ← hL.card]
    exact Finset.card_union_add_card_inter K.toFinset L.toFinset
  have hleft : shared ≤ K.length := by
    rw [← hK.card]
    exact Finset.card_le_card Finset.inter_subset_left
  have hright : shared ≤ L.length := by
    rw [← hL.card]
    exact Finset.card_le_card Finset.inter_subset_right
  have hsize : (K.toFinset ∪ L.toFinset).card ≤ 5 := hK.card_union_le hL
  constructor
  · rcases Nat.le_total K.length L.length with hle | hle
    · refine ⟨K.length - shared, ?_⟩
      rw [abs_of_nonpos (by omega)]
      omega
    · refine ⟨L.length - shared, ?_⟩
      rw [abs_of_nonneg (by omega)]
      omega
  · rw [le_min_iff]
    omega

/-- **THE GEOMETRIC PRODUCT BY ITS COEFFICIENTS**: unless a step overflows, the
coefficient of every blade is the sum of `±a[K] b[L]` over all pairs of stored blades
with that symmetric difference, in the ring of polynomials; and homogeneous operands
of grades `r` and `s` have a product with the grades `|r − s|`, `|r − s| + 2`, …,
`min (r + s) (10 − r − s)` only. -/
theorem product_coefficients {a b : Multivector} (ha : a.Canonical) (hb : b.Canonical) :
    Yields (a.mul b) fun c => c.Canonical
      ∧ (∀ S, CanonicalBlade S → (c.coefficientOf S).value = productCoefficient a b S)
      ∧ ∀ r s, a.Homogeneous r → b.Homogeneous s → ∀ t ∈ c.terms,
        (∃ j : ℕ, (t.1.length : ℤ) = |(r : ℤ) - s| + 2 * j)
          ∧ (t.1.length : ℤ) ≤ min ((r : ℤ) + s) (10 - r - s) := by
  apply (Denotes.mul ⟨ha, rfl⟩ ⟨hb, rfl⟩).mono
  intro c hc
  refine ⟨hc.1, fun S hS => coefficientOf_product ha hb hc hS, ?_⟩
  intro r s hr hs t ht
  obtain ⟨K, hK, L, hL, hdiff⟩ := exists_pair_of_mem ha hb hc ht
  have hgrades := grade_of_symmDiff (ha.canonicalBlade hK) (hb.canonicalBlade hL)
    (hc.1.term ht).1 hdiff
  obtain ⟨u, hu, rfl⟩ := mem_support.mp hK
  obtain ⟨v, hv, rfl⟩ := mem_support.mp hL
  rwa [hr u hu, hs v hv] at hgrades

/-- The bivector `a e₋e₊ + e₋x`. -/
def timelike : Multivector := ⟨[([0, 1], .var "a"), ([0, 2], .one)]⟩

/-- The square of `a e₋e₊ + e₋x` is `a² + 1`: the two pairs that multiply to `e₊x`
cancel. -/
theorem product_coefficients_timelike :
    (timelike.Canonical ∧ timelike.Homogeneous 2)
      ∧ ∃ c, timelike.mul timelike = .ok c
        ∧ c.terms = [([], ⟨[(⟨[]⟩, ⟨1, 1⟩), (⟨["a", "a"]⟩, ⟨1, 1⟩)]⟩)]
        ∧ pairsOf timelike timelike [1, 2] = {([0, 1], [0, 2]), ([0, 2], [0, 1])}
        ∧ productCoefficient timelike timelike [1, 2] = 0
        ∧ (c.coefficientOf []).value = productCoefficient timelike timelike []
        ∧ ∀ t ∈ c.terms, (∃ j : ℕ, (t.1.length : ℤ) = |((2 : ℕ) : ℤ) - (2 : ℕ)| + 2 * j) := by
  have hcanonical : timelike.Canonical := by decide
  have hgrade : timelike.Homogeneous 2 := by decide
  have hmul : timelike.mul timelike
      = .ok ⟨[([], ⟨[(⟨[]⟩, ⟨1, 1⟩), (⟨["a", "a"]⟩, ⟨1, 1⟩)]⟩)]⟩ := by decide
  obtain ⟨-, hcoefficients, hgrades⟩ :=
    (product_coefficients hcanonical hcanonical).ensures _ hmul
  have hpairs : pairsOf timelike timelike [1, 2] = {([0, 1], [0, 2]), ([0, 2], [0, 1])} := by
    decide
  have hblade : CanonicalBlade [1, 2] := by
    refine ⟨by decide, ?_⟩
    show ∀ i ∈ [1, 2], i < metric.size
    decide
  refine ⟨⟨hcanonical, hgrade⟩, _, hmul, rfl, hpairs, ?_, hcoefficients [] canonicalBlade_nil,
    fun t ht => (hgrades 2 2 hgrade hgrade t ht).1⟩
  rw [← hcoefficients [1, 2] hblade]
  rfl

end Multivector

end GeometricAlgebra
