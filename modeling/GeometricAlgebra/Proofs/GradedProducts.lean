/-
  GeometricAlgebra.Proofs.GradedProducts
  ────────────────────────────────
  **GRADED PRODUCTS ARE PARTS OF THE GEOMETRIC PRODUCT.**

  The Clifford algebra splits into grades, by the sizes of the sets of axes.
  The outer product and the left contraction of homogeneous multivectors are
  parts of their geometric product; the zero multivector has no grade of its
  own, so it is homogeneous of every grade and its products are zero without a
  computation.

  Main results:
    * `Multivector.homogeneous_iff` — a multivector is homogeneous exactly when
      its element is its own part of that grade.
    * `Multivector.Denotes.wedge`, `Multivector.Denotes.leftContract` — on
      homogeneous operands the graded products answer, unless a coefficient
      overflows, and with the exact part.
-/
import GeometricAlgebra.Proofs.MultivectorRing

namespace GeometricAlgebra

open Outcome

/-! ## §1. Grades of the Clifford algebra. -/

namespace Clifford

variable {metric : Metric} {R : Type} [CommRing R]

/-- The part of one grade: the coordinates of the sets of that size. -/
noncomputable def gradePart (grade : Nat) : Clifford metric R →+ Clifford metric R :=
  lift fun K => if K.card = grade then single K else 0

theorem gradePart_single (grade : Nat) (K : Finset Axis) (a : R) :
    gradePart grade (single K a : Clifford metric R)
      = if K.card = grade then single K a else 0 := by
  rw [gradePart, lift_single]
  split
  · rfl
  · rfl

theorem gradePart_smul (grade : Nat) (r : R) (x : Clifford metric R) :
    gradePart grade (r • x) = r • gradePart grade x := by
  induction x using induction_on with
  | add x y hx hy => rw [smul_add, map_add, hx, hy, map_add, smul_add]
  | single K a =>
    rw [smul_single, gradePart_single, gradePart_single]
    split
    · rw [smul_single]
    · rw [smul_zero]

/-- Distinct axes multiply to the coordinate of their set, up to sign. -/
theorem prod_axes_of_nodup {word : Blade} (h : word.Nodup) :
    ∃ s : Sign, (word.map axis).prod = (s.toInt • single word.toFinset 1 : Clifford metric R) := by
  induction word with
  | nil => exact ⟨1, (one_smul ℤ _).symm⟩
  | cons i word ih =>
    obtain ⟨hi, hword⟩ := List.nodup_cons.mp h
    obtain ⟨s, hs⟩ := ih hword
    have hset : symmDiff {i} word.toFinset = insert i word.toFinset :=
      symmDiff_singleton_of_notMem fun hmem => hi (List.mem_toFinset.mp hmem)
    -- a fresh axis joins the set, at the price of passing the smaller axes
    refine ⟨s * metric.twist {i} word.toFinset, ?_⟩
    rw [List.map_cons, List.prod_cons, hs, mul_smul_comm, axis, single_mul_single,
      hset, smul_smul, ← Sign.toInt_mul, mul_one, List.toFinset_cons]

/-- **A product of distinct axes is homogeneous**, of grade their number. -/
theorem gradePart_prod_axes (grade : Nat) {word : Blade} (h : word.Nodup) :
    gradePart grade ((word.map axis).prod : Clifford metric R)
      = if word.length = grade then (word.map axis).prod else 0 := by
  obtain ⟨s, hs⟩ : ∃ s : Sign,
      (word.map axis).prod = (s.toInt • single word.toFinset 1 : Clifford metric R) :=
    prod_axes_of_nodup h
  rw [hs, map_zsmul, gradePart_single, List.toFinset_card_of_nodup h]
  split
  · rfl
  · rw [smul_zero]

end Clifford

namespace Multivector

open SortedTerms

/-! ## §2. Homogeneous multivectors. -/

/-- Every blade has the same grade.  The zero multivector has every grade. -/
def Homogeneous (grade : Nat) (a : Multivector) : Prop := ∀ t ∈ a.terms, t.1.length = grade

instance (grade : Nat) (a : Multivector) : Decidable (a.Homogeneous grade) :=
  inferInstanceAs (Decidable (∀ t ∈ a.terms, t.1.length = grade))

theorem isZero_iff {a : Multivector} : a.isZero = true ↔ a = zero := by
  rw [isZero, List.isEmpty_iff, zero]
  constructor
  · intro h
    cases a
    exact congrArg _ h
  · intro h
    subst h
    rfl

theorem unit_denotes {K : Blade} (hK : CanonicalBlade K) :
    Denotes (algebraTerm K 1) (unit K) := by
  have hone := Polynomial.one_denotes
  refine ⟨canonical_iff.mpr (isNormal_cons.mpr ⟨⟨hK, hone.1, rfl⟩, isNormal_nil⟩), ?_⟩
  show algebraTerm K Polynomial.one.value + 0 = _
  rw [hone.2, add_zero]

theorem unit_homogeneous (K : Blade) : (unit K).Homogeneous K.length := by
  intro t ht
  rw [List.mem_singleton.mp ht]

/-- A homogeneous multivector other than zero has its grade. -/
theorem Homogeneous.grade_eq {grade : Nat} {a : Multivector} (h : a.Homogeneous grade)
    (h0 : ¬ a.isZero = true) : a.grade = .ok grade := by
  obtain ⟨terms⟩ := a
  cases terms with
  | nil => exact absurd rfl h0
  | cons first rest =>
    have hfirst : first.1.length = grade := h first List.mem_cons_self
    have hall : rest.all (fun t => t.1.length == first.1.length) = true := by
      rw [List.all_eq_true]
      intro t ht
      rw [beq_iff_eq, hfirst]
      exact h t (List.mem_cons_of_mem first ht)
    unfold Multivector.grade
    show (if rest.all (fun t => t.1.length == first.1.length) = true then _ else _) = _
    rw [if_pos hall, hfirst]

/-- The terms of one grade read as the part of that grade. -/
theorem reading_filter (grade : Nat) {terms : List (Blade × Polynomial)}
    (hterms : ∀ t ∈ terms, CanonicalBlade t.1) :
    reading algebraTerm (terms.filter fun t => t.1.length == grade)
      = Clifford.gradePart grade (reading algebraTerm terms) := by
  induction terms with
  | nil => exact (map_zero _).symm
  | cons t terms ih =>
    have hcard : t.1.toFinset.card = t.1.length :=
      List.toFinset_card_of_nodup ((hterms t List.mem_cons_self).1.imp Nat.ne_of_lt)
    have htail := ih fun t' ht' => hterms t' (List.mem_cons_of_mem t ht')
    rw [reading_cons, map_add, ← htail, algebraTerm, Clifford.gradePart_single, hcard,
      List.filter_cons]
    by_cases hlength : t.1.length = grade
    · rw [if_pos hlength, if_pos (beq_iff_eq.mpr hlength), reading_cons]
      rfl
    · rw [if_neg hlength, if_neg (mt beq_iff_eq.mp hlength), zero_add]

/-- **Projection is exact.** -/
theorem Denotes.project {x : ConformalAlgebra} {a : Multivector} (ha : Denotes x a)
    (grade : Nat) : Denotes (Clifford.gradePart grade x) (a.project grade) := by
  obtain ⟨ha, rfl⟩ := ha
  have hnormal := canonical_iff.mp ha
  have hmem : ∀ t ∈ a.terms.filter (fun t => t.1.length == grade), t ∈ a.terms :=
    fun t ht => (List.mem_filter.mp ht).1
  refine ⟨canonical_iff.mpr ⟨⟨hnormal.1.1.filter _, ?_⟩, ?_⟩, ?_⟩
  · exact fun t ht => hnormal.1.2 t (hmem t ht)
  · exact fun t ht => hnormal.2 t (hmem t ht)
  · exact reading_filter grade fun t ht => (hnormal.2 t ht).1

/-- **Homogeneity shows in the element.** -/
theorem homogeneous_iff {grade : Nat} {x : ConformalAlgebra} {a : Multivector}
    (ha : Denotes x a) : a.Homogeneous grade ↔ Clifford.gradePart grade x = x := by
  have hproject := ha.project grade
  constructor
  · intro h
    have hself : a.project grade = a := by
      have hfilter : a.terms.filter (fun t => t.1.length == grade) = a.terms :=
        List.filter_eq_self.mpr fun t ht => beq_iff_eq.mpr (h t ht)
      rw [Multivector.project, hfilter]
    rw [hself] at hproject
    exact hproject.2.symm.trans ha.2
  · intro h t ht
    rw [h] at hproject
    -- the projection stands for the same element, so it has dropped nothing
    have hself : a.project grade = a :=
      value_injective hproject.1 ha.1 (hproject.2.trans ha.2.symm)
    rw [← hself] at ht
    exact beq_iff_eq.mp (List.mem_filter.mp ht).2

/-! ## §3. The outer product and the left contraction. -/

section Graded

variable {l r : Nat} {x y : ConformalAlgebra} {a b : Multivector} (ha : Denotes x a)
  (hb : Denotes y b) (hl : a.Homogeneous l) (hr : b.Homogeneous r)
include ha hb

/-- Zero times anything is zero. -/
theorem Denotes.mul_eq_zero (h0 : (a.isZero || b.isZero) = true) : x * y = 0 := by
  rcases Bool.or_eq_true_iff.mp h0 with h0 | h0
  · have hx : x = 0 := by
      rw [← ha.2, isZero_iff.mp h0]
      exact zero_denotes.2
    rw [hx, zero_mul]
  · have hy : y = 0 := by
      rw [← hb.2, isZero_iff.mp h0]
      exact zero_denotes.2
    rw [hy, mul_zero]

include hl hr

/-- **The outer product is the part of the summed grade.** -/
theorem Denotes.wedge : Yields (a.wedge b) (Denotes (Clifford.gradePart (l + r) (x * y))) := by
  unfold Multivector.wedge
  split
  next h0 =>
    -- a zero operand is answered without a product
    rw [ha.mul_eq_zero hb h0, map_zero]
    exact yields_ok zero_denotes
  next h0 =>
    obtain ⟨ha0, hb0⟩ := not_or.mp (mt Bool.or_eq_true_iff.mpr h0)
    rw [hl.grade_eq ha0, hr.grade_eq hb0]
    exact (ha.mul hb).bind fun _ h => yields_pure (h.project (l + r))

/-- **The left contraction is the part of the difference of the grades**, and
zero if the left grade is the greater one. -/
theorem Denotes.leftContract : Yields (a.leftContract b)
    (Denotes (if l ≤ r then Clifford.gradePart (r - l) (x * y) else 0)) := by
  unfold Multivector.leftContract
  split
  next h0 =>
    rw [ha.mul_eq_zero hb h0, map_zero, ite_self]
    exact yields_ok zero_denotes
  next h0 =>
    obtain ⟨ha0, hb0⟩ := not_or.mp (mt Bool.or_eq_true_iff.mpr h0)
    rw [hl.grade_eq ha0, hr.grade_eq hb0]
    show Yields (if r < l then _ else _) _
    split
    next hlt =>
      -- nothing lies below the scalars
      rw [if_neg (Nat.not_le_of_gt hlt)]
      exact yields_pure zero_denotes
    next hle =>
      rw [if_pos (Nat.le_of_not_lt hle)]
      exact (ha.mul hb).bind fun _ h => yields_pure (h.project (r - l))

end Graded

end Multivector

end GeometricAlgebra
