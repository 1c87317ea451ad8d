/-
  GeometricAlgebra.Proofs.Reversal
  ────────────────────────────────
  **REVERSAL IS AN ANTI-AUTOMORPHISM.**

  The axes have the same products in the opposite ring, where a word is read
  backwards.  Canonical forms compute in every ring with such axes, so a word
  and its reversal pick up one and the same sign (`Clifford.prod_reverse`), and
  reversing sets of axes reverses every product.

  Main results:
    * `Clifford.reverse_mul` — the reversal of a product is the product of the
      reversals in the other order.
    * `Multivector.Denotes.rev` — writing blades backwards and bringing them into
      order again is exact.
-/
import GeometricAlgebra.Proofs.ExteriorAlgebra

namespace GeometricAlgebra

open Outcome

/-! ## §1. Words backwards. -/

namespace Clifford

variable {metric : Metric} {R : Type} [CommRing R]

/-- The axes of a set multiply to it. -/
theorem prod_sort (K : Finset Axis) :
    ((K.sort (· ≤ ·)).map axis).prod = (single K 1 : Clifford metric R) := by
  rw [prod_axes K.sortedLT_sort.pairwise, Finset.sort_toFinset]

/-- The axes of an increasing word, in order. -/
theorem sort_toFinset {word : Blade} (h : word.Pairwise (· < ·)) :
    word.toFinset.sort (· ≤ ·) = word :=
  Metric.eq_of_toFinset_eq word.toFinset.sortedLT_sort.pairwise h (Finset.sort_toFinset _ _)

/-- **Axes have the same relations in the opposite ring.** -/
theorem represents_op :
    metric.Represents fun i => MulOpposite.op (axis i : Clifford metric R) where
  anticommute i j h := by
    rw [← MulOpposite.op_mul, ← MulOpposite.op_mul, axis_mul_axis h.symm, MulOpposite.op_neg]
  square i := by
    rw [← MulOpposite.op_mul, axis_mul_self, MulOpposite.op_intCast]

/-- **A word read backwards has the sign of the word.** -/
theorem prod_reverse (word : Blade) :
    (word.reverse.map axis).prod = (metric.normalForm word).sign.toInt
      • (((metric.normalForm word).axes.reverse.map axis).prod : Clifford metric R) := by
  have hop : metric.Represents fun i => MulOpposite.op (axis i : Clifford metric R) := represents_op
  have h := congrArg MulOpposite.unop (Metric.prod_normalForm hop word)
  rw [MulOpposite.unop_smul, MulOpposite.unop_list_prod, MulOpposite.unop_list_prod, List.map_map,
    List.map_map] at h
  rw [List.map_reverse, List.map_reverse]
  exact h

/-! ## §2. Reversal. -/

/-- The axes of a set, from the last to the first. -/
noncomputable def backwards (K : Finset Axis) : Clifford metric R :=
  ((K.sort (· ≤ ·)).reverse.map axis).prod

/-- The reversal of every set. -/
noncomputable def reverse : Clifford metric R →+ Clifford metric R :=
  lift fun K => (smulAddHom R (Clifford metric R)).flip (backwards K)

theorem reverse_single (K : Finset Axis) (a : R) :
    reverse (single K a : Clifford metric R) = a • backwards K := by
  rw [reverse, lift_single]
  rfl

theorem reverse_smul (r : R) (x : Clifford metric R) : reverse (r • x) = r • reverse x := by
  induction x using induction_on with
  | add x y hx hy => rw [smul_add, map_add, map_add, smul_add, hx, hy]
  | single K a => rw [smul_single, reverse_single, reverse_single, smul_smul]

/-- **The reversal of a word is the word backwards**, canonical or not. -/
theorem reverse_prod_axes (word : Blade) :
    reverse ((word.map axis).prod : Clifford metric R) = (word.reverse.map axis).prod := by
  have hincreasing := metric.normalForm_increasing word
  have hword : ((word.map axis).prod : Clifford metric R) = (metric.normalForm word).sign.toInt
      • single (metric.normalForm word).axes.toFinset 1 := by
    rw [Metric.prod_normalForm Metric.represents_axis, prod_axes hincreasing]
  rw [hword, map_zsmul, reverse_single, one_smul, backwards, sort_toFinset hincreasing]
  exact (prod_reverse word).symm

/-- **REVERSAL TURNS PRODUCTS AROUND.** -/
theorem reverse_mul (x y : Clifford metric R) : reverse (x * y) = reverse y * reverse x := by
  induction x using induction_on with
  | add x x' hx hx' => rw [add_mul, map_add, map_add, mul_add, hx, hx']
  | single K a =>
    induction y using induction_on with
    | add y y' hy hy' => rw [mul_add, map_add, map_add, add_mul, hy, hy']
    | single L b =>
      -- both sets are words, and their product is the word of both
      have hword : (single K a * single L b : Clifford metric R)
          = (a * b) • ((K.sort (· ≤ ·) ++ L.sort (· ≤ ·)).map axis).prod := by
        rw [List.map_append, List.prod_append, prod_sort, prod_sort, single_eq_smul K,
          single_eq_smul L, smul_mul_smul_comm]
      rw [hword, reverse_smul, reverse_prod_axes, List.reverse_append, List.map_append,
        List.prod_append, reverse_single, reverse_single, smul_mul_smul_comm, mul_comm a]
      rfl

theorem reverse_one : reverse (1 : Clifford metric R) = 1 :=
  reverse_prod_axes []

/-- **Vectors are their own reversals.** -/
theorem reverse_of_grade_one {x : Clifford metric R} (hx : gradePart 1 x = x) : reverse x = x := by
  refine homogeneous_induction hx ?_ ?_ ?_
  · exact map_zero _
  · intro K a hK
    obtain ⟨i, rfl⟩ := Finset.card_eq_one.mp hK
    rw [reverse_single, backwards, Finset.sort_singleton, single_eq_smul _ a]
    show a • ((List.map axis [i]).prod : Clifford metric R) = _
    rw [List.map_singleton, List.prod_singleton]
    rfl
  · intro x y hx hy
    rw [map_add, hx, hy]

end Clifford

/-! ## §3. Reversed multivectors. -/

namespace Multivector

open SortedTerms

/-- **Reversal is exact.** -/
theorem Denotes.rev {x : ConformalAlgebra} {a : Multivector} (ha : Denotes x a) :
    Yields a.rev (Denotes (Clifford.reverse x)) := by
  obtain ⟨ha, rfl⟩ := ha
  have hnormal := (canonical_iff.mp ha).2
  have hterm : ∀ t ∈ a.terms, Yields (signedTerm (metric.canonicalizeKnown t.1.reverse) t.2) (fun u =>
      (CanonicalBlade u.1 ∧ u.2.Canonical)
        ∧ algebraTerm u.1 u.2.value = Clifford.reverse (algebraTerm t.1 t.2.value)) := by
    intro t ht
    obtain ⟨hblade, hp⟩ := hnormal t ht
    have hword : metric.InAlphabet t.1.reverse := fun i hi => hblade.2 i (List.mem_reverse.mp hi)
    rw [Metric.canonicalizeKnown_of_inAlphabet hword]
    apply (signedTerm_yields hword ⟨hp, rfl⟩).mono
    rintro u ⟨hu, hvalue⟩
    refine ⟨hu, ?_⟩
    rw [hvalue, algebraTerm, Clifford.reverse_single, Clifford.backwards,
      Clifford.sort_toFinset hblade.1]
  apply (mapM_reading_yields (φ := algebraTerm) (ψ := algebraTerm) hterm).bind
  rintro us ⟨hus, hreading⟩
  apply (ofBlades_denotes hus).mono
  rintro r ⟨hr, hvalue⟩
  exact ⟨hr, hvalue.trans hreading⟩

end Multivector

end GeometricAlgebra
