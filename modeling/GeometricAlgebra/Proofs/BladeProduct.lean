/-
  GeometricAlgebra.Proofs.BladeProduct
  ────────────────────────────────
  **THE PRODUCT OF TWO CANONICAL BLADES.**

  The normal form of two canonical blades in a row has the axes that occur
  in exactly one of them, and its sign is the parity of a count: the pairs that
  stand in the wrong order, and the shared axes that square to −1.

  Main results:
    * `Metric.normalForm_pair` — the normal form of a concatenation, through the
      symmetric difference and the twist of the two sets of axes.
    * `Metric.sign_pair` — its sign, as a parity.
    * `Metric.length_pair` — its grade.
-/
import GeometricAlgebra.Proofs.CanonicalForm

namespace GeometricAlgebra

/-! ## §1. Parities and counts. -/

namespace Sign

theorem ofParity_succ (n : Nat) : ofParity (n + 1) = -ofParity n := by
  rw [ofParity_add, mul_comm]
  cases ofParity n <;> rfl

theorem ofParity_eq_negative_iff {n : Nat} : ofParity n = .negative ↔ Odd n := by
  rw [Nat.odd_iff, ofParity]
  split
  next h => exact iff_of_false (by decide) (by omega)
  next h => exact iff_of_true rfl (by omega)

end Sign

/-- The pairs of a left and a right axis that stand in the wrong order. -/
def crossings (lhs rhs : Blade) : Nat := (lhs ×ˢ rhs).countP fun pair => pair.2 < pair.1

theorem crossings_cons (i : Axis) (lhs rhs : Blade) :
    crossings (i :: lhs) rhs = rhs.countP (· < i) + crossings lhs rhs := by
  rw [crossings, List.product_cons, List.countP_append, List.countP_map]
  rfl

/-- The union counts a shared axis once, the symmetric difference not at all. -/
theorem card_symmDiff (K L : Finset Axis) :
    (symmDiff K L).card + 2 * (K ∩ L).card = K.card + L.card := by
  have hunion := Finset.card_union_add_card_inter K L
  have hsymm := Finset.card_sdiff_add_card_eq_card
    (Finset.inter_subset_union (s := K) (t := L))
  rw [symmDiff_eq_sup_sdiff_inf]
  show ((K ∪ L) \ (K ∩ L)).card + _ = _
  omega

/-! ## §2. The twist of two blades as a parity. -/

namespace Metric

variable {metric : Metric}

/-- The axes of the left blade that vanish against the right one at the price
of a sign. -/
def negativeShared (metric : Metric) (lhs rhs : Blade) : Nat :=
  lhs.countP fun i => i ∈ rhs ∧ metric.square i = .negative

/-- One axis against a blade: a flip for each smaller axis, and one for the
square if the axis is shared and squares to −1. -/
theorem prod_pairSign (metric : Metric) (i : Axis) {rhs : Blade} (hrhs : rhs.Nodup) :
    ∏ j ∈ rhs.toFinset, metric.pairSign i j
      = Sign.ofParity (rhs.countP (· < i) + if i ∈ rhs ∧ metric.square i = .negative then 1 else 0)
        := by
  induction rhs with
  | nil => rfl
  | cons j rhs ih =>
    obtain ⟨hj, hrhs⟩ := List.nodup_cons.mp hrhs
    rw [List.toFinset_cons, Finset.prod_insert (fun h => hj (List.mem_toFinset.mp h)), ih hrhs,
      List.countP_cons]
    rcases Nat.lt_trichotomy i j with hlt | rfl | hgt
    · -- a greater axis leaves the sign alone
      have hmem : i ∈ j :: rhs ↔ i ∈ rhs := List.mem_cons.trans (or_iff_right (Nat.ne_of_lt hlt))
      have hle : ¬ j < i := Nat.lt_asymm hlt
      simp only [metric.pairSign_of_lt hlt, hmem, hle, decide_false, Bool.false_eq_true, if_false,
        Nat.add_zero]
      exact one_mul _
    · -- the axis itself contributes its square, and cannot occur again
      have hirr : ¬ i < i := Nat.lt_irrefl i
      simp only [metric.pairSign_self, hj, hirr, List.mem_cons_self, true_and, false_and, if_false,
        decide_false, Bool.false_eq_true, Nat.add_zero]
      cases hsquare : metric.square i with
      | positive =>
        rw [if_neg nofun]
        exact one_mul _
      | negative =>
        rw [if_pos rfl, Sign.ofParity_succ]
        cases Sign.ofParity (rhs.countP (· < i)) <;> rfl
    · -- a smaller axis is passed, which flips the sign
      have hmem : i ∈ j :: rhs ↔ i ∈ rhs := List.mem_cons.trans (or_iff_right (Nat.ne_of_gt hgt))
      simp only [pairSign, hmem, hgt, if_true, decide_true]
      rw [Nat.add_right_comm, Sign.ofParity_succ]
      cases Sign.ofParity _ <;> rfl

/-- **The twist of two blades is a parity.** -/
theorem twist_toFinset {lhs rhs : Blade} (hlhs : lhs.Nodup) (hrhs : rhs.Nodup) :
    metric.twist lhs.toFinset rhs.toFinset
      = Sign.ofParity (crossings lhs rhs + metric.negativeShared lhs rhs) := by
  induction lhs with
  | nil => rfl
  | cons i lhs ih =>
    obtain ⟨hi, hlhs⟩ := List.nodup_cons.mp hlhs
    have hrow := metric.prod_pairSign i hrhs
    rw [twist, List.toFinset_cons, Finset.prod_insert (fun h => hi (List.mem_toFinset.mp h)), hrow]
    show _ * metric.twist lhs.toFinset rhs.toFinset = _
    rw [ih hlhs, ← Sign.ofParity_add, crossings_cons, negativeShared, negativeShared,
      List.countP_cons]
    congr 1
    simp only [decide_eq_true_eq]
    omega

/-! ## §3. The product. -/

section Pair

variable {lhs rhs : Blade} (hlhs : lhs.Pairwise (· < ·)) (hrhs : rhs.Pairwise (· < ·))
include hlhs hrhs

/-- **TWO CANONICAL BLADES MULTIPLY TO THEIR SYMMETRIC DIFFERENCE**, with the
twist as the sign. -/
theorem normalForm_pair : metric.normalForm (lhs ++ rhs)
    = ⟨(symmDiff lhs.toFinset rhs.toFinset).sort (· ≤ ·),
        metric.twist lhs.toFinset rhs.toFinset⟩ := by
  -- the axes multiply to the two sets, and these to their symmetric difference
  refine normalForm_eq_of_prod_eq (symmDiff lhs.toFinset rhs.toFinset).sortedLT_sort.pairwise ?_
  rw [List.map_append, List.prod_append, Clifford.prod_axes hlhs, Clifford.prod_axes hrhs,
    Clifford.single_mul_single, element, Finset.sort_toFinset, mul_one]

theorem mem_pair {i : Axis} :
    i ∈ (metric.normalForm (lhs ++ rhs)).axes ↔ i ∈ lhs ∧ i ∉ rhs ∨ i ∈ rhs ∧ i ∉ lhs := by
  rw [normalForm_pair hlhs hrhs, Finset.mem_sort, Finset.mem_symmDiff]
  simp only [List.mem_toFinset]

theorem sign_pair : (metric.normalForm (lhs ++ rhs)).sign
    = Sign.ofParity (crossings lhs rhs + metric.negativeShared lhs rhs) := by
  rw [normalForm_pair hlhs hrhs]
  exact twist_toFinset (hlhs.imp Nat.ne_of_lt) (hrhs.imp Nat.ne_of_lt)

/-- The grade of the product: shared axes are lost on both sides. -/
theorem length_pair (metric : Metric) : (metric.normalForm (lhs ++ rhs)).axes.length
    + 2 * (lhs.toFinset ∩ rhs.toFinset).card = lhs.length + rhs.length := by
  have hcard := card_symmDiff lhs.toFinset rhs.toFinset
  rw [List.toFinset_card_of_nodup (hlhs.imp Nat.ne_of_lt),
    List.toFinset_card_of_nodup (hrhs.imp Nat.ne_of_lt)] at hcard
  rw [normalForm_pair hlhs hrhs, Finset.length_sort]
  exact hcard

end Pair

end Metric

end GeometricAlgebra
