/-
  GeometricAlgebra.Proofs.ReversalLaws
  ────────────────────────────────
  **THE SIGN OF A REVERSAL.**

  Reversal writes blades backwards and brings them into order again; no grade is
  asked for.  Nevertheless it only changes signs, and the sign depends on the
  grade alone: to turn a word of `g` different axes around, each pair of them
  changes places, and there are `g(g − 1)/2` pairs (`Clifford.reverse_single_eq`).
  In particular nothing is contracted, and reversing twice changes nothing.

  Main result:
    * `Multivector.rev_laws` — reversal is an involution, turns products around,
      keeps sums, and acts on each coefficient by the sign of its grade.
-/
import GeometricAlgebra.Proofs.BuiltValues
import GeometricAlgebra.Proofs.Reversal

namespace GeometricAlgebra

open Outcome

/-! ## §1. The sign of a word of different axes. -/

namespace Clifford

variable {metric : Metric} {R : Type} [CommRing R]

/-- An axis passes a word without it, at the price of one sign for each letter. -/
theorem prod_axes_mul_axis {word : Blade} {i : Axis} (h : i ∉ word) :
    ((word.map axis).prod * axis i : Clifford metric R)
      = (-1 : ℤ) ^ word.length • (axis i * (word.map axis).prod) := by
  induction word with
  | nil => simp
  | cons j word ih =>
    rw [List.mem_cons, not_or] at h
    obtain ⟨hj, hword⟩ := h
    have hswap : (axis j * axis i : Clifford metric R) = -(axis i * axis j) :=
      axis_mul_axis (Ne.symm hj)
    rw [List.map_cons, List.prod_cons, mul_assoc, ih hword, mul_smul_comm, ← mul_assoc, hswap,
      List.length_cons, pow_succ, ← smul_smul, neg_one_smul, neg_mul, mul_assoc]

/-- **A word of different axes, read backwards**: every pair of letters changes
places. -/
theorem prod_reverse_of_nodup {word : Blade} (h : word.Nodup) :
    ((word.reverse.map axis).prod : Clifford metric R)
      = (-1 : ℤ) ^ word.length.choose 2 • (word.map axis).prod := by
  induction word with
  | nil => simp
  | cons i word ih =>
    obtain ⟨hi, hword⟩ := List.nodup_cons.mp h
    -- the first letter comes last, and passes all others on its way back
    have hpairs : (word.length + 1).choose 2 = word.length.choose 2 + word.length := by
      rw [Nat.choose_succ_succ', Nat.choose_one_right, Nat.add_comm]
    rw [List.reverse_cons, List.map_append, List.prod_append, List.map_singleton,
      List.prod_singleton, ih hword, smul_mul_assoc, prod_axes_mul_axis hi, smul_smul, ← pow_add,
      List.length_cons, hpairs, List.map_cons, List.prod_cons]

/-- **Reversal multiplies a set by the sign of its size.** -/
theorem reverse_single_eq (K : Finset Axis) (a : R) :
    reverse (single K a : Clifford metric R) = (-1 : ℤ) ^ K.card.choose 2 • single K a := by
  rw [reverse_single, backwards, prod_reverse_of_nodup (K.sort_nodup _), Finset.length_sort,
    prod_sort, smul_comm, ← single_eq_smul]

/-- **Reversing twice changes nothing.** -/
theorem reverse_reverse (x : Clifford metric R) : reverse (reverse x) = x := by
  induction x using induction_on with
  | add x y hx hy => rw [map_add, map_add, hx, hy]
  | single K a =>
    have hsquare : (-1 : ℤ) ^ K.card.choose 2 * (-1 : ℤ) ^ K.card.choose 2 = 1 := by
      rw [← mul_pow]
      simp
    rw [reverse_single_eq, map_zsmul, reverse_single_eq, smul_smul, hsquare, one_smul]

/-- The coordinates of a reversal. -/
theorem coord_reverse (K : Finset Axis) (x : Clifford metric R) :
    coord K (reverse x) = (-1 : ℤ) ^ K.card.choose 2 • coord K x := by
  induction x using induction_on with
  | add x y hx hy => rw [map_add, map_add, map_add, hx, hy, smul_add]
  | single L a =>
    rw [reverse_single_eq, map_zsmul, coord_single]
    by_cases h : L = K
    · rw [h]
    · rw [if_neg h, smul_zero, smul_zero]

end Clifford

/-! ## §2. Coefficients of a reversal. -/

namespace Multivector

/-- **Each coefficient is multiplied by the sign of its grade.** -/
theorem coefficientOf_reverse {a c : Multivector} (ha : a.Canonical)
    (hc : Denotes (Clifford.reverse a.value) c) (K : Blade) :
    Polynomial.Denotes
      ((-1 : ℤ) ^ (K.length * (K.length - 1) / 2) • (a.coefficientOf K).value)
      (c.coefficientOf K) := by
  refine ⟨hc.1.coefficientOf K, ?_⟩
  by_cases hK : CanonicalBlade K
  · have hcard : K.toFinset.card = K.length :=
      List.toFinset_card_of_nodup (hK.1.imp Nat.ne_of_lt)
    rw [← hc.1.coord_value hK, hc.2, Clifford.coord_reverse, ha.coord_value hK, hcard,
      Nat.choose_two_right]
  · rw [hc.1.value_coefficientOf_eq_zero hK, ha.value_coefficientOf_eq_zero hK, smul_zero]

/-- **REVERSAL IS AN INVOLUTIVE ANTI-AUTOMORPHISM**: unless a coefficient
overflows, reversing twice gives the multivector back, the reversal of a product
is the product of the reversals in the other order, and the reversal of a sum is
the sum of the reversals, as equalities of stored terms; and reversal multiplies
the coefficient of every blade of grade `g` by `(-1)^(g(g - 1)/2)`. -/
theorem rev_laws {a b : Multivector} (ha : a.Canonical) (hb : b.Canonical) :
    Agree (do (← a.rev).rev) (.ok a)
      ∧ Agree (do (← a.mul b).rev) (do (← b.rev).mul (← a.rev))
      ∧ Agree (do (← a.add b).rev) (do (← a.rev).add (← b.rev))
      ∧ Yields a.rev (fun c => ∀ K : Blade, Polynomial.Denotes
          ((-1 : ℤ) ^ (K.length * (K.length - 1) / 2) • (a.coefficientOf K).value)
          (c.coefficientOf K)) := by
  have hA : Denotes a.value a := ⟨ha, rfl⟩
  have hB : Denotes b.value b := ⟨hb, rfl⟩
  refine ⟨?_, ?_, ?_, ?_⟩
  · -- the involution
    have hl : Yields (do (← a.rev).rev) (Denotes (Clifford.reverse (Clifford.reverse a.value))) :=
      hA.rev.bind fun _ h => h.rev
    rw [Clifford.reverse_reverse] at hl
    exact agree_of_denotes hl (yields_ok hA)
  · -- products
    have hl : Yields (do (← a.mul b).rev) (Denotes (Clifford.reverse (a.value * b.value))) :=
      (hA.mul hB).bind fun _ h => h.rev
    rw [Clifford.reverse_mul] at hl
    exact agree_of_denotes hl (hB.rev.bind fun _ h => hA.rev.bind fun _ h' => h.mul h')
  · -- sums
    have hl : Yields (do (← a.add b).rev) (Denotes (Clifford.reverse (a.value + b.value))) :=
      (hA.add hB).bind fun _ h => h.rev
    rw [map_add] at hl
    exact agree_of_denotes hl (hA.rev.bind fun _ h => hB.rev.bind fun _ h' => h.add h')
  · -- coefficients
    exact hA.rev.mono fun c hc K => coefficientOf_reverse ha hc K

/-- The multivector `(t − 1/2) + 3 e₋x` and the trivector `e₋e₊x`: reversal turns the
sign of the bivector and keeps the scalar. -/
theorem rev_laws_mixed : (mixed.Canonical ∧ (unit [0, 1, 2]).Canonical)
    ∧ Agree (do (← mixed.rev).rev) (.ok mixed)
    ∧ Agree (do (← mixed.mul (unit [0, 1, 2])).rev)
        (do (← (unit [0, 1, 2]).rev).mul (← mixed.rev))
    ∧ Agree (do (← mixed.add (unit [0, 1, 2])).rev)
        (do (← mixed.rev).add (← (unit [0, 1, 2]).rev))
    ∧ ∃ c, mixed.rev = .ok c ∧ c.coefficientOf [0, 2] = .ofInt (-3)
      ∧ Polynomial.Denotes ((-1 : ℤ) ^ (2 * (2 - 1) / 2) • (mixed.coefficientOf [0, 2]).value)
          (c.coefficientOf [0, 2]) := by
  have hmixed : mixed.Canonical := by decide
  have hunit : (unit [0, 1, 2]).Canonical := by decide
  obtain ⟨htwice, hmul, hadd, hcoefficients⟩ := rev_laws hmixed hunit
  have hrev : mixed.rev
      = .ok ⟨[([], ⟨[(⟨[]⟩, ⟨-1, 2⟩), (⟨["t"]⟩, ⟨1, 1⟩)]⟩), ([0, 2], .ofInt (-3))]⟩ := by decide
  exact ⟨⟨hmixed, hunit⟩, htwice, hmul, hadd, _, hrev, rfl,
    hcoefficients.ensures _ hrev [0, 2]⟩

end Multivector

end GeometricAlgebra
