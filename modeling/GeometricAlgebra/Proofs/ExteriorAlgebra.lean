/-
  GeometricAlgebra.Proofs.ExteriorAlgebra
  ────────────────────────────────
  **THE GRADED PRODUCTS OF THE CLIFFORD ALGEBRA.**

  On sets of axes a graded product keeps some pairs of the geometric product and
  drops the others (`Clifford.mulWhere`): the outer product keeps the pairs
  without a common axis (`Clifford.wedge`), the left contraction those whose
  left set is part of the right one (`Clifford.contract`).  On homogeneous
  elements they are the parts of the geometric product in the grades `l + r`
  and `r − l`.

  The signs of the two ways to multiply three sets agree already, so a law
  between graded products only says which triples are kept
  (`Clifford.mulWhere_mulWhere`).

  Main results:
    * `Clifford.wedge_assoc`, `Clifford.wedge_comm`, `Clifford.wedge_self` — the
      laws of an exterior algebra, whatever the squares of the axes are.
    * `Clifford.contract_wedge` — the left contraction is adjoint to the outer
      product.
-/
import GeometricAlgebra.Proofs.BladeProduct
import GeometricAlgebra.Proofs.GradedProducts

namespace GeometricAlgebra

/-! ## §1. Exchanging two sets of axes. -/

namespace Sign

theorem neg_eq_negative_mul (s : Sign) : -s = .negative * s := by
  cases s <;> rfl

theorem toInt_negative_pow (n : Nat) : (Sign.negative ^ n).toInt = (-1) ^ n := by
  induction n with
  | zero => rfl
  | succ n ih =>
    rw [pow_succ, pow_succ, toInt_mul, ih]
    rfl

end Sign

/-- **Without a common axis every pair of axes changes places**, and each costs
a sign. -/
theorem Metric.twist_comm (metric : Metric) {K L : Finset Axis} (h : Disjoint K L) :
    metric.twist K L = .negative ^ (K.card * L.card) * metric.twist L K := by
  have hrow : ∀ i ∈ K, ∏ j ∈ L, metric.pairSign i j
      = .negative ^ L.card * ∏ j ∈ L, metric.pairSign j i := by
    intro i hi
    have hpair : ∀ j ∈ L, metric.pairSign i j = .negative * metric.pairSign j i := by
      intro j hj
      rw [metric.pairSign_comm (h.forall_ne_finset hi hj), Sign.neg_eq_negative_mul]
    rw [Finset.prod_congr rfl hpair, Finset.prod_mul_distrib, Finset.prod_const]
  have hswap : ∏ i ∈ K, ∏ j ∈ L, metric.pairSign j i = metric.twist L K := Finset.prod_comm
  rw [twist, Finset.prod_congr rfl hrow, Finset.prod_mul_distrib, Finset.prod_const, hswap,
    ← pow_mul, Nat.mul_comm]

namespace Clifford

variable {metric : Metric} {R : Type} [CommRing R]

/-! ## §2. Products that keep some pairs of sets. -/

section Keep

variable (keep : Finset Axis → Finset Axis → Prop) [DecidableRel keep]

/-- The pairs of sets that are kept multiply as in the geometric product, and the
others give nothing. -/
noncomputable def mulWhere : Clifford metric R →+ Clifford metric R →+ Clifford metric R :=
  lift fun K => (lift fun L => if keep K L then (mulSingle K L).flip else 0).flip

theorem mulWhere_single (K L : Finset Axis) (a b : R) :
    mulWhere keep (single K a : Clifford metric R) (single L b)
      = if keep K L then single K a * single L b else 0 := by
  rw [mulWhere, lift_single, AddMonoidHom.flip_apply, lift_single, single_mul_single]
  split <;> rfl

/-- The product of two sets on the left of a third. -/
theorem mulWhere_mul_single (K L M : Finset Axis) (a b c : R) :
    mulWhere keep (single K a * single L b : Clifford metric R) (single M c)
      = if keep (symmDiff K L) M then single K a * single L b * single M c else 0 := by
  rw [single_mul_single, map_zsmul, AddMonoidHom.smul_apply, mulWhere_single, smul_ite, smul_zero,
    zsmul_mul]

/-- The product of two sets on the right of a third. -/
theorem mulWhere_single_mul (K L M : Finset Axis) (a b c : R) :
    mulWhere keep (single K a : Clifford metric R) (single L b * single M c)
      = if keep K (symmDiff L M) then single K a * (single L b * single M c) else 0 := by
  rw [single_mul_single, map_zsmul, mulWhere_single, smul_ite, smul_zero, mul_zsmul]

end Keep

/-- **Graded products of three factors agree if they keep the same triples.** -/
theorem mulWhere_mulWhere {inner outer inner' outer' : Finset Axis → Finset Axis → Prop}
    [DecidableRel inner] [DecidableRel outer] [DecidableRel inner'] [DecidableRel outer']
    (h : ∀ K L M, inner K L ∧ outer (symmDiff K L) M ↔ inner' L M ∧ outer' K (symmDiff L M))
    (x y z : Clifford metric R) :
    mulWhere outer (mulWhere inner x y) z = mulWhere outer' x (mulWhere inner' y z) := by
  -- linear in each factor, and the geometric product is associative
  induction x using induction_on with
  | add x x' hx hx' => simp only [map_add, AddMonoidHom.add_apply, hx, hx']
  | single K a =>
    induction y using induction_on with
    | add y y' hy hy' => simp only [map_add, AddMonoidHom.add_apply, hy, hy']
    | single L b =>
      induction z using induction_on with
      | add z z' hz hz' => simp only [map_add, hz, hz']
      | single M c =>
        have hleft : mulWhere outer (mulWhere inner (single K a) (single L b)) (single M c)
            = if inner K L ∧ outer (symmDiff K L) M
              then (single K a * single L b * single M c : Clifford metric R) else 0 := by
          rw [mulWhere_single, ite_and]
          split
          · exact mulWhere_mul_single outer K L M a b c
          · rw [map_zero, AddMonoidHom.zero_apply]
        have hright : mulWhere outer' (single K a) (mulWhere inner' (single L b) (single M c))
            = if inner' L M ∧ outer' K (symmDiff L M)
              then (single K a * (single L b * single M c) : Clifford metric R) else 0 := by
          rw [mulWhere_single, ite_and]
          split
          · exact mulWhere_single_mul outer' K L M a b c
          · rw [map_zero]
        rw [hleft, hright, mul_assoc]
        simp only [h]

/-- The outer product keeps the pairs without a common axis. -/
noncomputable def wedge : Clifford metric R →+ Clifford metric R →+ Clifford metric R :=
  mulWhere Disjoint

/-- The left contraction keeps the pairs whose left set is part of the right one. -/
noncomputable def contract : Clifford metric R →+ Clifford metric R →+ Clifford metric R :=
  mulWhere (· ⊆ ·)

/-- **The outer product is associative.** -/
theorem wedge_assoc (x y z : Clifford metric R) : wedge (wedge x y) z = wedge x (wedge y z) := by
  refine mulWhere_mulWhere (fun K L M => ?_) x y z
  -- on both sides: no axis is in two of the three sets
  simp only [Finset.disjoint_left, Finset.mem_symmDiff, ← forall_and]
  refine forall_congr' fun i => ?_
  tauto

/-- **The left contraction is adjoint to the outer product.** -/
theorem contract_wedge (x y z : Clifford metric R) :
    contract (wedge x y) z = contract x (contract y z) := by
  refine mulWhere_mulWhere (fun K L M => ?_) x y z
  -- on both sides: the first two sets are disjoint parts of the third
  simp only [Finset.disjoint_left, Finset.subset_iff, Finset.mem_symmDiff, ← forall_and]
  refine forall_congr' fun i => ?_
  tauto

/-! ## §3. Homogeneous elements. -/

theorem gradePart_gradePart (grade : Nat) (x : Clifford metric R) :
    gradePart grade (gradePart grade x) = gradePart grade x := by
  induction x using induction_on with
  | add x y hx hy => simp only [map_add, hx, hy]
  | single K a =>
    rw [gradePart_single]
    split
    next h => rw [gradePart_single, if_pos h]
    next => rw [map_zero]

theorem gradePart_single_mul_single (grade : Nat) (K L : Finset Axis) (a b : R) :
    gradePart grade (single K a * single L b : Clifford metric R)
      = if (symmDiff K L).card = grade then single K a * single L b else 0 := by
  rw [single_mul_single, map_zsmul, gradePart_single, smul_ite, smul_zero]

/-- What holds of the multiples of sets of one size and of sums holds of every
homogeneous element. -/
@[elab_as_elim]
theorem homogeneous_induction {grade : Nat} {p : Clifford metric R → Prop} {x : Clifford metric R}
    (hx : gradePart grade x = x) (zero : p 0) (single : ∀ K a, K.card = grade → p (single K a))
    (add : ∀ x y, p x → p y → p (x + y)) : p x := by
  have hpart : ∀ y, p (gradePart grade y) := by
    intro y
    induction y using induction_on with
    | add y z hy hz =>
      rw [map_add]
      exact add _ _ hy hz
    | single K a =>
      rw [gradePart_single]
      split
      next h => exact single K a h
      next => exact zero
  rw [← hx]
  exact hpart x

section Grades

variable {l r : Nat} {x y : Clifford metric R} (hx : gradePart l x = x) (hy : gradePart r y = y)
include hx hy

/-- Products that agree on the sets of two sizes agree on homogeneous elements. -/
theorem homogeneous_ext {f g : Clifford metric R →+ Clifford metric R →+ Clifford metric R}
    (h : ∀ K L a b, K.card = l → L.card = r →
      f (single K a) (single L b) = g (single K a) (single L b)) : f x y = g x y := by
  refine homogeneous_induction hx ?_ ?_ ?_
  · simp only [map_zero, AddMonoidHom.zero_apply]
  · intro K a hK
    refine homogeneous_induction hy ?_ ?_ ?_
    · simp only [map_zero]
    · intro L b hL
      exact h K L a b hK hL
    · intro y y' hy hy'
      rw [map_add, map_add, hy, hy']
  · intro x x' hx hx'
    rw [map_add, map_add, AddMonoidHom.add_apply, AddMonoidHom.add_apply, hx, hx']

/-- **A part of the geometric product is the graded product that keeps the pairs
of its grade.** -/
theorem gradePart_mul {keep : Finset Axis → Finset Axis → Prop} [DecidableRel keep] {grade : Nat}
    (hkeep : ∀ K L, K.card = l → L.card = r → ((symmDiff K L).card = grade ↔ keep K L)) :
    gradePart grade (x * y) = mulWhere keep x y := by
  refine homogeneous_ext hx hy (f := (AddMonoidHom.compHom (gradePart grade)).comp mulHom) ?_
  intro K L a b hK hL
  show gradePart grade (single K a * single L b) = _
  rw [gradePart_single_mul_single, mulWhere_single]
  simp only [hkeep K L hK hL]

theorem gradePart_mul_eq_wedge : gradePart (l + r) (x * y) = wedge x y := by
  refine gradePart_mul hx hy fun K L hK hL => ?_
  have hcard := card_symmDiff K L
  rw [Finset.disjoint_iff_inter_eq_empty, ← Finset.card_eq_zero]
  omega

theorem gradePart_mul_eq_contract (hle : l ≤ r) : gradePart (r - l) (x * y) = contract x y := by
  refine gradePart_mul hx hy fun K L hK hL => ?_
  have hcard := card_symmDiff K L
  rw [← Finset.inter_eq_left]
  constructor
  · intro h
    exact Finset.eq_of_subset_of_card_le Finset.inter_subset_left (by omega)
  · intro h
    rw [h] at hcard
    omega

/-- A greater set is no part of a smaller one. -/
theorem contract_eq_zero (hlt : r < l) : contract x y = 0 := by
  refine homogeneous_ext hx hy (g := 0) fun K L a b hK hL => ?_
  have hkeep : ¬ K ⊆ L := by
    intro hsub
    have hle := Finset.card_le_card hsub
    omega
  rw [contract, mulWhere_single, if_neg hkeep]
  rfl

/-- **The outer product is homogeneous**, of the sum of the grades. -/
theorem gradePart_wedge : gradePart (l + r) (wedge x y) = wedge x y := by
  rw [← gradePart_mul_eq_wedge hx hy, gradePart_gradePart]

/-- **The left contraction is homogeneous**, of the difference of the grades. -/
theorem gradePart_contract : gradePart (r - l) (contract x y) = contract x y := by
  rcases Nat.lt_or_ge r l with hlt | hle
  · rw [contract_eq_zero hx hy hlt, map_zero]
  · rw [← gradePart_mul_eq_contract hx hy hle, gradePart_gradePart]

/-- **The outer product is graded commutative.** -/
theorem wedge_comm : wedge x y = (-1 : ℤ) ^ (l * r) • wedge y x := by
  refine homogeneous_ext hx hy (g := (-1 : ℤ) ^ (l * r) • wedge.flip) fun K L a b hK hL => ?_
  show _ = (-1 : ℤ) ^ (l * r) • wedge (single L b) (single K a)
  rw [wedge, mulWhere_single, mulWhere_single]
  by_cases hdisj : Disjoint K L
  · rw [if_pos hdisj, if_pos hdisj.symm, single_mul_single, single_mul_single,
      metric.twist_comm hdisj, hK, hL, Sign.toInt_mul, Sign.toInt_negative_pow, smul_smul,
      symmDiff_comm, mul_comm a]
  · rw [if_neg hdisj, if_neg fun h => hdisj h.symm, smul_zero]

end Grades

/-- **A vector has the outer square zero.** -/
theorem wedge_self {x : Clifford metric R} (hx : gradePart 1 x = x) : wedge x x = 0 := by
  -- the cross terms of a sum cancel, because vectors anticommute
  have h : gradePart 1 x = x ∧ wedge x x = 0 := by
    refine homogeneous_induction hx ?_ ?_ ?_
    · exact ⟨map_zero _, map_zero _⟩
    · intro K a hK
      have hne : ¬ Disjoint K K := by
        rw [disjoint_self, Finset.bot_eq_empty, ← Finset.card_eq_zero]
        omega
      exact ⟨by rw [gradePart_single, if_pos hK], by rw [wedge, mulWhere_single, if_neg hne]⟩
    · rintro x y ⟨hx, hxx⟩ ⟨hy, hyy⟩
      have hxy : wedge x y = -wedge y x := by
        have h := wedge_comm hx hy
        rwa [mul_one, pow_one, neg_smul, one_smul] at h
      refine ⟨by rw [map_add, hx, hy], ?_⟩
      simp only [map_add, AddMonoidHom.add_apply]
      rw [hxx, hyy, hxy, zero_add, add_zero, add_neg_cancel]
  exact h.2

/-- **A vector multiplies to its contraction and its outer product**: each of its axes
lies either in a set or outside of it, and no other grade occurs. -/
theorem mul_eq_contract_add_wedge {x : Clifford metric R} (hx : gradePart 1 x = x)
    (y : Clifford metric R) : x * y = contract x y + wedge x y := by
  refine homogeneous_induction hx ?_ ?_ ?_
  · simp only [zero_mul, map_zero, AddMonoidHom.zero_apply, add_zero]
  · intro K a hK
    obtain ⟨i, rfl⟩ := Finset.card_eq_one.mp hK
    induction y using induction_on with
    | add y z hy hz => rw [mul_add, map_add, map_add, hy, hz, add_add_add_comm]
    | single L b =>
      rw [contract, wedge, mulWhere_single, mulWhere_single]
      simp only [Finset.singleton_subset_iff, Finset.disjoint_singleton_left]
      by_cases h : i ∈ L
      · rw [if_pos h, if_neg (not_not.mpr h), add_zero]
      · rw [if_neg h, if_pos h, zero_add]
  · intro x x' hx hx'
    rw [add_mul, map_add, map_add, AddMonoidHom.add_apply, AddMonoidHom.add_apply, hx, hx',
      add_add_add_comm]

end Clifford

end GeometricAlgebra
