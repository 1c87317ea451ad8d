/-
  GeometricAlgebra.Proofs.CliffordRing
  ────────────────────────────────
  **THE CLIFFORD ALGEBRA OF A METRIC.**

  The algebra has one coordinate for each set of axes, and the sets `K` and `L`
  multiply to `± K ∆ L`.  The sign is a product over all pairs of an axis of
  `K` and one of `L`: a pair in the wrong order flips it, and an equal pair
  contributes its square (`Metric.twist`).  A product over pairs splits over
  symmetric differences in each argument (`Metric.twist_symmDiff_left`,
  `Metric.twist_symmDiff_right`), and that alone makes the product associative.

  Main results:
    * `Clifford metric R` is a ring, and an algebra over `R`.
    * `Clifford.axis_mul_axis`, `Clifford.axis_mul_self` — different axes
      anticommute, and each axis squares to its square in the metric.
    * `Clifford.prod_axes` — the axes of an increasing word multiply to the
      coordinate of their set.
-/
import GeometricAlgebra.Metric.Canonical
import Mathlib

namespace GeometricAlgebra

/-! ## §1. Signs are a commutative group. -/

namespace Sign

instance : CommGroup Sign where
  one := .positive
  inv := id
  mul_assoc := mul_assoc
  one_mul := positive_mul
  mul_one := mul_positive
  inv_mul_cancel := mul_self
  mul_comm := mul_comm

theorem one_def : (1 : Sign) = .positive := rfl

@[simp] theorem toInt_one : (1 : Sign).toInt = 1 := rfl

theorem toInt_mul (s t : Sign) : (s * t).toInt = s.toInt * t.toInt := by
  cases s <;> cases t <;> rfl

theorem toInt_injective {s t : Sign} (h : s.toInt = t.toInt) : s = t := by
  cases s <;> cases t <;> first | rfl | exact absurd h (by decide)

theorem toInt_neg (s : Sign) : (-s).toInt = -s.toInt := by
  cases s <;> rfl

theorem toInt_ne_zero (s : Sign) : s.toInt ≠ 0 := by
  cases s <;> decide

/-- Signs square to 1, so a product over a symmetric difference is the product
of the products. -/
theorem prod_symmDiff {α : Type} [DecidableEq α] (f : α → Sign) (K L : Finset α) :
    ∏ i ∈ symmDiff K L, f i = (∏ i ∈ K, f i) * ∏ i ∈ L, f i := by
  have hdisj : Disjoint (K \ L) (L \ K) := disjoint_sdiff_sdiff
  have hK : (∏ i ∈ K ∩ L, f i) * ∏ i ∈ K \ L, f i = ∏ i ∈ K, f i :=
    Finset.prod_inter_mul_prod_sdiff K L f
  have hL : (∏ i ∈ K ∩ L, f i) * ∏ i ∈ L \ K, f i = ∏ i ∈ L, f i := by
    rw [Finset.inter_comm]
    exact Finset.prod_inter_mul_prod_sdiff L K f
  -- what the sets share is counted on both sides, and squares to 1
  rw [symmDiff_def, Finset.sup_eq_union, Finset.prod_union hdisj, ← hK, ← hL,
    mul_mul_mul_comm, mul_self]
  exact (one_mul _).symm

end Sign

/-! ## §2. The sign of a product of two sets of axes. -/

namespace Metric

variable (metric : Metric)

/-- The share of one axis on the left and one on the right. -/
def pairSign (i j : Axis) : Sign :=
  if j < i then .negative else if i = j then metric.square i else .positive

/-- The sign of the product of two sets of axes, each in increasing order. -/
def twist (K L : Finset Axis) : Sign := ∏ i ∈ K, ∏ j ∈ L, metric.pairSign i j

theorem pairSign_self (i : Axis) : metric.pairSign i i = metric.square i := by
  rw [pairSign, if_neg (lt_irrefl i), if_pos rfl]

theorem pairSign_of_lt {i j : Axis} (h : i < j) : metric.pairSign i j = 1 := by
  have hji : ¬ j < i := Nat.lt_asymm h
  rw [pairSign, if_neg hji, if_neg (Nat.ne_of_lt h)]
  rfl

/-- Exchanging two different axes flips the sign. -/
theorem pairSign_comm {i j : Axis} (h : i ≠ j) : metric.pairSign i j = -metric.pairSign j i := by
  unfold pairSign
  rcases Nat.lt_or_gt_of_ne h with hlt | hlt
  · rw [if_neg (Nat.lt_asymm hlt), if_neg h, if_pos hlt]
    rfl
  · rw [if_pos hlt, if_neg (Nat.lt_asymm hlt), if_neg (Ne.symm h)]
    rfl

@[simp] theorem twist_empty_left (L : Finset Axis) : metric.twist ∅ L = 1 := Finset.prod_empty

@[simp] theorem twist_empty_right (K : Finset Axis) : metric.twist K ∅ = 1 := by
  simp [twist]

theorem twist_singleton (i j : Axis) : metric.twist {i} {j} = metric.pairSign i j := by
  simp [twist]

theorem twist_symmDiff_left (K K' L : Finset Axis) :
    metric.twist (symmDiff K K') L = metric.twist K L * metric.twist K' L :=
  Sign.prod_symmDiff _ K K'

theorem twist_symmDiff_right (K L L' : Finset Axis) :
    metric.twist K (symmDiff L L') = metric.twist K L * metric.twist K L' := by
  unfold twist
  rw [← Finset.prod_mul_distrib]
  exact Finset.prod_congr rfl fun i _ => Sign.prod_symmDiff _ L L'

/-- **The cocycle identity**: both ways to multiply three sets give one sign. -/
theorem twist_cocycle (K L M : Finset Axis) :
    metric.twist K L * metric.twist (symmDiff K L) M
      = metric.twist L M * metric.twist K (symmDiff L M) := by
  rw [twist_symmDiff_left, twist_symmDiff_right, Sign.mul_comm (metric.twist L M),
    Sign.mul_assoc]

end Metric

/-! ## §3. The algebra. -/

/-- The Clifford algebra of a metric over a commutative ring, in coordinates. -/
def Clifford (_metric : Metric) (R : Type) [CommRing R] : Type := Finset Axis →₀ R

namespace Clifford

variable {metric : Metric} {R : Type} [CommRing R]

noncomputable instance : AddCommGroup (Clifford metric R) :=
  inferInstanceAs (AddCommGroup (Finset Axis →₀ R))

noncomputable instance : Module R (Clifford metric R) :=
  inferInstanceAs (Module R (Finset Axis →₀ R))

/-- A multiple of a set of axes. -/
noncomputable def single (K : Finset Axis) : R →+ Clifford metric R :=
  Finsupp.singleAddHom K

/-- The coordinate of a set of axes. -/
def coord (K : Finset Axis) : Clifford metric R →+ R := Finsupp.applyAddHom K

theorem coord_single (K L : Finset Axis) (a : R) :
    coord K (single L a : Clifford metric R) = if L = K then a else 0 :=
  Finsupp.single_apply

/-- A multiple other than zero determines its set and its factor. -/
theorem single_inj {K L : Finset Axis} {a b : R} (ha : a ≠ 0)
    (h : (single K a : Clifford metric R) = single L b) : K = L ∧ a = b := by
  have hiff := (Finsupp.single_eq_single_iff K L a b).mp h
  rcases hiff with hKL | h0
  · exact hKL
  · exact absurd h0.1 ha

/-- The additive map with given values on the multiples of each set. -/
noncomputable def lift {N : Type} [AddCommMonoid N] (φ : Finset Axis → R →+ N) :
    Clifford metric R →+ N := Finsupp.liftAddHom φ

theorem lift_single {N : Type} [AddCommMonoid N] (φ : Finset Axis → R →+ N) (K : Finset Axis)
    (a : R) : lift φ (single K a : Clifford metric R) = φ K a :=
  Finsupp.liftAddHom_apply_single φ K a

/-- The product of multiples of two sets. -/
noncomputable def mulSingle (K L : Finset Axis) : R →+ R →+ Clifford metric R :=
  (AddMonoidHom.compHom ((metric.twist K L).toInt • single (symmDiff K L))).comp AddMonoidHom.mul

/-- The product, as a map that is additive in each factor. -/
noncomputable def mulHom : Clifford metric R →+ Clifford metric R →+ Clifford metric R :=
  lift fun K => (lift fun L => (mulSingle K L).flip).flip

noncomputable instance : Mul (Clifford metric R) := ⟨fun x y => mulHom x y⟩

noncomputable instance : One (Clifford metric R) := ⟨single ∅ 1⟩

theorem mul_def (x y : Clifford metric R) : x * y = mulHom x y := rfl

theorem one_def : (1 : Clifford metric R) = single ∅ 1 := rfl

/-- **Sets multiply to their symmetric difference**, with the sign of the pair. -/
theorem single_mul_single (K L : Finset Axis) (a b : R) :
    (single K a * single L b : Clifford metric R)
      = (metric.twist K L).toInt • single (symmDiff K L) (a * b) := by
  rw [mul_def, mulHom, lift_single, AddMonoidHom.flip_apply, lift_single]
  rfl

theorem left_distrib (x y z : Clifford metric R) : x * (y + z) = x * y + x * z :=
  map_add (mulHom x) y z

theorem right_distrib (x y z : Clifford metric R) : (x + y) * z = x * z + y * z := by
  rw [mul_def, map_add]
  rfl

theorem zsmul_mul (n : ℤ) (x y : Clifford metric R) : n • x * y = n • (x * y) := by
  rw [mul_def, map_zsmul]
  rfl

theorem mul_zsmul (n : ℤ) (x y : Clifford metric R) : x * n • y = n • (x * y) :=
  map_zsmul (mulHom x) n y

/-- What holds of multiples of sets and of sums holds of every element. -/
@[elab_as_elim]
theorem induction_on {p : Clifford metric R → Prop} (x : Clifford metric R)
    (single : ∀ K a, p (single K a)) (add : ∀ x y, p x → p y → p (x + y)) : p x := by
  refine Finsupp.induction_linear x ?_ add single
  have hzero := single ∅ 0
  rw [map_zero] at hzero
  exact hzero

/-- The product is associative on multiples of sets, because the signs are. -/
theorem single_mul_assoc (K L M : Finset Axis) (a b c : R) :
    (single K a * single L b * single M c : Clifford metric R)
      = single K a * (single L b * single M c) := by
  -- both sides are one set with one factor; only the signs have to be compared
  rw [single_mul_single, single_mul_single, zsmul_mul, mul_zsmul, single_mul_single,
    single_mul_single, smul_smul, smul_smul, ← Sign.toInt_mul, ← Sign.toInt_mul,
    metric.twist_cocycle, symmDiff_assoc, mul_assoc]

theorem one_mul_single (K : Finset Axis) (a : R) :
    (1 * single K a : Clifford metric R) = single K a := by
  rw [one_def, single_mul_single, metric.twist_empty_left, Sign.toInt_one, one_smul, one_mul]
  exact congrArg (fun L => single L a) (bot_symmDiff K)

theorem single_mul_one (K : Finset Axis) (a : R) :
    (single K a * 1 : Clifford metric R) = single K a := by
  rw [one_def, single_mul_single, metric.twist_empty_right, Sign.toInt_one, one_smul, mul_one]
  exact congrArg (fun L => single L a) (symmDiff_bot K)

theorem mul_assoc_of_ring (x y z : Clifford metric R) : x * y * z = x * (y * z) := by
  -- linear in each factor, so multiples of sets are enough
  induction x using induction_on with
  | add x x' hx hx' => rw [right_distrib, right_distrib, right_distrib, hx, hx']
  | single K a =>
    induction y using induction_on with
    | add y y' hy hy' => rw [left_distrib, right_distrib, right_distrib, left_distrib, hy, hy']
    | single L b =>
      induction z using induction_on with
      | add z z' hz hz' => rw [left_distrib, left_distrib, left_distrib, hz, hz']
      | single M c => exact single_mul_assoc K L M a b c

noncomputable instance : Ring (Clifford metric R) where
  __ := (inferInstance : AddCommGroup (Clifford metric R))
  left_distrib := left_distrib
  right_distrib := right_distrib
  zero_mul := fun x => by
    rw [mul_def, map_zero]
    rfl
  mul_zero := fun x => map_zero (mulHom x)
  mul_assoc := mul_assoc_of_ring
  one_mul := fun x => by
    induction x using induction_on with
    | add x x' hx hx' => rw [left_distrib, hx, hx']
    | single K a => exact one_mul_single K a
  mul_one := fun x => by
    induction x using induction_on with
    | add x x' hx hx' => rw [right_distrib, hx, hx']
    | single K a => exact single_mul_one K a

theorem smul_single (r : R) (K : Finset Axis) (a : R) :
    r • (single K a : Clifford metric R) = single K (r * a) :=
  Finsupp.smul_single r K a

theorem single_eq_smul (K : Finset Axis) (a : R) :
    (single K a : Clifford metric R) = a • single K 1 := by
  rw [smul_single, mul_one]

theorem smul_mul (r : R) (x y : Clifford metric R) : r • x * y = r • (x * y) := by
  induction x using induction_on with
  | add x x' hx hx' => rw [smul_add, add_mul, add_mul, smul_add, hx, hx']
  | single K a =>
    induction y using induction_on with
    | add y y' hy hy' => rw [mul_add, mul_add, smul_add, hy, hy']
    | single L b =>
      rw [smul_single, single_mul_single, single_mul_single, smul_comm, smul_single, mul_assoc]

theorem mul_smul (r : R) (x y : Clifford metric R) : x * r • y = r • (x * y) := by
  induction x using induction_on with
  | add x x' hx hx' => rw [add_mul, add_mul, smul_add, hx, hx']
  | single K a =>
    induction y using induction_on with
    | add y y' hy hy' => rw [smul_add, mul_add, mul_add, smul_add, hy, hy']
    | single L b =>
      rw [smul_single, single_mul_single, single_mul_single, smul_comm, smul_single,
        mul_left_comm]

noncomputable instance : Algebra R (Clifford metric R) :=
  Algebra.ofModule smul_mul fun r x y => mul_smul r x y

/-- The scalars are the multiples of the empty set. -/
theorem single_empty (a : R) : (single ∅ a : Clifford metric R) = algebraMap R _ a := by
  rw [Algebra.algebraMap_eq_smul_one, one_def, ← single_eq_smul]

/-! ## §4. Axes. -/

/-- The basis vector of an axis. -/
noncomputable def axis (i : Axis) : Clifford metric R := single {i} 1

/-- **Different axes anticommute.** -/
theorem axis_mul_axis {i j : Axis} (h : i ≠ j) :
    (axis i * axis j : Clifford metric R) = -(axis j * axis i) := by
  unfold axis
  rw [single_mul_single, single_mul_single, metric.twist_singleton, metric.twist_singleton,
    metric.pairSign_comm h, Sign.toInt_neg, neg_smul, symmDiff_comm]

/-- **An axis squares to its square.** -/
theorem axis_mul_self (i : Axis) :
    (axis i * axis i : Clifford metric R) = ((metric.square i).toInt : Clifford metric R) := by
  unfold axis
  rw [single_mul_single, metric.twist_singleton, metric.pairSign_self, symmDiff_self, mul_one,
    zsmul_eq_mul]
  exact mul_one _

/-- A new axis joins a set. -/
theorem symmDiff_singleton_of_notMem {i : Axis} {K : Finset Axis} (h : i ∉ K) :
    symmDiff {i} K = insert i K := by
  rw [(Finset.disjoint_singleton_left.mpr h).symmDiff_eq_sup, Finset.sup_eq_union,
    Finset.insert_eq]

/-- An axis in front of a set of greater axes joins it. -/
theorem axis_mul_single {i : Axis} {K : Finset Axis} (h : ∀ j ∈ K, i < j) (a : R) :
    (axis i * single K a : Clifford metric R) = single (insert i K) a := by
  -- nothing smaller stands to the right, so no pair flips the sign
  have hsign : metric.twist {i} K = 1 := by
    rw [Metric.twist, Finset.prod_singleton]
    exact Finset.prod_eq_one fun j hj => metric.pairSign_of_lt (h j hj)
  have hset : symmDiff {i} K = insert i K :=
    symmDiff_singleton_of_notMem fun hi => lt_irrefl i (h i hi)
  rw [axis, single_mul_single, hsign, hset, Sign.toInt_one, one_smul, one_mul]

/-- **The axes of an increasing word multiply to the coordinate of their set.** -/
theorem prod_axes {word : Blade} (h : word.Pairwise (· < ·)) :
    (word.map axis).prod = (single word.toFinset 1 : Clifford metric R) := by
  induction word with
  | nil => rfl
  | cons i word ih =>
    obtain ⟨hi, hword⟩ := List.pairwise_cons.mp h
    rw [List.map_cons, List.prod_cons, ih hword, List.toFinset_cons]
    exact axis_mul_single (fun j hj => hi j (List.mem_toFinset.mp hj)) 1

end Clifford

end GeometricAlgebra
