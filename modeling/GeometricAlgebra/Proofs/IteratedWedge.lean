/-
  GeometricAlgebra.Proofs.IteratedWedge
  ────────────────────────────────
  **ITERATED OUTER PRODUCTS COMPUTE MINORS.**

  A vector in front of an element adds one axis to each of its sets, at the price
  of a sign for each smaller axis that is there already
  (`Clifford.coord_wedge_vector`).  This is the expansion of a determinant along
  its first row, so by induction on the vectors the coordinate of their outer
  product on a set of axes is the minor of their coefficients in the columns of
  that set (`Clifford.coord_outer`).

  Multivectors are multiplied from the left, one after the other, and on the way a
  product may cancel and be short-circuited; because the outer product is
  associative neither shows.

  Main result:
    * `Multivector.iterated_wedge_minors` — the fold over any vectors answers with
      their minors and nothing else, and vanishes against each of them.
-/
import GeometricAlgebra.Proofs.GradedLaws

namespace GeometricAlgebra

open Outcome

namespace Clifford

variable {metric : Metric} {R : Type} [CommRing R]

/-! ## §1. A vector in front. -/

/-- An axis outside of a set joins it to a set with that axis. -/
theorem disjoint_and_symmDiff_eq_iff {i : Axis} {M K : Finset Axis} :
    Disjoint {i} M ∧ symmDiff {i} M = K ↔ i ∈ K ∧ M = K.erase i := by
  constructor
  · rintro ⟨hdisj, rfl⟩
    have hi : i ∉ M := Finset.disjoint_singleton_left.mp hdisj
    rw [symmDiff_singleton_of_notMem hi, Finset.erase_insert hi]
    exact ⟨Finset.mem_insert_self i M, rfl⟩
  · rintro ⟨hi, rfl⟩
    have hnot : i ∉ K.erase i := Finset.notMem_erase i K
    rw [symmDiff_singleton_of_notMem hnot, Finset.insert_erase hi]
    exact ⟨Finset.disjoint_singleton_left.mpr hnot, rfl⟩

/-- **The coordinates of a vector and an element behind it**: each axis of the set
comes from the vector once, and the others from the element. -/
theorem coord_wedge_vector {x : Clifford metric R} (hx : gradePart 1 x = x)
    (y : Clifford metric R) (K : Finset Axis) : coord K (wedge x y)
      = ∑ i ∈ K, (metric.twist {i} (K.erase i)).toInt • (coord {i} x * coord (K.erase i) y) := by
  -- both sides are linear in either factor
  refine homogeneous_induction hx ?_ ?_ ?_
  · simp
  · intro L a hL
    obtain ⟨i, rfl⟩ := Finset.card_eq_one.mp hL
    induction y using induction_on with
    | add y y' hy hy' => simp only [map_add, hy, hy', mul_add, smul_add, Finset.sum_add_distrib]
    | single M b =>
      have hleft : coord K (wedge (single {i} a : Clifford metric R) (single M b))
          = if i ∈ K ∧ M = K.erase i then (metric.twist {i} M).toInt • (a * b) else 0 := by
        rw [wedge, mulWhere_single, single_mul_single, apply_ite (coord K), map_zsmul, coord_single,
          map_zero, smul_ite, smul_zero, ← ite_and]
        simp only [disjoint_and_symmDiff_eq_iff]
      have hterm : ∀ j ∈ K, j ≠ i → (metric.twist {j} (K.erase j)).toInt
          • (coord {j} (single {i} a : Clifford metric R)
            * coord (K.erase j) (single M b : Clifford metric R)) = 0 := by
        intro j _ hj
        rw [coord_single, if_neg fun h => hj (Finset.singleton_injective h).symm, zero_mul,
          smul_zero]
      rw [hleft]
      by_cases hi : i ∈ K
      · rw [Finset.sum_eq_single_of_mem i hi hterm, coord_single, coord_single, if_pos rfl]
        by_cases hM : M = K.erase i
        · rw [if_pos ⟨hi, hM⟩, if_pos hM, hM]
        · rw [if_neg fun h => hM h.2, if_neg hM, mul_zero, smul_zero]
      · rw [if_neg fun h => hi h.1]
        exact (Finset.sum_eq_zero fun j hj => hterm j hj fun h => hi (h ▸ hj)).symm
  · intro x x' hx hx'
    simp only [map_add, AddMonoidHom.add_apply, hx, hx', add_mul, smul_add, Finset.sum_add_distrib]

/-! ## §2. Sets of axes in increasing order. -/

section Increasing

variable {n : Nat} {axes : Fin (n + 1) → Axis} (haxes : StrictMono axes) (j : Fin (n + 1))
include haxes

/-- Without one of them, the others remain in their order. -/
theorem erase_image : (Finset.univ.image axes).erase (axes j)
    = Finset.univ.image (axes ∘ j.succAbove) := by
  rw [Fin.univ_succAbove n j, Finset.cons_eq_insert, Finset.image_insert, Finset.erase_insert]
  · rw [Finset.map_eq_image, Finset.image_image]
    rfl
  · intro hmem
    obtain ⟨i, hi, heq⟩ := Finset.mem_image.mp hmem
    obtain ⟨i, -, rfl⟩ := Finset.mem_map.mp hi
    exact Fin.succAbove_ne j i (haxes.injective heq)

/-- **An axis passes the smaller ones**, which are those in front of it. -/
theorem twist_others : (metric.twist {axes j} (Finset.univ.image (axes ∘ j.succAbove))).toInt
    = (-1) ^ (j : Nat) := by
  have hinjective : Function.Injective (axes ∘ j.succAbove) :=
    haxes.injective.comp Fin.succAbove_right_injective
  have hsign : ∀ i : Fin n, metric.pairSign (axes j) (axes (j.succAbove i))
      = if (i : Nat) < j then .negative else 1 := by
    intro i
    have hne : axes j ≠ axes (j.succAbove i) :=
      fun h => Fin.succAbove_ne j i (haxes.injective h).symm
    have hlt : axes (j.succAbove i) < axes j ↔ (i : Nat) < j := by
      rw [haxes.lt_iff_lt, Fin.succAbove_lt_iff_castSucc_lt]
      rfl
    unfold Metric.pairSign
    simp only [hlt, if_neg hne]
    rfl
  have hcount : (Finset.univ.filter fun i : Fin n => (i : Nat) < j).card = j := by
    rw [Fin.card_filter_val_lt]
    omega
  rw [Metric.twist, Finset.prod_singleton, Finset.prod_image hinjective.injOn]
  simp only [Function.comp_apply, hsign]
  rw [Finset.prod_ite, Finset.prod_const, Finset.prod_const_one, mul_one, hcount,
    Sign.toInt_negative_pow]

end Increasing

/-! ## §3. Outer products of many vectors. -/

theorem wedge_one (x : Clifford metric R) : wedge x 1 = x := by
  induction x using induction_on with
  | add x y hx hy => rw [map_add, AddMonoidHom.add_apply, hx, hy]
  | single K a =>
    rw [wedge, one_def, mulWhere_single, if_pos (Finset.disjoint_empty_right K), ← one_def, mul_one]

/-- The outer product of a list of elements. -/
noncomputable def outer (xs : List (Clifford metric R)) : Clifford metric R :=
  xs.foldr (fun x y => wedge x y) 1

theorem outer_cons (x : Clifford metric R) (xs : List (Clifford metric R)) :
    outer (x :: xs) = wedge x (outer xs) := rfl

/-- **THE COORDINATES OF AN OUTER PRODUCT OF VECTORS ARE MINORS**: the vectors that
the items of a list stand for make the rows, and the axes the columns. -/
theorem coord_outer {α : Type} {φ : α → Clifford metric R} {xs : List α}
    (hxs : ∀ x ∈ xs, gradePart 1 (φ x) = φ x) {axes : Fin xs.length → Axis}
    (haxes : StrictMono axes) : coord (Finset.univ.image axes) (outer (xs.map φ))
      = Matrix.det (Matrix.of fun i j => coord {axes j} (φ (xs.get i))) := by
  induction xs with
  | nil => exact ((coord_single _ _ _).trans (if_pos rfl)).trans Matrix.det_fin_zero.symm
  | cons x xs ih =>
    -- the first vector is expanded as the first row is
    rw [List.map_cons, outer_cons, coord_wedge_vector (hxs x List.mem_cons_self),
      Finset.sum_image haxes.injective.injOn, Matrix.det_succ_row_zero]
    refine Finset.sum_congr rfl fun j _ => ?_
    have hothers : StrictMono (axes ∘ j.succAbove) := haxes.comp (Fin.strictMono_succAbove j)
    have hminor := ih (fun x' hx' => hxs x' (List.mem_cons_of_mem x hx')) hothers
    rw [erase_image haxes, twist_others haxes, hminor, zsmul_eq_mul, ← mul_assoc]
    push_cast
    rfl

/-- **A vector vanishes against an outer product in which it is a factor.** -/
theorem wedge_outer_of_mem {xs : List (Clifford metric R)} (hxs : ∀ x ∈ xs, gradePart 1 x = x)
    {v : Clifford metric R} (hv : v ∈ xs) : wedge v (outer xs) = 0 := by
  induction xs with
  | nil => cases hv
  | cons x xs ih =>
    have hx := hxs x List.mem_cons_self
    rw [outer_cons, ← wedge_assoc]
    rcases List.mem_cons.mp hv with rfl | hmem
    · rw [wedge_self hx, map_zero, AddMonoidHom.zero_apply]
    · -- it changes places with the first factor and meets itself behind it
      have hswap := wedge_comm (hxs v hv) hx
      rw [hswap, mul_one, pow_one, neg_smul, one_smul, map_neg, AddMonoidHom.neg_apply, wedge_assoc,
        ih (fun x' hx' => hxs x' (List.mem_cons_of_mem x hx')) hmem, map_zero, neg_zero]

end Clifford

namespace Multivector

/-! ## §4. Folding the outer product. -/

/-- **The fold is the outer product of all**, whatever cancels on the way. -/
theorem foldlM_wedge_yields {grade : Nat} {x : ConformalAlgebra} {a : Multivector}
    (ha : Denotes x a) (hgrade : a.Homogeneous grade) {rest : List Multivector}
    (hrest : ∀ v ∈ rest, v.Canonical ∧ v.Homogeneous 1) :
    Yields (rest.foldlM wedge a) (fun w =>
      Denotes (Clifford.wedge x (Clifford.outer (rest.map value))) w
        ∧ w.Homogeneous (grade + rest.length)) := by
  induction rest generalizing grade x a with
  | nil =>
    rw [List.map_nil, Clifford.outer, List.foldr_nil, Clifford.wedge_one]
    exact yields_pure ⟨ha, hgrade⟩
  | cons v rest ih =>
    obtain ⟨hv, hv1⟩ := hrest v List.mem_cons_self
    rw [List.foldlM_cons]
    refine (ha.wedge_yields ⟨hv, rfl⟩ hgrade hv1).bind fun b hb => ?_
    apply (ih hb.1 hb.2 fun v' hv' => hrest v' (List.mem_cons_of_mem v hv')).mono
    rintro w ⟨hw, hgrade'⟩
    rw [Clifford.wedge_assoc] at hw
    rw [List.length_cons, Nat.add_comm rest.length, ← Nat.add_assoc]
    exact ⟨hw, hgrade'⟩

/-- The coefficients of vectors at some axes: a row for each vector. -/
noncomputable def coefficientMatrix (vs : List Multivector) (axes : Fin vs.length → Axis) :
    Matrix (Fin vs.length) (Fin vs.length) (MvPolynomial String ℚ) :=
  Matrix.of fun i j => ((vs.get i).coefficientOf [axes j]).value

/-- Increasing axes of the alphabet make a canonical blade. -/
theorem canonicalBlade_ofFn {n : Nat} {axes : Fin n → Axis} (haxes : StrictMono axes)
    (hlt : ∀ j, axes j < metric.size) : CanonicalBlade (List.ofFn axes) := by
  refine ⟨List.pairwise_ofFn.mpr fun i j hij => haxes hij, fun i hi => ?_⟩
  obtain ⟨j, rfl⟩ := List.mem_ofFn.mp hi
  exact hlt j

/-- **A coefficient of the outer product of vectors is a minor of theirs.** -/
theorem coefficientOf_outer {vs : List Multivector}
    (hvs : ∀ v ∈ vs, v.Canonical ∧ v.Homogeneous 1) {w : Multivector}
    (hw : Denotes (Clifford.outer (vs.map value)) w) {axes : Fin vs.length → Axis}
    (haxes : StrictMono axes) (hlt : ∀ j, axes j < metric.size) :
    (w.coefficientOf (List.ofFn axes)).value = (coefficientMatrix vs axes).det := by
  have hvectors : ∀ v ∈ vs, Clifford.gradePart 1 v.value = v.value :=
    fun v hv => (homogeneous_iff ⟨(hvs v hv).1, rfl⟩).mp (hvs v hv).2
  have hentry : ∀ i j, ((vs.get i).coefficientOf [axes j]).value
      = Clifford.coord {axes j} (vs.get i).value := by
    intro i j
    have haxis : CanonicalBlade [axes j] :=
      ⟨List.pairwise_singleton _ _, by simpa [Metric.InAlphabet] using hlt j⟩
    exact ((hvs _ (List.get_mem vs i)).1.coord_value haxis).symm
  rw [← hw.1.coord_value (canonicalBlade_ofFn haxes hlt), hw.2, ← Fin.univ_image_def,
    Clifford.coord_outer hvectors haxes]
  unfold coefficientMatrix
  simp only [hentry]

/-- **ITERATED OUTER PRODUCTS COMPUTE MINORS**: multivectors that are zero or of
grade 1, with any coefficients, have an outer product from left to right unless a
coefficient overflows.  It has their number as its grade, so it is zero for more
than five; its coefficient at axes in increasing order is the determinant of the
coefficients at these axes; and its outer product with each of them is zero. -/
theorem iterated_wedge_minors {first : Multivector} {rest : List Multivector}
    (hvs : ∀ v ∈ first :: rest, v.Canonical ∧ v.Homogeneous 1) :
    Yields (rest.foldlM wedge first) fun w =>
      w.Canonical ∧ w.Homogeneous (first :: rest).length
        ∧ (∀ axes : Fin (first :: rest).length → Axis, StrictMono axes → (∀ j, axes j < 5) →
          (w.coefficientOf (List.ofFn axes)).value = (coefficientMatrix (first :: rest) axes).det)
        ∧ (5 < (first :: rest).length → w = zero)
        ∧ ∀ v ∈ first :: rest, Yields (w.wedge v) (· = zero) ∧ Yields (v.wedge w) (· = zero) := by
  obtain ⟨hfirst, hfirst1⟩ := hvs first List.mem_cons_self
  have hrest : ∀ v ∈ rest, v.Canonical ∧ v.Homogeneous 1 :=
    fun v hv => hvs v (List.mem_cons_of_mem first hv)
  have hvectors : ∀ x ∈ (first :: rest).map value, Clifford.gradePart 1 x = x := by
    intro x hx
    obtain ⟨v, hv, rfl⟩ := List.mem_map.mp hx
    exact (homogeneous_iff ⟨(hvs v hv).1, rfl⟩).mp (hvs v hv).2
  apply (foldlM_wedge_yields ⟨hfirst, rfl⟩ hfirst1 hrest).mono
  rintro w ⟨hw, hgrade⟩
  rw [Nat.add_comm] at hgrade
  refine ⟨hw.1, hgrade, fun axes haxes hlt => coefficientOf_outer hvs hw haxes hlt,
    hgrade.eq_zero hw.1, fun v hv => ?_⟩
  have hv1 : Denotes v.value v := ⟨(hvs v hv).1, rfl⟩
  have hzero : Clifford.wedge v.value (Clifford.wedge first.value (Clifford.outer (rest.map value)))
      = 0 := Clifford.wedge_outer_of_mem hvectors (List.mem_map.mpr ⟨v, hv, rfl⟩)
  have hswap := Clifford.wedge_comm ((homogeneous_iff hw).mp hgrade)
    ((homogeneous_iff hv1).mp (hvs v hv).2)
  rw [hzero, smul_zero] at hswap
  constructor
  · apply (hw.wedge_yields hv1 hgrade (hvs v hv).2).mono
    rintro u ⟨hu, -⟩
    exact (hu.eq_iff zero_denotes).mpr hswap
  · apply (hv1.wedge_yields hw (hvs v hv).2 hgrade).mono
    rintro u ⟨hu, -⟩
    exact (hu.eq_iff zero_denotes).mpr hzero

/-- The vector `a e₋ + x`. -/
def inclined : Multivector := ⟨[([0], .var "a"), ([2], .one)]⟩

/-- The vector `b x + 2 y`. -/
def planar : Multivector := ⟨[([2], .var "b"), ([3], .ofInt 2)]⟩

/-- The outer product of `a e₋ + x` and `b x + 2 y`, its coefficient at `e₋x` and its
product with the first vector. -/
theorem iterated_wedge_minors_pair :
    (∀ v ∈ [inclined, planar], v.Canonical ∧ v.Homogeneous 1)
      ∧ ∃ w, [planar].foldlM wedge inclined = .ok w
        ∧ w.Homogeneous 2
        ∧ (w.coefficientOf [0, 2]).value = (coefficientMatrix [inclined, planar] ![0, 2]).det
        ∧ Yields (w.wedge inclined) (· = zero) := by
  have hvs : ∀ v ∈ [inclined, planar], v.Canonical ∧ v.Homogeneous 1 := by decide
  have hfold : [planar].foldlM wedge inclined = .ok
      ⟨[([0, 2], ⟨[(⟨["a", "b"]⟩, ⟨1, 1⟩)]⟩), ([0, 3], ⟨[(⟨["a"]⟩, ⟨2, 1⟩)]⟩), ([2, 3], .ofInt 2)]⟩ := by
    decide
  obtain ⟨-, hgrade, hminor, -, hself⟩ := (iterated_wedge_minors hvs).ensures _ hfold
  have haxes : StrictMono (![0, 2] : Fin 2 → Axis) := by decide
  have hlt : ∀ j, (![0, 2] : Fin 2 → Axis) j < 5 := by decide
  exact ⟨hvs, _, hfold, hgrade, hminor ![0, 2] haxes hlt, (hself inclined List.mem_cons_self).1⟩

end Multivector

end GeometricAlgebra
