/-
  GeometricAlgebra.Proofs.FlatPoints
  ────────────────────────────────
  **FLAT POINTS DECIDE INCIDENCE.**

  The flat point through `p` is `p ∧ ∞`.  The weight of `p` is a multiple of `∞` and
  vanishes against it, so the squared length of `p` leaves no trace:

      (o + p + w ∞) ∧ ∞  =  e₋e₊ − Σ c (e₋e + e₊e)    over the Euclidean axes `e`,

  where `c` is the coordinate of `p` along `e`.  A second point `q` against this is an
  outer product of three vectors, whose coordinate at the axes of `e₋e₊e` is the
  difference of the coordinates of `q` and `p` along `e`; so the product vanishes for
  equal points only.

  Main result:
    * `Conformal.flat_points_decide_incidence` — the flat point of any coordinates,
      and which points lie on it.
-/
import GeometricAlgebra.Proofs.ConformalPoints
import GeometricAlgebra.Proofs.IteratedWedge

namespace GeometricAlgebra

open Outcome

/-! ## §1. Planes of two axes. -/

namespace Clifford

variable {metric : Metric} {R : Type} [CommRing R]

/-- **Two axes make a plane**, up to the sign of their order, unless they are the same. -/
theorem wedge_axes (i j : Axis) (a b : R) : wedge (single {i} a : Clifford metric R) (single {j} b)
    = if i = j then 0 else (metric.pairSign i j).toInt • single {i, j} (a * b) := by
  rw [wedge, mulWhere_single]
  simp only [Finset.disjoint_singleton]
  by_cases h : i = j
  · rw [if_pos h, if_neg (not_not.mpr h)]
  · have hplane : symmDiff {i} {j} = ({i, j} : Finset Axis) :=
      symmDiff_singleton_of_notMem (mt Finset.mem_singleton.mp h)
    rw [if_neg h, if_pos h, single_mul_single, metric.twist_singleton, hplane]

theorem coord_ofCoordinates {i : Axis} (hi : i < metric.size) (a : Axis → R) :
    coord {i} (ofCoordinates a : Clifford metric R) = a i := by
  unfold ofCoordinates
  rw [map_sum, Finset.sum_eq_single_of_mem i (Finset.mem_range.mpr hi), coord_single, if_pos rfl]
  intro j _ hj
  rw [coord_single, if_neg fun h => hj (Finset.singleton_injective h)]

end Clifford

namespace Conformal

open Multivector

/-! ## §2. The element of a flat point. -/

/-- The element that infinity stands for. -/
noncomputable def infinityElement : ConformalAlgebra :=
  Clifford.single {0} 1 + Clifford.single {1} 1

/-- The two planes of a Euclidean axis with the conformal ones, `f (e₋e + e₊e)`. -/
noncomputable def planes (axis : Axis) (f : MvPolynomial String ℚ) : ConformalAlgebra :=
  Clifford.single {0, axis} f + Clifford.single {1, axis} f

/-- The element `e₋e₊ − x (e₋x + e₊x) − y (e₋y + e₊y) − z (e₋z + e₊z)`. -/
noncomputable def flat (x y z : MvPolynomial String ℚ) : ConformalAlgebra :=
  Clifford.single {0, 1} 1 - planes 2 x - planes 3 y - planes 4 z

/-- A Euclidean axis stands behind both conformal ones. -/
theorem wedge_infinity_of_two_le {axis : Nat} (h : 2 ≤ axis) (f : MvPolynomial String ℚ) :
    Clifford.wedge (Clifford.single {axis} f) infinityElement = -planes axis f := by
  have hlt0 : 0 < axis := by omega
  have hlt1 : 1 < axis := by omega
  have hminus : metric.pairSign axis 0 = .negative := if_pos hlt0
  have hplus : metric.pairSign axis 1 = .negative := if_pos hlt1
  unfold infinityElement planes
  rw [map_add, Clifford.wedge_axes, Clifford.wedge_axes, if_neg hlt0.ne', if_neg hlt1.ne',
    hminus, hplus, mul_one, Finset.pair_comm axis 0, Finset.pair_comm axis 1, neg_add]
  show (-1 : ℤ) • _ + (-1 : ℤ) • _ = _
  rw [neg_one_smul, neg_one_smul]

theorem wedge_infinity_minus (f : MvPolynomial String ℚ) :
    Clifford.wedge (Clifford.single {0} f) infinityElement = Clifford.single {0, 1} f := by
  have hsign : (metric.pairSign 0 1).toInt = 1 := by decide
  unfold infinityElement
  rw [map_add, Clifford.wedge_axes, Clifford.wedge_axes, if_pos rfl, if_neg (by decide), hsign,
    one_smul, mul_one, zero_add]

theorem wedge_infinity_plus (f : MvPolynomial String ℚ) :
    Clifford.wedge (Clifford.single {1} f) infinityElement = -Clifford.single {0, 1} f := by
  have hsign : (metric.pairSign 1 0).toInt = -1 := by decide
  unfold infinityElement
  rw [map_add, Clifford.wedge_axes, Clifford.wedge_axes, if_neg (by decide), if_pos rfl, hsign,
    neg_one_smul, mul_one, add_zero, Finset.pair_comm]

/-- **The weight of a point leaves no trace in its flat point.** -/
theorem wedge_infinity_round (x y z w : MvPolynomial String ℚ) :
    Clifford.wedge (round x y z w) infinityElement = flat x y z := by
  have hunit : (Clifford.single {0, 1} (half 1) : ConformalAlgebra)
      + Clifford.single {0, 1} (half 1) = Clifford.single {0, 1} 1 := by
    rw [← map_add, ← two_mul, two_mul_half]
  rw [round_eq]
  simp only [map_add, AddMonoidHom.add_apply, wedge_infinity_minus, wedge_infinity_plus,
    wedge_infinity_of_two_le (show 2 ≤ 2 by decide),
    wedge_infinity_of_two_le (show 2 ≤ 3 by decide),
    wedge_infinity_of_two_le (show 2 ≤ 4 by decide), map_neg, AddMonoidHom.neg_apply, neg_neg]
  rw [flat, ← hunit]
  abel

/-- The plane of the conformal axes has the coefficient 1. -/
theorem coord_flat (x y z : MvPolynomial String ℚ) :
    Clifford.coord {0, 1} (flat x y z) = 1 := by
  have hplanes : ∀ (axis : Nat) f, 2 ≤ axis → Clifford.coord {0, 1} (planes axis f) = 0 := by
    intro axis f haxis
    -- the Euclidean axis is missing
    have hne : ∀ i : Nat, ({i, axis} : Finset Nat) ≠ {0, 1} := by
      intro i h
      have hmem : axis ∈ ({0, 1} : Finset Nat) := h ▸ by simp
      simp only [Finset.mem_insert, Finset.mem_singleton] at hmem
      omega
    rw [planes, map_add, Clifford.coord_single, Clifford.coord_single, if_neg (hne 0),
      if_neg (hne 1), add_zero]
  rw [flat, map_sub, map_sub, map_sub, Clifford.coord_single, if_pos rfl, hplanes 2 x (by decide),
    hplanes 3 y (by decide), hplanes 4 z (by decide), sub_zero, sub_zero, sub_zero]

/-- **The flat point of a round** is exact and of grade 2. -/
theorem flatPoint_yields {x y z w : MvPolynomial String ℚ} {p : Multivector}
    (hp : Denotes (round x y z w) p) : Yields (flatPoint p)
      (fun f => Denotes (flat x y z) f ∧ f.Homogeneous 2 ∧ f.grade = .ok 2) := by
  have hinfinity : Denotes infinityElement infinity := infinity_denotes
  have hgrade : infinity.Homogeneous 1 := by decide
  apply (hp.wedge_yields hinfinity (homogeneous_round hp) hgrade).mono
  rintro f ⟨hf, hf2⟩
  rw [wedge_infinity_round] at hf
  refine ⟨hf, hf2, hf2.grade_eq fun h0 => ?_⟩
  -- a zero multivector would have no plane of the conformal axes
  have hflat : flat x y z = 0 := by
    rw [← hf.2, isZero_iff.mp h0]
    exact zero_denotes.2
  have hcoord := coord_flat x y z
  rw [hflat, map_zero] at hcoord
  exact zero_ne_one hcoord

/-! ## §3. The flat point as a sum of blades. -/

/-- A coordinate times the two blades of its axis with the conformal axes. -/
def labelledPlanes (symbol : String) (c : Polynomial) : Outcome Multivector := do
  let sum ← (← blade ("-" ++ symbol)).add (← blade ("+" ++ symbol))
  sum.scale c

/-- The blade `-+` less, for each Euclidean axis `e` with its coordinate `c`,
`c (blade "-e" + blade "+e")`. -/
def labelledFlat (x y z : Polynomial) : Outcome Multivector := do
  let f ← (← blade "-+").sub (← labelledPlanes "x" x)
  let f ← f.sub (← labelledPlanes "y" y)
  f.sub (← labelledPlanes "z" z)

theorem labelledPlanes_yields (axis : Nat) {symbol : String} {f : MvPolynomial String ℚ}
    {c : Polynomial} (hminus : blade ("-" ++ symbol) = .ok (unit [0, axis]))
    (hplus : blade ("+" ++ symbol) = .ok (unit [1, axis])) (haxis : 2 ≤ axis)
    (hlt : axis < metric.size) (hc : Polynomial.Denotes f c) :
    Yields (labelledPlanes symbol c) (Denotes (planes axis f)) := by
  have hunit : ∀ i < 2, Denotes (Clifford.single {i, axis} 1) (unit [i, axis]) := by
    intro i hi
    have hlt' : i < axis := Nat.lt_of_lt_of_le hi haxis
    have hblade : CanonicalBlade [i, axis] := by
      refine ⟨List.pairwise_pair.mpr hlt', ?_⟩
      intro j hj
      rcases List.mem_pair.mp hj with rfl | rfl
      · exact Nat.lt_trans hlt' hlt
      · exact hlt
    have h := unit_denotes hblade
    rwa [algebraTerm, List.toFinset_cons, List.toFinset_cons, List.toFinset_nil,
      insert_empty_eq] at h
  have hsum := (hunit 0 (by decide)).add (hunit 1 (by decide))
  have hplanes : planes axis f
      = f • (Clifford.single {0, axis} 1 + Clifford.single {1, axis} 1) := by
    rw [planes, smul_add, Clifford.smul_single, Clifford.smul_single, mul_one]
  unfold labelledPlanes
  rw [hminus, hplus, hplanes]
  exact hsum.bind fun _ h => h.scale hc

section Points

variable {x y z u v w : Polynomial} (hx : x.Canonical) (hy : y.Canonical) (hz : z.Canonical)
include hx hy hz

theorem labelledFlat_yields :
    Yields (labelledFlat x y z) (Denotes (flat x.value y.value z.value)) := by
  have hplane : blade "-+" = .ok (unit [0, 1]) := by decide
  have hblade : CanonicalBlade [0, 1] := by
    refine ⟨List.pairwise_pair.mpr (by decide), ?_⟩
    show ∀ i ∈ [0, 1], i < metric.size
    decide
  have hunit : Denotes (Clifford.single {0, 1} 1) (unit [0, 1]) :=
    unit_denotes hblade
  unfold labelledFlat
  rw [hplane]
  refine (labelledPlanes_yields 2 (by decide) (by decide) (by decide) (by decide)
    ⟨hx, rfl⟩).bind fun px hpx => (hunit.sub hpx).bind fun f hf => ?_
  refine (labelledPlanes_yields 3 (by decide) (by decide) (by decide) (by decide)
    ⟨hy, rfl⟩).bind fun py hpy => (hf.sub hpy).bind fun f hf => ?_
  exact (labelledPlanes_yields 4 (by decide) (by decide) (by decide) (by decide)
    ⟨hz, rfl⟩).bind fun pz hpz => hf.sub hpz

end Points

/-! ## §4. Incidence. -/

theorem gradePart_infinityElement : Clifford.gradePart 1 infinityElement = infinityElement := by
  unfold infinityElement
  rw [map_add, Clifford.gradePart_single, Clifford.gradePart_single,
    if_pos (Finset.card_singleton 0), if_pos (Finset.card_singleton 1)]

/-- The coordinates of infinity. -/
theorem coord_infinityElement (i : Nat) :
    Clifford.coord {i} infinityElement = if i < 2 then 1 else 0 := by
  unfold infinityElement
  rw [map_add, Clifford.coord_single, Clifford.coord_single]
  match i with
  | 0 => simp
  | 1 => simp
  | i + 2 => simp

theorem coord_round (x y z w : MvPolynomial String ℚ) {i : Nat} (hi : i < metric.size) :
    Clifford.coord {i} (round x y z w) = roundCoordinates x y z w i :=
  Clifford.coord_ofCoordinates hi _

/-- The coordinates at the two conformal axes and a Euclidean one. -/
noncomputable def coordinatesAt (axis : Nat) (x : ConformalAlgebra) :
    Fin 3 → MvPolynomial String ℚ :=
  ![Clifford.coord {0} x, Clifford.coord {1} x, Clifford.coord {axis} x]

theorem strictMono_axes {axis : Nat} (h : 2 ≤ axis) :
    StrictMono (![0, 1, axis] : Fin 3 → Nat) := by
  rw [Fin.strictMono_iff_lt_succ]
  intro i
  fin_cases i
  · show 0 < 1
    omega
  · show 1 < axis
    omega

/-- **An outer product of three vectors** has a determinant of their coordinates at the
axes of `e₋e₊e`. -/
theorem coord_outer_three {axis : Nat} (h : 2 ≤ axis) {a b c : ConformalAlgebra}
    (hvectors : ∀ x ∈ [a, b, c], Clifford.gradePart 1 x = x) :
    Clifford.coord (Finset.univ.image ![0, 1, axis]) (Clifford.outer [a, b, c])
      = Matrix.det (Matrix.of ![coordinatesAt axis a, coordinatesAt axis b,
        coordinatesAt axis c]) := by
  have hmatrix : (Matrix.of fun i j =>
      Clifford.coord {(![0, 1, axis] : Fin 3 → Nat) j} (id ([a, b, c].get i)))
        = Matrix.of ![coordinatesAt axis a, coordinatesAt axis b, coordinatesAt axis c] := by
    ext i j
    fin_cases i <;> fin_cases j <;> rfl
  have hid : ∀ x ∈ [a, b, c], Clifford.gradePart 1 (id x) = id x := hvectors
  have hminor := Clifford.coord_outer hid (strictMono_axes h)
  rw [List.map_id] at hminor
  exact hminor.trans (congrArg Matrix.det hmatrix)

section Planes

variable (u v t k x y z w : MvPolynomial String ℚ)

theorem coordinatesAt_round {axis : Nat} (hlt : axis < metric.size) :
    coordinatesAt axis (round x y z w)
      = ![half 1 + w, -half 1 + w, roundCoordinates x y z w axis] := by
  have hlt0 : 0 < metric.size := by decide
  have hlt1 : 1 < metric.size := by decide
  rw [coordinatesAt, coord_round x y z w hlt0, coord_round x y z w hlt1, coord_round x y z w hlt]
  rfl

theorem coordinatesAt_infinityElement {axis : Nat} (h : 2 ≤ axis) :
    coordinatesAt axis infinityElement = ![1, 1, 0] := by
  rw [coordinatesAt, coord_infinityElement, coord_infinityElement, coord_infinityElement,
    if_neg (Nat.not_lt.mpr h)]
  rfl

/-- A point against a flat point is an outer product of three vectors. -/
theorem wedge_flat_eq_outer : Clifford.wedge (round u v t k) (flat x y z)
    = Clifford.outer [round u v t k, round x y z w, infinityElement] := by
  rw [← wedge_infinity_round x y z w]
  show _ = Clifford.wedge _ (Clifford.wedge _ (Clifford.wedge infinityElement 1))
  rw [Clifford.wedge_one]

/-- **A point and a flat point have the difference of their coordinates between them**:
at the axes of `e₋e₊e` their outer product has what the one has along `e` and the other
has not. -/
theorem coord_wedge_flat {axis : Nat} (h : 2 ≤ axis) (hlt : axis < metric.size) :
    Clifford.coord (Finset.univ.image ![0, 1, axis]) (Clifford.wedge (round u v t k) (flat x y z))
      = roundCoordinates u v t k axis - roundCoordinates x y z w axis := by
  have hvectors : ∀ a ∈ [round u v t k, round x y z w, infinityElement],
      Clifford.gradePart 1 a = a := by
    simp only [List.forall_mem_cons]
    exact ⟨Clifford.gradePart_ofCoordinates _, Clifford.gradePart_ofCoordinates _,
      gradePart_infinityElement, List.forall_mem_nil _⟩
  -- the rows agree up to the weights, which the row of infinity takes away
  have hdet : ∀ p q : MvPolynomial String ℚ, Matrix.det (Matrix.of
      ![![half 1 + k, -half 1 + k, p], ![half 1 + w, -half 1 + w, q], ![1, 1, 0]]) = p - q := by
    intro p q
    rw [Matrix.det_fin_three]
    show (half 1 + k) * (-half 1 + w) * 0 - (half 1 + k) * q * 1 - (-half 1 + k) * (half 1 + w) * 0
      + (-half 1 + k) * q * 1 + p * (half 1 + w) * 1 - p * (-half 1 + w) * 1 = _
    linear_combination (p - q) * two_mul_half 1
  rw [wedge_flat_eq_outer u v t k x y z w, coord_outer_three h hvectors,
    coordinatesAt_round u v t k hlt, coordinatesAt_round x y z w hlt,
    coordinatesAt_infinityElement h, hdet]

end Planes

/-- **A point lies on the flat points of no other point.** -/
theorem wedge_flat_eq_zero_iff (u v t x y z : MvPolynomial String ℚ) :
    Clifford.wedge (round u v t (half (u * u + v * v + t * t))) (flat x y z) = 0
      ↔ u = x ∧ v = y ∧ t = z := by
  constructor
  · intro hzero
    have hcoord : ∀ axis : Nat, 2 ≤ axis → axis < metric.size →
        roundCoordinates u v t (half (u * u + v * v + t * t)) axis
          = roundCoordinates x y z 0 axis := by
      intro axis h hlt
      have hdiff := coord_wedge_flat u v t (half (u * u + v * v + t * t)) x y z 0 h hlt
      rw [hzero, map_zero] at hdiff
      exact sub_eq_zero.mp hdiff.symm
    exact ⟨hcoord 2 (by decide) (by decide), hcoord 3 (by decide) (by decide),
      hcoord 4 (by decide) (by decide)⟩
  · rintro ⟨rfl, rfl, rfl⟩
    -- the point is a factor of its flat point
    rw [← wedge_infinity_round u v t (half (u * u + v * v + t * t)), ← Clifford.wedge_assoc,
      round, Clifford.wedge_self (Clifford.gradePart_ofCoordinates _), map_zero,
      AddMonoidHom.zero_apply]

section Incidence

variable {x y z u v w : Polynomial} (hx : x.Canonical) (hy : y.Canonical) (hz : z.Canonical)
include hx hy hz

/-- **FLAT POINTS DECIDE INCIDENCE**: unless a coefficient overflows, the flat point of
any coordinates has grade 2 and is the blade `-+` less, for each Euclidean axis `e` with
its coordinate `c`, `c (blade "-e" + blade "+e")`; and the outer product of a point and
a flat point is zero exactly if they have the same coordinates. -/
theorem flat_points_decide_incidence (hu : u.Canonical) (hv : v.Canonical) (hw : w.Canonical) :
    Yields (do flatPoint (← pointAt x y z)) (fun f => f.grade = .ok 2)
      ∧ Agree (do flatPoint (← pointAt x y z)) (labelledFlat x y z)
      ∧ Yields (do (← pointAt u v w).wedge (← flatPoint (← pointAt x y z)))
        (fun t => t = zero ↔ u = x ∧ v = y ∧ w = z) := by
  have hpoint := pointAt_yields ⟨hu, rfl⟩ ⟨hv, rfl⟩ ⟨hw, rfl⟩
  have hother := pointAt_yields ⟨hx, rfl⟩ ⟨hy, rfl⟩ ⟨hz, rfl⟩
  have hflat := hother.bind fun _ hq => flatPoint_yields hq
  refine ⟨hflat.mono fun _ h => h.2.2, ?_, ?_⟩
  · exact agree_of_denotes (hflat.mono fun _ h => h.1) (labelledFlat_yields hx hy hz)
  · refine hpoint.bind fun p hp => hother.bind fun q hq => ?_
    refine (flatPoint_yields hq).bind fun f ⟨hf, hf2, _⟩ => ?_
    apply (hp.wedge_yields hf (homogeneous_round hp) hf2).mono
    rintro t ⟨ht, -⟩
    rw [ht.eq_iff zero_denotes, wedge_flat_eq_zero_iff]
    -- canonical polynomials with the same value are the same
    have heq : ∀ {p q : Polynomial}, p.Canonical → q.Canonical → (p.value = q.value ↔ p = q) :=
      fun hp hq => ⟨Polynomial.value_injective hp hq, congrArg Polynomial.value⟩
    rw [heq hu hx, heq hv hy, heq hw hz]

end Incidence

/-- The flat point of `(a, b, 0)`: the point itself lies on it, and `(a, 1, 0)` does not. -/
theorem flat_points_decide_incidence_plane :
    ((Polynomial.var "a").Canonical ∧ (Polynomial.var "b").Canonical
        ∧ Polynomial.one.Canonical ∧ Polynomial.zero.Canonical)
      ∧ (∃ f, (do flatPoint (← pointAt (.var "a") (.var "b") .zero)) = .ok f
        ∧ f.grade = .ok 2 ∧ Agree (.ok f) (labelledFlat (.var "a") (.var "b") .zero))
      ∧ (∃ t, (do
          (← pointAt (.var "a") (.var "b") .zero).wedge
            (← flatPoint (← pointAt (.var "a") (.var "b") .zero))) = .ok t ∧ t = zero)
      ∧ ∃ t, (do
          (← pointAt (.var "a") .one .zero).wedge
            (← flatPoint (← pointAt (.var "a") (.var "b") .zero))) = .ok t ∧ t ≠ zero := by
  have ha : (Polynomial.var "a").Canonical := by decide
  have hb : (Polynomial.var "b").Canonical := by decide
  have hone : Polynomial.one.Canonical := by decide
  have hzero : Polynomial.zero.Canonical := by decide
  obtain ⟨hgrade, hagree, hself⟩ := flat_points_decide_incidence ha hb hzero ha hb hzero
  obtain ⟨-, -, hother⟩ := flat_points_decide_incidence ha hb hzero ha hone hzero
  have hflat : (do flatPoint (← pointAt (.var "a") (.var "b") .zero))
      = .ok ⟨[([0, 1], .one), ([0, 2], ⟨[(⟨["a"]⟩, ⟨-1, 1⟩)]⟩), ([0, 3], ⟨[(⟨["b"]⟩, ⟨-1, 1⟩)]⟩),
          ([1, 2], ⟨[(⟨["a"]⟩, ⟨-1, 1⟩)]⟩), ([1, 3], ⟨[(⟨["b"]⟩, ⟨-1, 1⟩)]⟩)]⟩ := by decide
  have hon : (do
      (← pointAt (.var "a") (.var "b") .zero).wedge
        (← flatPoint (← pointAt (.var "a") (.var "b") .zero))) = .ok zero := by decide
  -- the point has 1 and not `b` along the axis of the first blade
  have hoff : (do
      (← pointAt (.var "a") .one .zero).wedge
        (← flatPoint (← pointAt (.var "a") (.var "b") .zero)))
      = .ok ⟨[([0, 1, 3], ⟨[(⟨[]⟩, ⟨1, 1⟩), (⟨["b"]⟩, ⟨-1, 1⟩)]⟩),
          ([0, 2, 3], ⟨[(⟨["a"]⟩, ⟨-1, 1⟩), (⟨["a", "b"]⟩, ⟨1, 1⟩)]⟩),
          ([1, 2, 3], ⟨[(⟨["a"]⟩, ⟨-1, 1⟩), (⟨["a", "b"]⟩, ⟨1, 1⟩)]⟩)]⟩ := by decide
  have hne : ¬ (Polynomial.var "a" = .var "a" ∧ Polynomial.one = .var "b"
      ∧ Polynomial.zero = .zero) := by decide
  rw [hflat] at hagree
  exact ⟨⟨ha, hb, hone, hzero⟩, ⟨_, hflat, hgrade.ensures _ hflat, hagree⟩,
    ⟨_, hon, (hself.ensures _ hon).mpr ⟨rfl, rfl, rfl⟩⟩,
    ⟨_, hoff, mt (hother.ensures _ hoff).mp hne⟩⟩

end Conformal

end GeometricAlgebra
