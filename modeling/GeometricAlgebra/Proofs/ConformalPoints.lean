/-
  GeometricAlgebra.Proofs.ConformalPoints
  ────────────────────────────────
  **CONFORMAL SPACE MEASURES EUCLIDEAN DISTANCES.**

  Points and spheres are vectors `o + p + w ∞`, which differ only in the weight
  `w` of infinity: it is `|p|²/2` for the point `p` and `(|c|² − r²)/2` for the
  sphere of radius `r` about `c`.  The contraction of two such vectors is
  `p · p' − w − w'`, because `∞` and `o` are null and contract to `−1`; the
  weights complete the squares, and what is left is half the squared radius less
  half the squared distance.

  The square of a vector has no part besides its contraction with itself, so
  points square to the zero multivector and not only to one without scalar part.

  Main result:
    * `Conformal.contract_measures_distance` — points are null, and a point
      contracted into a sphere or a point is the scalar above.
-/
import GeometricAlgebra.Proofs.GradedLaws

namespace GeometricAlgebra

open Outcome

/-! ## §1. Vectors of a Clifford algebra. -/

namespace Clifford

variable {metric : Metric} {R : Type} [CommRing R]

/-- The vector with these coordinates. -/
noncomputable def ofCoordinates (a : Axis → R) : Clifford metric R :=
  ∑ i ∈ Finset.range metric.size, single {i} (a i)

/-- The bilinear form of a metric. -/
def form (metric : Metric) (a b : Axis → R) : R :=
  ∑ i ∈ Finset.range metric.size, (metric.square i).toInt • (a i * b i)

theorem gradePart_ofCoordinates (a : Axis → R) :
    gradePart 1 (ofCoordinates a : Clifford metric R) = ofCoordinates a := by
  unfold ofCoordinates
  rw [map_sum]
  apply Finset.sum_congr rfl
  intro i _
  rw [gradePart_single, if_pos (Finset.card_singleton i)]

theorem contract_axes (i j : Axis) (a b : R) :
    contract (single {i} a : Clifford metric R) (single {j} b)
      = if i = j then (metric.square i).toInt • single ∅ (a * b) else 0 := by
  unfold contract
  rw [mulWhere_single]
  simp only [Finset.singleton_subset_singleton]
  by_cases h : i = j
  · subst h
    rw [if_pos rfl, if_pos rfl, single_mul_single, metric.twist_singleton, metric.pairSign_self,
      symmDiff_self, Finset.bot_eq_empty]
  · rw [if_neg h, if_neg h]

/-- **Vectors contract to their product in the bilinear form.** -/
theorem contract_ofCoordinates (a b : Axis → R) :
    contract (ofCoordinates a : Clifford metric R) (ofCoordinates b)
      = single ∅ (form metric a b) := by
  have hrow : ∀ i ∈ Finset.range metric.size,
      contract (single {i} (a i) : Clifford metric R) (ofCoordinates b)
        = (metric.square i).toInt • single ∅ (a i * b i) := by
    -- of the other vector only the same axis counts
    intro i hi
    unfold ofCoordinates
    rw [map_sum, Finset.sum_eq_single_of_mem i hi, contract_axes, if_pos rfl]
    intro j _ hj
    rw [contract_axes, if_neg (Ne.symm hj)]
  unfold form
  rw [ofCoordinates, map_sum, AddMonoidHom.finsetSum_apply, map_sum, Finset.sum_congr rfl hrow]
  simp only [map_zsmul]

/-- **The square of a vector is a scalar.** -/
theorem mul_self_ofCoordinates (a : Axis → R) :
    (ofCoordinates a * ofCoordinates a : Clifford metric R) = single ∅ (form metric a a) := by
  have hvector : gradePart 1 (ofCoordinates a : Clifford metric R) = ofCoordinates a :=
    gradePart_ofCoordinates a
  rw [mul_eq_contract_add_wedge hvector, wedge_self hvector, add_zero,
    contract_ofCoordinates]

end Clifford

/-! ## §2. Scalars and vectors among the multivectors. -/

namespace Multivector

theorem Denotes.scalarPart {x : ConformalAlgebra} {a : Multivector} (ha : Denotes x a) :
    Polynomial.Denotes (Clifford.coord ∅ x) a.scalarPart := by
  obtain ⟨ha, rfl⟩ := ha
  exact ⟨ha.coefficientOf [], (ha.coord_value canonicalBlade_nil).symm⟩

/-- The multivector is a polynomial without other grades, and stands for `f`. -/
def IsScalar (f : MvPolynomial String ℚ) (a : Multivector) : Prop :=
  ∃ p, Polynomial.Denotes f p ∧ a = scalar p

/-- **A scalar element is stored as its scalar part** and nothing else. -/
theorem isScalar_of_denotes {f : MvPolynomial String ℚ} {a : Multivector}
    (ha : Denotes (Clifford.single ∅ f) a) : IsScalar f a := by
  have hpart := ha.scalarPart
  rw [Clifford.coord_single, if_pos rfl] at hpart
  have hscalar := scalar_denotes hpart
  rw [← Clifford.single_empty] at hscalar
  exact ⟨a.scalarPart, hpart, (ha.eq_iff hscalar).mpr rfl⟩

theorem Denotes.sub {x y : ConformalAlgebra} {a b : Multivector} (ha : Denotes x a)
    (hb : Denotes y b) : Yields (a.sub b) (Denotes (x - y)) := by
  apply (hb.scaleInt (-1)).bind
  intro c hc
  rw [neg_one_smul] at hc
  rw [sub_eq_add_neg]
  exact ha.add hc

theorem vector_yields {axis : Axis} {f : MvPolynomial String ℚ} {p : Polynomial}
    (haxis : axis < metric.size) (hp : Polynomial.Denotes f p) :
    Yields (vector axis p) (Denotes (Clifford.single {axis} f)) := by
  have hword : metric.InAlphabet [axis] := by simpa [Metric.InAlphabet] using haxis
  unfold vector
  rw [Metric.canonicalize_of_lt hword]
  apply (signedTerm_yields hword hp).bind
  rintro t ⟨ht, hvalue⟩
  have hreading : SortedTerms.reading algebraTerm [t] = Clifford.single {axis} f := by
    show algebraTerm t.1 t.2.value + 0 = _
    rw [hvalue, List.map_singleton, List.prod_singleton, Clifford.axis, ← Clifford.single_eq_smul,
      add_zero]
  rw [← hreading]
  exact ofBlades_denotes (by simpa using ht)

end Multivector

/-! ## §3. Points and spheres. -/

namespace Conformal

open Multivector

/-- Half a polynomial. -/
noncomputable def half (f : MvPolynomial String ℚ) : MvPolynomial String ℚ :=
  MvPolynomial.C (1 / 2) * f

/-- The coordinates of `o + p + w ∞`, where `p` has the coordinates `x`, `y` and `z`. -/
noncomputable def roundCoordinates (x y z w : MvPolynomial String ℚ) :
    Axis → MvPolynomial String ℚ
  | 0 => half 1 + w
  | 1 => -half 1 + w
  | 2 => x
  | 3 => y
  | 4 => z
  | _ => 0

/-- The vector `o + p + w ∞`. -/
noncomputable def round (x y z w : MvPolynomial String ℚ) : ConformalAlgebra :=
  Clifford.ofCoordinates (roundCoordinates x y z w)

/-- Points and spheres are vectors. -/
theorem homogeneous_round {x y z w : MvPolynomial String ℚ} {a : Multivector}
    (ha : Denotes (round x y z w) a) : a.Homogeneous 1 :=
  (homogeneous_iff ha).mpr (Clifford.gradePart_ofCoordinates _)

theorem two_mul_half (f : MvPolynomial String ℚ) : 2 * half f = f := by
  have hC : (2 : MvPolynomial String ℚ) = MvPolynomial.C 2 := (map_ofNat MvPolynomial.C 2).symm
  rw [half, hC, ← mul_assoc, ← MvPolynomial.C_mul]
  norm_num

theorem sum_axes {M : Type} [AddCommMonoid M] (f : Axis → M) :
    ∑ i ∈ Finset.range metric.size, f i = f 0 + f 1 + f 2 + f 3 + f 4 := by
  have hsize : metric.size = 5 := rfl
  rw [hsize]
  simp only [Finset.sum_range_succ, Finset.sum_range_zero, zero_add]

/-- A round, put together from the origin, a Euclidean vector and infinity. -/
theorem round_eq (x y z w : MvPolynomial String ℚ) : round x y z w
    = Clifford.single {0} (half 1) + Clifford.single {1} (-half 1) + Clifford.single {2} x
      + Clifford.single {3} y + Clifford.single {4} z
      + (Clifford.single {0} w + Clifford.single {1} w) := by
  unfold round Clifford.ofCoordinates
  rw [sum_axes]
  show Clifford.single {0} (half 1 + w) + Clifford.single {1} (-half 1 + w)
    + Clifford.single {2} x + Clifford.single {3} y + Clifford.single {4} z = _
  rw [map_add, map_add]
  ac_rfl

/-- The product of two vectors in the bilinear form of conformal space. -/
theorem form_round (x y z w u v t k : MvPolynomial String ℚ) :
    Clifford.form metric (roundCoordinates x y z w) (roundCoordinates u v t k)
      = x * u + y * v + z * t - w - k := by
  have hone := two_mul_half 1
  unfold Clifford.form
  rw [sum_axes]
  show (-1 : ℤ) • ((half 1 + w) * (half 1 + k)) + (1 : ℤ) • ((-half 1 + w) * (-half 1 + k))
    + (1 : ℤ) • (x * u) + (1 : ℤ) • (y * v) + (1 : ℤ) • (z * t) = _
  simp only [one_smul, neg_smul]
  linear_combination -(w + k) * hone

theorem infinity_denotes : Denotes (Clifford.single {0} 1 + Clifford.single {1} 1) infinity := by
  refine ⟨by decide, ?_⟩
  show Clifford.single {0} Polynomial.one.value + (Clifford.single {1} Polynomial.one.value + 0) = _
  rw [Polynomial.one_denotes.2, add_zero]

theorem half_denotes : Fraction.Denotes (1 / 2) Fraction.half :=
  ⟨Fraction.normal_half, by norm_num [Fraction.value, Fraction.half]⟩

theorem origin_denotes :
    Denotes (Clifford.single {0} (half 1) + Clifford.single {1} (-half 1)) origin := by
  have hminus : Fraction.Denotes (-(1 / 2)) ⟨-1, 2⟩ :=
    ⟨by decide, by norm_num [Fraction.value]⟩
  refine ⟨by decide, ?_⟩
  show Clifford.single {0} (Polynomial.constant Fraction.half).value
    + (Clifford.single {1} (Polynomial.constant ⟨-1, 2⟩).value + 0) = _
  rw [(Polynomial.constant_denotes half_denotes).2, (Polynomial.constant_denotes hminus).2, half,
    mul_one, map_neg, add_zero]

/-- Taking half is exact. -/
theorem half_yields {f : MvPolynomial String ℚ} {p : Polynomial} (hp : Polynomial.Denotes f p) :
    Yields (p.scale Fraction.half) (Polynomial.Denotes (half f)) := by
  have h := hp.scale half_denotes
  rwa [mul_comm] at h

theorem halfInfinity_yields {f : MvPolynomial String ℚ} {p : Polynomial}
    (hp : Polynomial.Denotes f p) : Yields (halfInfinity p)
      (Denotes (Clifford.single {0} (half f) + Clifford.single {1} (half f))) := by
  apply (half_yields hp).bind
  intro q hq
  have h := infinity_denotes.scale hq
  rwa [smul_add, Clifford.smul_single, Clifford.smul_single, mul_one] at h

section Rounds

variable {f g h : MvPolynomial String ℚ} {x y z : Polynomial} (hx : Polynomial.Denotes f x)
  (hy : Polynomial.Denotes g y) (hz : Polynomial.Denotes h z)
include hx hy hz

theorem squaredLength_yields : Yields (squaredLength x y z)
    (Polynomial.Denotes (f * f + g * g + h * h)) :=
  (hx.mul hx).bind fun _ hxx => (hy.mul hy).bind fun _ hyy => (hz.mul hz).bind fun _ hzz =>
    (hxx.add hyy).bind fun _ hs => hs.add hzz

/-- **The point with coordinates** has half its squared length as its weight. -/
theorem pointAt_yields :
    Yields (pointAt x y z) (Denotes (round f g h (half (f * f + g * g + h * h)))) := by
  refine (squaredLength_yields hx hy hz).bind fun length hlength => ?_
  refine (vector_yields (by decide) hx).bind fun ex hex => ?_
  refine (vector_yields (by decide) hy).bind fun ey hey => ?_
  refine (vector_yields (by decide) hz).bind fun ez hez => ?_
  refine (halfInfinity_yields hlength).bind fun weight hweight => ?_
  rw [round_eq]
  exact (origin_denotes.add hex).bind fun _ hp => (hp.add hey).bind fun _ hp =>
    (hp.add hez).bind fun _ hp => hp.add hweight

end Rounds

/-- **A sphere** takes half the squared radius from the weight of its center. -/
theorem sphereAt_yields {x y z w f : MvPolynomial String ℚ} {center : Multivector}
    {radius : Polynomial} (hc : Denotes (round x y z w) center)
    (hr : Polynomial.Denotes f radius) :
    Yields (sphereAt center radius) (Denotes (round x y z (w - half (f * f)))) := by
  refine (hr.mul hr).bind fun square hsquare => ?_
  refine (halfInfinity_yields hsquare).bind fun weight hweight => ?_
  have hsphere := hc.sub hweight
  rwa [round_eq, add_sub_assoc, add_sub_add_comm, ← map_sub, ← map_sub, ← round_eq] at hsphere

/-- The sphere of radius zero is its center. -/
theorem sphereAt_zero (center : Multivector) : sphereAt center .zero = .ok center := by
  have hsquare : Polynomial.zero.mul .zero = .ok .zero := by decide
  have hweight : halfInfinity .zero = .ok .zero := by decide
  have hopposite : Multivector.zero.neg = .ok .zero := by decide
  unfold sphereAt
  rw [hsquare]
  show (do let weight ← halfInfinity .zero; center.sub weight) = _
  rw [hweight]
  show center.sub .zero = _
  unfold Multivector.sub
  rw [hopposite]
  rfl

/-! ## §4. Distances. -/

/-- **Two rounds contract to a scalar**: the product of the Euclidean parts less
both weights. -/
theorem leftContract_round {x y z w u v t k : MvPolynomial String ℚ} {a b : Multivector}
    (ha : Denotes (round x y z w) a) (hb : Denotes (round u v t k) b) :
    Yields (a.leftContract b) (Denotes (Clifford.single ∅ (x * u + y * v + z * t - w - k))) := by
  have h := (ha.leftContract_yields hb (homogeneous_round ha) (homogeneous_round hb)).mono
    fun _ h => h.1
  rwa [round, round, Clifford.contract_ofCoordinates, form_round] at h

/-- **A point is null.** -/
theorem mul_self_round {x y z : MvPolynomial String ℚ} {a : Multivector}
    (ha : Denotes (round x y z (half (x * x + y * y + z * z))) a) :
    Yields (a.mul a) (· = zero) := by
  have hform : x * x + y * y + z * z - half (x * x + y * y + z * z)
      - half (x * x + y * y + z * z) = 0 := by
    linear_combination -two_mul_half (x * x + y * y + z * z)
  have h := ha.mul ha
  rw [round, Clifford.mul_self_ofCoordinates, form_round, hform, map_zero] at h
  apply h.mono
  intro c hc
  exact (hc.eq_iff zero_denotes).mpr rfl

/-- Half the squared radius of the sphere about `(u, v, w)` less half the squared
distance of `(x, y, z)` from its center. -/
def halfPower (x y z u v w radius : Polynomial) : Outcome Polynomial := do
  let distance ← squaredLength (← x.sub u) (← y.sub v) (← z.sub w)
  let square ← radius.mul radius
  (← square.sub distance).scale Fraction.half

section Distance

variable {x y z u v w r : Polynomial} (hx : x.Canonical) (hy : y.Canonical) (hz : z.Canonical)
  (hu : u.Canonical) (hv : v.Canonical) (hw : w.Canonical) (hr : r.Canonical)
include hx hy hz hu hv hw hr

theorem halfPower_yields : Yields (halfPower x y z u v w r) (Polynomial.Denotes
    (half (r.value ^ 2 - (x.value - u.value) ^ 2 - (y.value - v.value) ^ 2
      - (z.value - w.value) ^ 2))) := by
  have hpower : r.value * r.value - ((x.value - u.value) * (x.value - u.value)
      + (y.value - v.value) * (y.value - v.value) + (z.value - w.value) * (z.value - w.value))
      = r.value ^ 2 - (x.value - u.value) ^ 2 - (y.value - v.value) ^ 2
        - (z.value - w.value) ^ 2 := by ring
  rw [← hpower]
  refine (Polynomial.Denotes.sub ⟨hx, rfl⟩ ⟨hu, rfl⟩).bind fun dx hdx => ?_
  refine (Polynomial.Denotes.sub ⟨hy, rfl⟩ ⟨hv, rfl⟩).bind fun dy hdy => ?_
  refine (Polynomial.Denotes.sub ⟨hz, rfl⟩ ⟨hw, rfl⟩).bind fun dz hdz => ?_
  refine (squaredLength_yields hdx hdy hdz).bind fun distance hdistance => ?_
  refine (Polynomial.Denotes.mul ⟨hr, rfl⟩ ⟨hr, rfl⟩).bind fun square hsquare => ?_
  exact (hsquare.sub hdistance).bind fun _ h => half_yields h

/-- The contraction of a point into a sphere: the weights complete the squares. -/
theorem leftContract_sphere_yields :
    Yields (do (← pointAt x y z).leftContract (← sphereAt (← pointAt u v w) r))
      (Denotes (Clifford.single ∅ (half (r.value ^ 2 - (x.value - u.value) ^ 2
        - (y.value - v.value) ^ 2 - (z.value - w.value) ^ 2)))) := by
  have hpoint := pointAt_yields ⟨hx, rfl⟩ ⟨hy, rfl⟩ ⟨hz, rfl⟩
  have hcenter := pointAt_yields ⟨hu, rfl⟩ ⟨hv, rfl⟩ ⟨hw, rfl⟩
  refine hpoint.bind fun p hp => hcenter.bind fun c hc => ?_
  refine (sphereAt_yields hc ⟨hr, rfl⟩).bind fun s hs => ?_
  have h := leftContract_round hp hs
  have hsquares : x.value * u.value + y.value * v.value + z.value * w.value
      - half (x.value * x.value + y.value * y.value + z.value * z.value)
      - (half (u.value * u.value + v.value * v.value + w.value * w.value)
        - half (r.value * r.value))
      = half (r.value ^ 2 - (x.value - u.value) ^ 2 - (y.value - v.value) ^ 2
        - (z.value - w.value) ^ 2) := by
    have hproduct := two_mul_half (x.value * u.value + y.value * v.value + z.value * w.value)
    unfold half at hproduct ⊢
    linear_combination -hproduct
  rwa [hsquares] at h

/-- **THE CONFORMAL EMBEDDING ENCODES EUCLIDEAN DISTANCE**: unless a coefficient
overflows, the square of the point `(x, y, z)` is the zero multivector; the point
contracted into the sphere of radius `r` about `(u, v, w)` is the scalar
`(r² − (x − u)² − (y − v)² − (z − w)²)/2`, the multivector of the polynomial that the
library computes for this expression; and for the radius 0 the sphere is its center,
so that the contraction of two points is minus half their squared distance. -/
theorem contract_measures_distance :
    Yields (do let p ← pointAt x y z; p.mul p) (· = zero)
      ∧ Yields (do (← pointAt x y z).leftContract (← sphereAt (← pointAt u v w) r))
          (IsScalar (half (r.value ^ 2 - (x.value - u.value) ^ 2 - (y.value - v.value) ^ 2
            - (z.value - w.value) ^ 2)))
      ∧ Agree (do (← pointAt x y z).leftContract (← sphereAt (← pointAt u v w) r))
          (do return scalar (← halfPower x y z u v w r))
      ∧ Yields (do (← pointAt x y z).leftContract (← pointAt u v w))
          (IsScalar (-half ((x.value - u.value) ^ 2 + (y.value - v.value) ^ 2
            + (z.value - w.value) ^ 2)))
      ∧ ∀ center, sphereAt center .zero = .ok center := by
  have hsphere := leftContract_sphere_yields hx hy hz hu hv hw hr
  refine ⟨?_, ?_, ?_, ?_, sphereAt_zero⟩
  · exact (pointAt_yields ⟨hx, rfl⟩ ⟨hy, rfl⟩ ⟨hz, rfl⟩).bind fun _ hp => mul_self_round hp
  · exact hsphere.mono fun _ h => isScalar_of_denotes h
  · rw [Clifford.single_empty] at hsphere
    exact agree_of_denotes hsphere ((halfPower_yields hx hy hz hu hv hw hr).bind fun _ h =>
      yields_pure (scalar_denotes h))
  · -- the sphere of radius zero
    have hzero := leftContract_sphere_yields hx hy hz hu hv hw Polynomial.zero_denotes.1
    have hvalue : half (Polynomial.zero.value ^ 2 - (x.value - u.value) ^ 2
        - (y.value - v.value) ^ 2 - (z.value - w.value) ^ 2)
        = -half ((x.value - u.value) ^ 2 + (y.value - v.value) ^ 2 + (z.value - w.value) ^ 2) := by
      rw [Polynomial.zero_denotes.2]
      unfold half
      ring
    simp only [sphereAt_zero] at hzero
    rw [hvalue] at hzero
    exact hzero.mono fun _ h => isScalar_of_denotes h

end Distance

/-- The point `(a, b, 0)` and the sphere of radius `r` about `(1, 0, c)`: the scalar is
`(r² − (a − 1)² − b² − c²)/2`. -/
theorem contract_measures_distance_symbolic :
    ((Polynomial.var "a").Canonical ∧ (Polynomial.var "b").Canonical ∧ Polynomial.zero.Canonical
        ∧ Polynomial.one.Canonical ∧ (Polynomial.var "c").Canonical
        ∧ (Polynomial.var "r").Canonical)
      ∧ Yields (do let p ← pointAt (.var "a") (.var "b") .zero; p.mul p) (· = zero)
      ∧ (∃ a, (do
            (← pointAt (.var "a") (.var "b") .zero).leftContract
              (← sphereAt (← pointAt .one .zero (.var "c")) (.var "r"))) = .ok a
          ∧ a = scalar ⟨[(⟨[]⟩, ⟨-1, 2⟩), (⟨["a"]⟩, ⟨1, 1⟩), (⟨["a", "a"]⟩, ⟨-1, 2⟩),
            (⟨["b", "b"]⟩, ⟨-1, 2⟩), (⟨["c", "c"]⟩, ⟨-1, 2⟩), (⟨["r", "r"]⟩, ⟨1, 2⟩)]⟩
          ∧ IsScalar (half ((Polynomial.var "r").value ^ 2
              - ((Polynomial.var "a").value - Polynomial.one.value) ^ 2
              - ((Polynomial.var "b").value - Polynomial.zero.value) ^ 2
              - (Polynomial.zero.value - (Polynomial.var "c").value) ^ 2)) a)
      ∧ Agree
          (do
            (← pointAt (.var "a") (.var "b") .zero).leftContract
              (← sphereAt (← pointAt .one .zero (.var "c")) (.var "r")))
          (do
            return scalar
              (← halfPower (.var "a") (.var "b") .zero .one .zero (.var "c") (.var "r"))) := by
  have ha : (Polynomial.var "a").Canonical := by decide
  have hb : (Polynomial.var "b").Canonical := by decide
  have hzero : Polynomial.zero.Canonical := by decide
  have hone : Polynomial.one.Canonical := by decide
  have hc : (Polynomial.var "c").Canonical := by decide
  have hr : (Polynomial.var "r").Canonical := by decide
  obtain ⟨hnull, hscalar, hpower, -, -⟩ := contract_measures_distance ha hb hzero hone hzero hc hr
  have hcontract : (do
      (← pointAt (.var "a") (.var "b") .zero).leftContract
        (← sphereAt (← pointAt .one .zero (.var "c")) (.var "r")))
      = .ok (scalar ⟨[(⟨[]⟩, ⟨-1, 2⟩), (⟨["a"]⟩, ⟨1, 1⟩), (⟨["a", "a"]⟩, ⟨-1, 2⟩),
          (⟨["b", "b"]⟩, ⟨-1, 2⟩), (⟨["c", "c"]⟩, ⟨-1, 2⟩), (⟨["r", "r"]⟩, ⟨1, 2⟩)]⟩) := by decide
  exact ⟨⟨ha, hb, hzero, hone, hc, hr⟩, hnull, ⟨_, hcontract, rfl, hscalar.ensures _ hcontract⟩,
    hpower⟩

end Conformal

end GeometricAlgebra
