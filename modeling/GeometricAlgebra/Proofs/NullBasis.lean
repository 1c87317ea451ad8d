/-
  GeometricAlgebra.Proofs.NullBasis
  ────────────────────────────────
  **LATEX DISPLAYS AN EXACT CHANGE OF BASIS.**

  LaTeX names blades by a part of the null basis (nothing, `o`, `∞` or `E`) in
  front of a Euclidean blade `a`.  The four coefficients of `a` are those of the
  four blades with the Euclidean part `a`, up to the change of basis

      (c₋ − c₊) (o a) + ½ (c₋ + c₊) (∞ a)  =  c₋ (e₋ a) + c₊ (e₊ a),

  and every blade has exactly one Euclidean part.  So the displayed sum, taken
  with the origin and the infinity of conformal space, is the multivector.

  Main result:
    * `Multivector.null_basis_exact` — the displayed sum is the multivector, and
      the text lists exactly the parts that occur in it, in order.
-/
import GeometricAlgebra.Proofs.BasisBlades
import GeometricAlgebra.Proofs.ConformalPoints
import GeometricAlgebra.Proofs.TextListing

namespace GeometricAlgebra

open Outcome

namespace Clifford

variable {metric : Metric} {R : Type} [CommRing R]

/-- **An increasing word is the outer product of its two halves.** -/
theorem wedge_append {K L : Blade} (h : (K ++ L).Pairwise (· < ·)) (r : R) :
    wedge (single K.toFinset r : Clifford metric R) (single L.toFinset 1)
      = single (K ++ L).toFinset r := by
  obtain ⟨hK, hL, hKL⟩ := List.pairwise_append.mp h
  have hdisj : Disjoint K.toFinset L.toFinset := by
    rw [Finset.disjoint_left]
    intro i hi hi'
    exact lt_irrefl i (hKL i (List.mem_toFinset.mp hi) i (List.mem_toFinset.mp hi'))
  have hone : (single K.toFinset 1 * single L.toFinset 1 : Clifford metric R)
      = single (K ++ L).toFinset 1 := by
    rw [← prod_axes hK, ← prod_axes hL, ← prod_axes h, List.map_append, List.prod_append]
  unfold wedge
  rw [mulWhere_single, if_pos hdisj, single_eq_smul K.toFinset r, smul_mul, hone,
    ← single_eq_smul]

end Clifford

namespace Multivector

open SortedTerms GeometricAlgebra.Conformal

/-! ## §1. Blades by their Euclidean part. -/

theorem CanonicalBlade.mem_powerset {K : Blade} (h : CanonicalBlade K) :
    K ∈ Subsets.powerset metric.pseudoscalar :=
  Metric.mem_powerset.mpr ⟨K.length, h.1, h.2, rfl⟩

/-- A multivector is the sum of its blades with their coefficients. -/
theorem Canonical.value_eq_sum {a : Multivector} (ha : a.Canonical) :
    a.value = ((Subsets.powerset metric.pseudoscalar).map fun K =>
      algebraTerm K (a.coefficientOf K).value).sum := by
  -- only blades of the algebra occur, so the sum may go over all of them
  have hblades : ∀ t ∈ a.terms, t.1 ∈ (Subsets.powerset metric.pseudoscalar).toFinset :=
    fun t ht => List.mem_toFinset.mpr (ha.term ht).1.mem_powerset
  have hnodup : (Subsets.powerset metric.pseudoscalar).Nodup := by decide
  rw [ha.value_eq_sum_over hblades, List.sum_toFinset _ hnodup]

/-- The four blades with a given Euclidean part. -/
def withConformal (tail : Blade) : List Blade :=
  [tail, minusAxis :: tail, plusAxis :: tail, minusAxis :: plusAxis :: tail]

/-- Each blade has one Euclidean part. -/
theorem powerset_perm : ((Subsets.powerset euclideanAxes).flatMap withConformal).Perm
    (Subsets.powerset metric.pseudoscalar) := by
  decide +kernel

theorem canonicalBlade_withConformal {K tail : Blade} (htail : tail ∈ Subsets.powerset euclideanAxes)
    (hK : K ∈ withConformal tail) : CanonicalBlade K := by
  have hmem : K ∈ Subsets.powerset metric.pseudoscalar :=
    powerset_perm.subset (List.mem_flatMap.mpr ⟨tail, htail, hK⟩)
  obtain ⟨grade, hblade⟩ := Metric.mem_powerset.mp hmem
  exact ⟨hblade.increasing, hblade.bounded⟩

/-- A multivector is the sum over the Euclidean parts of its blades. -/
theorem Canonical.value_eq_sum_tails {a : Multivector} (ha : a.Canonical) :
    a.value = ((Subsets.powerset euclideanAxes).map fun tail => ((withConformal tail).map fun K =>
      algebraTerm K (a.coefficientOf K).value).sum).sum := by
  -- the order of the blades does not matter for the sum
  rw [ha.value_eq_sum, ← (powerset_perm.map _).sum_eq, List.map_flatMap, List.flatMap,
    List.sum_flatten, List.map_map]
  rfl

/-! ## §2. The displayed sum. -/

/-- The element that a part of the null basis displays in front of a Euclidean
blade. -/
def NullPart.blade (part : NullPart) (tail : Blade) : Outcome Multivector :=
  match part with
  | .euclidean => .ok (unit tail)
  | .origin => Conformal.origin.wedge (unit tail)
  | .infinity => Conformal.infinity.wedge (unit tail)
  | .plane => minkowskiPlane.wedge (unit tail)

/-- The order of display: the parts of one Euclidean blade after those of another. -/
def nullPlaces : List (NullPart × Blade) :=
  (Subsets.powerset euclideanAxes).flatMap fun tail => NullPart.all.map fun part => (part, tail)

/-- One displayed element with its coefficient. -/
def nullTerm (a : Multivector) (place : NullPart × Blade) : Outcome Multivector := do
  let p ← a.nullCoefficient place.1 place.2
  let blade ← place.1.blade place.2
  blade.scale p

/-- The displayed sum, computed in the algebra. -/
def nullSum (a : Multivector) : Outcome Multivector :=
  nullPlaces.foldlM (fun sum place => do sum.add (← a.nullTerm place)) zero

/-- A multivector as a function of the coefficients of its blades. -/
noncomputable def blades (a : Multivector) (K : Blade) : MvPolynomial String ℚ :=
  (a.coefficientOf K).value

/-- What a displayed coefficient stands for. -/
noncomputable def NullPart.coefficient (part : NullPart) (a : Multivector) (tail : Blade) :
    MvPolynomial String ℚ :=
  match part with
  | .euclidean => a.blades tail
  | .origin => a.blades (minusAxis :: tail) - a.blades (plusAxis :: tail)
  | .infinity => half (a.blades (minusAxis :: tail) + a.blades (plusAxis :: tail))
  | .plane => a.blades (minusAxis :: plusAxis :: tail)

/-- What a displayed element stands for. -/
noncomputable def NullPart.element (part : NullPart) (tail : Blade) : ConformalAlgebra :=
  match part with
  | .euclidean => algebraTerm tail 1
  | .origin => algebraTerm (minusAxis :: tail) (half 1) + algebraTerm (plusAxis :: tail) (-half 1)
  | .infinity => algebraTerm (minusAxis :: tail) 1 + algebraTerm (plusAxis :: tail) 1
  | .plane => algebraTerm (minusAxis :: plusAxis :: tail) 1

/-- **The displayed coefficients are exact.** -/
theorem nullCoefficient_yields {a : Multivector} (ha : a.Canonical) (part : NullPart)
    (tail : Blade) :
    Yields (a.nullCoefficient part tail) (Polynomial.Denotes (part.coefficient a tail)) := by
  have hblade : ∀ K, Polynomial.Denotes (a.blades K) (a.coefficientOf K) :=
    fun K => ⟨ha.coefficientOf K, rfl⟩
  cases part with
  | euclidean => exact yields_ok (hblade tail)
  | origin => exact (hblade _).sub (hblade _)
  | infinity => exact ((hblade _).add (hblade _)).bind fun _ hsum => half_yields hsum
  | plane => exact yields_ok (hblade _)

/-- A sum of the two conformal axes in front of a Euclidean blade. -/
theorem wedge_axes {tail : Blade} (htail : tail ∈ Subsets.powerset euclideanAxes)
    (r s : MvPolynomial String ℚ) :
    Clifford.wedge (Clifford.single {0} r + Clifford.single {1} s) (algebraTerm tail 1)
      = algebraTerm (minusAxis :: tail) r + algebraTerm (plusAxis :: tail) s := by
  have hminus : ([minusAxis] ++ tail).Pairwise (· < ·) :=
    (canonicalBlade_withConformal htail (by simp [withConformal])).1
  have hplus : ([plusAxis] ++ tail).Pairwise (· < ·) :=
    (canonicalBlade_withConformal htail (by simp [withConformal])).1
  rw [map_add, AddMonoidHom.add_apply]
  exact congrArg₂ (· + ·) (Clifford.wedge_append hminus r) (Clifford.wedge_append hplus s)

/-- **The displayed elements are exact.** -/
theorem NullPart.blade_yields (part : NullPart) {tail : Blade}
    (htail : tail ∈ Subsets.powerset euclideanAxes) :
    Yields (part.blade tail) (Denotes (part.element tail)) := by
  have hblade : ∀ K ∈ withConformal tail, CanonicalBlade K :=
    fun K => canonicalBlade_withConformal htail
  have hunit := unit_denotes (hblade tail (by simp [withConformal]))
  have hgrade := unit_homogeneous tail
  cases part with
  | euclidean => exact yields_ok hunit
  | origin =>
    have hgrade' : Conformal.origin.Homogeneous 1 := by decide
    apply (origin_denotes.wedge_yields hunit hgrade' hgrade).mono
    intro b hb
    rw [wedge_axes htail] at hb
    exact hb.1
  | infinity =>
    have hgrade' : Conformal.infinity.Homogeneous 1 := by decide
    apply (infinity_denotes.wedge_yields hunit hgrade' hgrade).mono
    intro b hb
    rw [wedge_axes htail] at hb
    exact hb.1
  | plane =>
    have hempty : [] ∈ Subsets.powerset euclideanAxes := by decide
    have hfront : Denotes (algebraTerm [minusAxis, plusAxis] 1) minkowskiPlane :=
      unit_denotes (canonicalBlade_withConformal hempty (by decide))
    have happend : ([minusAxis, plusAxis] ++ tail).Pairwise (· < ·) :=
      (hblade (minusAxis :: plusAxis :: tail) (by simp [withConformal])).1
    apply (hfront.wedge_yields hunit (unit_homogeneous _) hgrade).mono
    intro b hb
    rw [algebraTerm, algebraTerm, Clifford.wedge_append happend] at hb
    exact hb.1

/-- **The change of basis**: the four parts of a Euclidean blade are its four blades. -/
theorem sum_parts (a : Multivector) (tail : Blade) :
    (NullPart.all.map fun part => part.coefficient a tail • part.element tail).sum
      = ((withConformal tail).map fun K => algebraTerm K (a.blades K)).sum := by
  have hsmul : ∀ (f g : MvPolynomial String ℚ) (K : Blade),
      f • algebraTerm K g = algebraTerm K (f * g) := by
    intro f g K
    rw [algebraTerm, Clifford.smul_single]
  set minus := a.blades (minusAxis :: tail)
  set plus := a.blades (plusAxis :: tail)
  -- `o = ½ (e₋ − e₊)` and `∞ = e₋ + e₊` share the coefficients of the two blades
  have hminus : (minus - plus) * half 1 + half (minus + plus) = minus := by
    have hone := two_mul_half 1
    unfold half at *
    linear_combination minus * hone
  have hplus : (minus - plus) * -half 1 + half (minus + plus) = plus := by
    have hone := two_mul_half 1
    unfold half at *
    linear_combination plus * hone
  show a.blades tail • algebraTerm tail 1
      + ((minus - plus) • (algebraTerm (minusAxis :: tail) (half 1)
          + algebraTerm (plusAxis :: tail) (-half 1))
      + (half (minus + plus) • (algebraTerm (minusAxis :: tail) 1
          + algebraTerm (plusAxis :: tail) 1)
      + (a.blades (minusAxis :: plusAxis :: tail)
          • algebraTerm (minusAxis :: plusAxis :: tail) 1 + 0)))
    = algebraTerm tail (a.blades tail) + (algebraTerm (minusAxis :: tail) minus
      + (algebraTerm (plusAxis :: tail) plus
      + (algebraTerm (minusAxis :: plusAxis :: tail)
          (a.blades (minusAxis :: plusAxis :: tail)) + 0)))
  have hminusTerm := congrArg (algebraTerm (minusAxis :: tail)) hminus
  have hplusTerm := congrArg (algebraTerm (plusAxis :: tail)) hplus
  rw [map_add] at hminusTerm hplusTerm
  rw [smul_add, smul_add, hsmul, hsmul, hsmul, hsmul, hsmul, hsmul, mul_one, mul_one, mul_one,
    ← hminusTerm, ← hplusTerm]
  abel

/-- The displayed sum has the value of the multivector. -/
theorem Canonical.value_eq_sum_places {a : Multivector} (ha : a.Canonical) :
    (nullPlaces.map fun place => place.1.coefficient a place.2 • place.1.element place.2).sum
      = a.value := by
  rw [ha.value_eq_sum_tails, nullPlaces, List.map_flatMap, List.flatMap, List.sum_flatten,
    List.map_map]
  apply congrArg List.sum
  apply List.map_congr_left
  intro tail _
  show ((NullPart.all.map _).map _).sum = _
  rw [List.map_map]
  exact sum_parts a tail

/-- **The displayed sum is the multivector.** -/
theorem Canonical.nullSum_yields {a : Multivector} (ha : a.Canonical) :
    Yields a.nullSum (· = a) := by
  have hterm : ∀ place ∈ nullPlaces, Yields (a.nullTerm place)
      (Denotes (place.1.coefficient a place.2 • place.1.element place.2)) := by
    intro place hplace
    obtain ⟨tail, htail, hmem⟩ := List.mem_flatMap.mp hplace
    obtain ⟨part, -, rfl⟩ := List.mem_map.mp hmem
    exact (nullCoefficient_yields ha part tail).bind fun p hp =>
      (part.blade_yields htail).bind fun b hb => hb.scale hp
  -- the loop adds up the values of its terms, and these sum to that of `a`
  have hloop : Yields a.nullSum (fun sum => sum.Canonical ∧ sum.value = zero.value
      + (nullPlaces.map fun place => place.1.coefficient a place.2 • place.1.element place.2).sum) :=
    Yields.foldlM zero_denotes.1 fun place hplace sum hsum =>
      (hterm place hplace).bind fun b hb => Denotes.add ⟨hsum, rfl⟩ hb
  apply hloop.mono
  intro sum h
  obtain ⟨hsum, hvalue⟩ := h
  rw [zero_denotes.2, zero_add, ha.value_eq_sum_places] at hvalue
  exact value_injective hsum ha hvalue

/-! ## §3. The listed parts. -/

/-- The displayed name of a place. -/
def placeName (place : NullPart × Blade) : String := place.1.name (metric.label place.2)

/-- The displayed coefficient at a place. -/
def placeCoefficient (a : Multivector) (place : NullPart × Blade) : Outcome Polynomial :=
  a.nullCoefficient place.1 place.2

/-- **The LaTeX text displays an exact change of basis.**  The displayed sum is the
multivector, and the text shows the places whose coefficient is not zero, in the order of
display, under 32 different names. -/
theorem null_basis_exact {a : Multivector} (ha : a.Canonical) :
    Yields a.nullSum (· = a)
      ∧ Yields a.latexPieces (List.Forall₂ (Shows .latex placeName a.placeCoefficient)
          (nullPlaces.filter (occurs a.placeCoefficient)))
      ∧ (nullPlaces.map placeName).Nodup := by
  refine ⟨ha.nullSum_yields, ?_, by decide +kernel⟩
  have hcoefficient : ∀ place ∈ nullPlaces, Yields (a.placeCoefficient place) Polynomial.Canonical :=
    fun place _ => (nullCoefficient_yields ha place.1 place.2).mono fun _ hp => hp.1
  exact (listing_yields hcoefficient).bind fun pieces hpieces => yields_pure hpieces

/-- Twice the negative axis, which is `2 o + ∞`. -/
def twiceMinus : Multivector := ⟨[([minusAxis], Polynomial.ofInt 2)]⟩

theorem null_basis_exact_twiceMinus : twiceMinus.Canonical
    ∧ twiceMinus.nullSum = .ok twiceMinus
    ∧ twiceMinus.latexPieces = .ok [⟨false, "2 o"⟩, ⟨false, "\\infty"⟩]
    ∧ List.Forall₂ (Shows .latex placeName twiceMinus.placeCoefficient)
        [(.origin, []), (.infinity, [])] [⟨false, "2 o"⟩, ⟨false, "\\infty"⟩] := by
  have hcanonical : twiceMinus.Canonical := by decide
  obtain ⟨hsum, hpieces, -⟩ := null_basis_exact hcanonical
  have htext : twiceMinus.latexPieces = .ok [⟨false, "2 o"⟩, ⟨false, "\\infty"⟩] := by
    decide +kernel
  have hplaces : nullPlaces.filter (occurs twiceMinus.placeCoefficient)
      = [(.origin, []), (.infinity, [])] := by decide +kernel
  refine ⟨hcanonical, ?_, htext, hplaces ▸ hpieces.ensures _ htext⟩
  cases hsum with
  | answer a h ha => rw [h, ha]
  | overflow h =>
    have hok : (twiceMinus.nullSum).isOk = true := by decide +kernel
    rw [h] at hok
    cases hok

end Multivector

end GeometricAlgebra
