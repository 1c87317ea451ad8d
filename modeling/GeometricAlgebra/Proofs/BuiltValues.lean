/-
  GeometricAlgebra.Proofs.BuiltValues
  ────────────────────────────────
  **EVERYTHING THAT CAN BE BUILT IS IN NORMAL FORM.**

  A client holds polynomials and multivectors and makes new ones from them with
  the operations of the library, in any order and any number of times
  (`Built`).  Each operation keeps the normal form, whatever it fails on; so by
  induction on how a value was built, every value is in normal form.

  No operation checks the axes of a stored blade again.  The normal form is why
  it does not have to: products and reversals only ever meet words over the
  alphabet.

  Main results:
    * `Built.canonical` — the invariant of all histories.
    * `Multivector.built_representation` — what it means for multivectors: at
      most 32 blades, no foreign axis, and equality by coefficients.
-/
import GeometricAlgebra.Proofs.GradedProducts

namespace GeometricAlgebra

open Outcome

/-! ## §1. Polynomials. -/

namespace Polynomial

open SortedTerms

theorem var_canonical (name : String) : (var name).Canonical := by
  refine canonical_iff.mpr (isNormal_cons.mpr ⟨⟨?_, Fraction.normal_ofInt 1, rfl⟩, isNormal_nil⟩)
  exact Monomial.sorted_ofNames [name]

theorem isZero_iff {p : Polynomial} : p.isZero = true ↔ p = zero := by
  cases p
  simp [isZero, zero]

/-- An exact answer is in normal form. -/
theorem canonical_of_exact {x : Outcome Polynomial} {f : MvPolynomial String ℚ}
    (h : Yields x (Denotes f)) : Ensures x Canonical :=
  (h.mono fun _ h => h.1).ensures

namespace Canonical

variable {p q : Polynomial} {c : Fraction} (hp : p.Canonical)
include hp

theorem add (hq : q.Canonical) : Ensures (p.add q) Canonical :=
  canonical_of_exact (Denotes.add ⟨hp, rfl⟩ ⟨hq, rfl⟩)

theorem mul (hq : q.Canonical) : Ensures (p.mul q) Canonical :=
  canonical_of_exact (Denotes.mul ⟨hp, rfl⟩ ⟨hq, rfl⟩)

theorem scale (hc : c.Normal) : Ensures (p.scale c) Canonical :=
  canonical_of_exact (Denotes.scale ⟨hp, rfl⟩ ⟨hc, rfl⟩)

theorem neg : Ensures p.neg Canonical := hp.scale (Fraction.normal_ofInt (-1))

theorem sub (hq : q.Canonical) : Ensures (p.sub q) Canonical :=
  hq.neg.bind fun _ h => hp.add h

theorem pow (exponent : Nat) : Ensures (p.pow exponent) Canonical := by
  unfold Polynomial.pow
  split
  · exact hp.mul hp
  · exact ensures_error _

theorem divScalar (hc : c.Normal) : Ensures (p.divScalar c) Canonical := by
  by_cases h0 : c.value = 0
  · unfold Polynomial.divScalar
    rw [if_pos ((Fraction.isZero_iff_value hc).mpr h0)]
    exact ensures_error _
  · exact canonical_of_exact (Denotes.divScalar ⟨hp, rfl⟩ ⟨hc, rfl⟩ h0)

/-- A reciprocal is a constant; everything else is refused. -/
theorem recip : Ensures p.recip Canonical := by
  have hrefuse : Ensures (recip.refuse p) Canonical :=
    ensures_bind fun _ => ensures_error _
  unfold Polynomial.recip
  split
  next => exact ensures_error _
  next m c hterms =>
    split
    next =>
      obtain ⟨⟨-, hc, hc0⟩, -⟩ := isNormal_cons.mp (hterms ▸ canonical_iff.mp hp)
      have hvalue : c.value ≠ 0 := value_ne_zero hc hc0
      refine (Fraction.Denotes.recip ⟨hc, rfl⟩ hvalue).ensures.bind fun r hr => ?_
      exact ensures_ok (constant_denotes hr).1
    next => exact hrefuse
  next => exact hrefuse

end Canonical

end Polynomial

/-! ## §2. Multivectors. -/

namespace Multivector

open SortedTerms

/-- An exact answer is in normal form. -/
theorem canonical_of_exact {x : Outcome Multivector} {y : ConformalAlgebra}
    (h : Yields x (Denotes y)) : Ensures x Canonical :=
  (h.mono fun _ h => h.1).ensures

/-- Canonical blades with canonical coefficients add up to a canonical multivector. -/
theorem ofBlades_ensures {terms : List (Blade × Polynomial)}
    (hterms : ∀ t ∈ terms, CanonicalBlade t.1 ∧ t.2.Canonical) :
    Ensures (ofBlades terms) Canonical :=
  canonical_of_exact (ofBlades_denotes hterms)

theorem normalForm_canonicalBlade {word : Blade} (h : metric.InAlphabet word) :
    CanonicalBlade (metric.normalForm word).axes :=
  ⟨metric.normalForm_increasing word, h.normalForm⟩

/-- A checked word has a canonical form over the alphabet. -/
theorem canonicalize_ensures (word : Blade) :
    Ensures (metric.canonicalize word) (fun blade => CanonicalBlade blade.axes) := by
  intro blade hblade
  obtain ⟨hword, rfl⟩ := Metric.canonicalize_eq_ok_iff.mp hblade
  exact normalForm_canonicalBlade hword

theorem canonicalizeWord_ensures (label : String) :
    Ensures (metric.canonicalizeWord label) (fun blade => CanonicalBlade blade.axes) :=
  ensures_bind fun word => canonicalize_ensures word

theorem signedTerm_ensures {blade : SignedBlade} {p : Polynomial}
    (hblade : CanonicalBlade blade.axes) (hp : p.Canonical) :
    Ensures (signedTerm blade p) (fun t => CanonicalBlade t.1 ∧ t.2.Canonical) :=
  (hp.scale (Fraction.normal_ofInt _)).bind fun _ hq => ensures_ok ⟨hblade, hq⟩

/-- **Labelled terms**: the sum so far is in normal form after each of them. -/
theorem ofTerms_ensures {terms : List (String × Polynomial)}
    (hterms : ∀ t ∈ terms, t.2.Canonical) : Ensures (ofTerms terms) Canonical := by
  have hloop : Ensures (terms.foldlM addLabelled []) (IsNormal CanonicalBlade) := by
    refine Ensures.foldlM isNormal_nil fun t ht sum hsum => ?_
    refine (canonicalizeWord_ensures t.1).bind fun blade hblade => ?_
    refine (signedTerm_ensures hblade (hterms t ht)).bind fun term hterm => ?_
    exact ((accumulate_yields hsum hterm).mono fun _ h => h.1).ensures
  exact hloop.bind fun _ h => ensures_ok (canonical_iff.mpr h)

theorem vector_ensures (axis : Axis) {p : Polynomial} (hp : p.Canonical) :
    Ensures (vector axis p) Canonical :=
  (canonicalize_ensures [axis]).bind fun _ hblade =>
    (signedTerm_ensures hblade hp).bind fun term hterm =>
      ofBlades_ensures (by simpa using hterm)

theorem scalar_canonical {p : Polynomial} (hp : p.Canonical) : (scalar p).Canonical :=
  (scalar_denotes ⟨hp, rfl⟩).1

namespace Canonical

variable {a b : Multivector} {p : Polynomial} {c : Fraction} (ha : a.Canonical)
include ha

theorem term {t : Blade × Polynomial} (ht : t ∈ a.terms) : CanonicalBlade t.1 ∧ t.2.Canonical :=
  (canonical_iff.mp ha).2 t ht

theorem add (hb : b.Canonical) : Ensures (a.add b) Canonical :=
  canonical_of_exact (Denotes.add ⟨ha, rfl⟩ ⟨hb, rfl⟩)

theorem scale (hp : p.Canonical) : Ensures (a.scale p) Canonical :=
  canonical_of_exact (Denotes.scale ⟨ha, rfl⟩ ⟨hp, rfl⟩)

theorem neg : Ensures a.neg Canonical := ha.scale (Polynomial.ofInt_denotes (-1)).1

theorem sub (hb : b.Canonical) : Ensures (a.sub b) Canonical :=
  hb.neg.bind fun _ h => ha.add h

theorem divScalar (hc : c.Normal) : Ensures (a.divScalar c) Canonical := by
  refine (Ensures.mapM fun t ht => ?_).bind fun us hus => ofBlades_ensures hus
  exact ((ha.term ht).2.divScalar hc).bind fun q hq => ensures_ok ⟨(ha.term ht).1, hq⟩

theorem mul (hb : b.Canonical) : Ensures (a.mul b) Canonical :=
  canonical_of_exact (Denotes.mul ⟨ha, rfl⟩ ⟨hb, rfl⟩)

theorem pow (exponent : Nat) : Ensures (a.pow exponent) Canonical := by
  unfold Multivector.pow
  split
  · exact ha.mul ha
  · exact ensures_error _

theorem project (grade : Nat) : (a.project grade).Canonical :=
  (Denotes.project ⟨ha, rfl⟩ grade).1

theorem wedge (hb : b.Canonical) : Ensures (a.wedge b) Canonical := by
  unfold Multivector.wedge
  split
  · exact ensures_ok zero_denotes.1
  · refine ensures_bind fun r => ensures_bind fun s => ?_
    exact (ha.mul hb).bind fun _ h => ensures_ok (h.project (r + s))

theorem leftContract (hb : b.Canonical) : Ensures (a.leftContract b) Canonical := by
  unfold Multivector.leftContract
  split
  · exact ensures_ok zero_denotes.1
  · refine ensures_bind fun r => ensures_bind fun s => ?_
    split
    · exact ensures_ok zero_denotes.1
    · exact (ha.mul hb).bind fun _ h => ensures_ok (h.project (s - r))

/-- A word read backwards keeps to the alphabet. -/
theorem rev : Ensures a.rev Canonical := by
  refine (Ensures.mapM fun t ht => ?_).bind fun us hus => ofBlades_ensures hus
  have hword : metric.InAlphabet t.1.reverse :=
    fun i hi => (ha.term ht).1.2 i (List.mem_reverse.mp hi)
  rw [Metric.canonicalizeKnown_of_inAlphabet hword]
  exact signedTerm_ensures (normalForm_canonicalBlade hword) (ha.term ht).2

theorem dual : Ensures a.dual Canonical := ha.leftContract (by decide)

/-- A coefficient is stored, or zero. -/
theorem coefficientOf (K : Blade) : (a.coefficientOf K).Canonical := by
  unfold Multivector.coefficientOf
  cases h : a.terms.lookup K with
  | none => exact Polynomial.zero_denotes.1
  | some q =>
    obtain ⟨before, after, hterms, -⟩ := List.lookup_eq_some_iff.mp h
    have hmem : (K, q) ∈ a.terms := by simp [hterms]
    exact (ha.term hmem).2

theorem coefficient (label : String) : Ensures (a.coefficient label) Polynomial.Canonical :=
  ensures_bind fun blade => (ha.coefficientOf blade.axes).scale (Fraction.normal_ofInt _)

theorem inverse : Ensures a.inverse Canonical := by
  refine ha.rev.bind fun reversed hreversed => ?_
  refine (ha.mul hreversed).bind fun norm hnorm => ?_
  exact (hnorm.coefficientOf []).recip.bind fun r hr => hreversed.scale hr

end Canonical

/-! ## §3. Points and spheres. -/

end Multivector

namespace Conformal

open Multivector

theorem halfInfinity_ensures {p : Polynomial} (hp : p.Canonical) :
    Ensures (halfInfinity p) Multivector.Canonical :=
  (hp.scale Fraction.normal_half).bind fun _ h => Canonical.scale (by decide) h

theorem pointAt_ensures {x y z : Polynomial} (hx : x.Canonical) (hy : y.Canonical)
    (hz : z.Canonical) : Ensures (pointAt x y z) Multivector.Canonical := by
  have hlength : Ensures (squaredLength x y z) Polynomial.Canonical :=
    (hx.mul hx).bind fun _ hxx => (hy.mul hy).bind fun _ hyy => (hz.mul hz).bind fun _ hzz =>
      (hxx.add hyy).bind fun _ h => h.add hzz
  refine hlength.bind fun length hlength => ?_
  refine (vector_ensures xAxis hx).bind fun ex hex => ?_
  refine (vector_ensures yAxis hy).bind fun ey hey => ?_
  refine (vector_ensures zAxis hz).bind fun ez hez => ?_
  refine (halfInfinity_ensures hlength).bind fun weight hweight => ?_
  refine (Canonical.add (by decide) hex).bind fun p hp => ?_
  exact (hp.add hey).bind fun _ hp => (hp.add hez).bind fun _ hp => hp.add hweight

theorem point_ensures (subscript : String) : Ensures (point subscript) Multivector.Canonical :=
  pointAt_ensures (Polynomial.var_canonical _) (Polynomial.var_canonical _)
    (Polynomial.var_canonical _)

theorem sphereAt_ensures {center : Multivector} {radius : Polynomial} (hc : center.Canonical)
    (hr : radius.Canonical) : Ensures (sphereAt center radius) Multivector.Canonical :=
  (hr.mul hr).bind fun _ hsquare => (halfInfinity_ensures hsquare).bind fun _ h => hc.sub h

theorem flatPoint_ensures {p : Multivector} (hp : p.Canonical) :
    Ensures (flatPoint p) Multivector.Canonical :=
  hp.wedge (by decide)

end Conformal

/-! ## §4. Histories. -/

/-- What a client holds. -/
inductive Value where
  | polynomial (p : Polynomial)
  | multivector (a : Multivector)

def Value.Canonical : Value → Prop
  | .polynomial p => p.Canonical
  | .multivector a => a.Canonical

/-- **Values with a history**: what some finite sequence of operations answers.
Fractions come from outside, in lowest terms; names and labels are arbitrary. -/
inductive Built : Value → Prop where
  -- polynomials
  | termSum {terms : List (List String × Fraction)} {p : Polynomial}
      (hterms : ∀ t ∈ terms, t.2.Normal)
      (h : Polynomial.ofTerms (terms.map fun t => (Monomial.ofNames t.1, t.2)) = .ok p) :
      Built (.polynomial p)
  | var (name : String) : Built (.polynomial (.var name))
  | constant {c : Fraction} (hc : c.Normal) : Built (.polynomial (.constant c))
  | polyAdd {p q r : Polynomial} (hp : Built (.polynomial p)) (hq : Built (.polynomial q))
      (h : p.add q = .ok r) : Built (.polynomial r)
  | polySub {p q r : Polynomial} (hp : Built (.polynomial p)) (hq : Built (.polynomial q))
      (h : p.sub q = .ok r) : Built (.polynomial r)
  | polyMul {p q r : Polynomial} (hp : Built (.polynomial p)) (hq : Built (.polynomial q))
      (h : p.mul q = .ok r) : Built (.polynomial r)
  | polyNeg {p r : Polynomial} (hp : Built (.polynomial p)) (h : p.neg = .ok r) :
      Built (.polynomial r)
  | polyScale {p r : Polynomial} {c : Fraction} (hp : Built (.polynomial p)) (hc : c.Normal)
      (h : p.scale c = .ok r) : Built (.polynomial r)
  | polyDivScalar {p r : Polynomial} {c : Fraction} (hp : Built (.polynomial p)) (hc : c.Normal)
      (h : p.divScalar c = .ok r) : Built (.polynomial r)
  | polyPow {p r : Polynomial} {exponent : Nat} (hp : Built (.polynomial p))
      (h : p.pow exponent = .ok r) : Built (.polynomial r)
  | polyRecip {p r : Polynomial} (hp : Built (.polynomial p)) (h : p.recip = .ok r) :
      Built (.polynomial r)
  | coefficientOf {a : Multivector} (K : Blade) (ha : Built (.multivector a)) :
      Built (.polynomial (a.coefficientOf K))
  | coefficient {a : Multivector} {label : String} {p : Polynomial}
      (ha : Built (.multivector a)) (h : a.coefficient label = .ok p) : Built (.polynomial p)
  -- multivectors from polynomials
  | labelled {terms : List (String × Polynomial)} {a : Multivector}
      (hterms : ∀ t ∈ terms, Built (.polynomial t.2)) (h : Multivector.ofTerms terms = .ok a) :
      Built (.multivector a)
  | blade {label : String} {a : Multivector} (h : Multivector.blade label = .ok a) :
      Built (.multivector a)
  | scalar {p : Polynomial} (hp : Built (.polynomial p)) :
      Built (.multivector (Multivector.scalar p))
  | vector {axis : Axis} {p : Polynomial} {a : Multivector} (hp : Built (.polynomial p))
      (h : Multivector.vector axis p = .ok a) : Built (.multivector a)
  | infinity : Built (.multivector Conformal.infinity)
  | origin : Built (.multivector Conformal.origin)
  | minkowskiPlane : Built (.multivector Conformal.minkowskiPlane)
  | pointAt {x y z : Polynomial} {a : Multivector} (hx : Built (.polynomial x))
      (hy : Built (.polynomial y)) (hz : Built (.polynomial z))
      (h : Conformal.pointAt x y z = .ok a) : Built (.multivector a)
  | point {subscript : String} {a : Multivector} (h : Conformal.point subscript = .ok a) :
      Built (.multivector a)
  | sphereAt {center a : Multivector} {radius : Polynomial} (hc : Built (.multivector center))
      (hr : Built (.polynomial radius)) (h : Conformal.sphereAt center radius = .ok a) :
      Built (.multivector a)
  | flatPoint {p a : Multivector} (hp : Built (.multivector p))
      (h : Conformal.flatPoint p = .ok a) : Built (.multivector a)
  -- multivectors from multivectors
  | add {a b c : Multivector} (ha : Built (.multivector a)) (hb : Built (.multivector b))
      (h : a.add b = .ok c) : Built (.multivector c)
  | sub {a b c : Multivector} (ha : Built (.multivector a)) (hb : Built (.multivector b))
      (h : a.sub b = .ok c) : Built (.multivector c)
  | mul {a b c : Multivector} (ha : Built (.multivector a)) (hb : Built (.multivector b))
      (h : a.mul b = .ok c) : Built (.multivector c)
  | wedge {a b c : Multivector} (ha : Built (.multivector a)) (hb : Built (.multivector b))
      (h : a.wedge b = .ok c) : Built (.multivector c)
  | leftContract {a b c : Multivector} (ha : Built (.multivector a))
      (hb : Built (.multivector b)) (h : a.leftContract b = .ok c) : Built (.multivector c)
  | neg {a c : Multivector} (ha : Built (.multivector a)) (h : a.neg = .ok c) :
      Built (.multivector c)
  | scale {a c : Multivector} {p : Polynomial} (ha : Built (.multivector a))
      (hp : Built (.polynomial p)) (h : a.scale p = .ok c) : Built (.multivector c)
  | divScalar {a c : Multivector} {k : Fraction} (ha : Built (.multivector a)) (hk : k.Normal)
      (h : a.divScalar k = .ok c) : Built (.multivector c)
  | pow {a c : Multivector} {exponent : Nat} (ha : Built (.multivector a))
      (h : a.pow exponent = .ok c) : Built (.multivector c)
  | project {a : Multivector} (grade : Nat) (ha : Built (.multivector a)) :
      Built (.multivector (a.project grade))
  | rev {a c : Multivector} (ha : Built (.multivector a)) (h : a.rev = .ok c) :
      Built (.multivector c)
  | dual {a c : Multivector} (ha : Built (.multivector a)) (h : a.dual = .ok c) :
      Built (.multivector c)
  | inverse {a c : Multivector} (ha : Built (.multivector a)) (h : a.inverse = .ok c) :
      Built (.multivector c)

theorem Polynomial.termSum_ensures {terms : List (List String × Fraction)}
    (hterms : ∀ t ∈ terms, t.2.Normal) :
    Ensures (ofTerms (terms.map fun t => (Monomial.ofNames t.1, t.2))) Canonical := by
  refine canonical_of_exact (ofTerms_denotes fun u hu => ?_)
  obtain ⟨t, ht, rfl⟩ := List.mem_map.mp hu
  exact ⟨Monomial.sorted_ofNames t.1, hterms t ht⟩

/-- **EVERY VALUE WITH A HISTORY IS IN NORMAL FORM.** -/
theorem Built.canonical {v : Value} (h : Built v) : v.Canonical := by
  -- on the last operation of the history
  induction h with
  | termSum hterms h => exact Polynomial.termSum_ensures hterms _ h
  | var name => exact Polynomial.var_canonical name
  | constant hc => exact (Polynomial.constant_denotes ⟨hc, rfl⟩).1
  | polyAdd _ _ h hp hq => exact Polynomial.Canonical.add hp hq _ h
  | polySub _ _ h hp hq => exact Polynomial.Canonical.sub hp hq _ h
  | polyMul _ _ h hp hq => exact Polynomial.Canonical.mul hp hq _ h
  | polyNeg _ h hp => exact Polynomial.Canonical.neg hp _ h
  | polyScale _ hc h hp => exact Polynomial.Canonical.scale hp hc _ h
  | polyDivScalar _ hc h hp => exact Polynomial.Canonical.divScalar hp hc _ h
  | polyPow _ h hp => exact Polynomial.Canonical.pow hp _ _ h
  | polyRecip _ h hp => exact Polynomial.Canonical.recip hp _ h
  | coefficientOf K _ ha => exact Multivector.Canonical.coefficientOf ha K
  | coefficient _ h ha => exact Multivector.Canonical.coefficient ha _ _ h
  | labelled _ h hterms => exact Multivector.ofTerms_ensures hterms _ h
  | blade h =>
    refine Multivector.ofTerms_ensures (fun t ht => ?_) _ h
    rw [List.mem_singleton.mp ht]
    exact Polynomial.one_denotes.1
  | scalar _ hp => exact Multivector.scalar_canonical hp
  | vector _ h hp => exact Multivector.vector_ensures _ hp _ h
  | infinity => show Multivector.Canonical _; decide
  | origin => show Multivector.Canonical _; decide
  | minkowskiPlane => show Multivector.Canonical _; decide
  | pointAt _ _ _ h hx hy hz => exact Conformal.pointAt_ensures hx hy hz _ h
  | point h => exact Conformal.point_ensures _ _ h
  | sphereAt _ _ h hc hr => exact Conformal.sphereAt_ensures hc hr _ h
  | flatPoint _ h hp => exact Conformal.flatPoint_ensures hp _ h
  | add _ _ h ha hb => exact Multivector.Canonical.add ha hb _ h
  | sub _ _ h ha hb => exact Multivector.Canonical.sub ha hb _ h
  | mul _ _ h ha hb => exact Multivector.Canonical.mul ha hb _ h
  | wedge _ _ h ha hb => exact Multivector.Canonical.wedge ha hb _ h
  | leftContract _ _ h ha hb => exact Multivector.Canonical.leftContract ha hb _ h
  | neg _ h ha => exact Multivector.Canonical.neg ha _ h
  | scale _ _ h ha hp => exact Multivector.Canonical.scale ha hp _ h
  | divScalar _ hk h ha => exact Multivector.Canonical.divScalar ha hk _ h
  | pow _ h ha => exact Multivector.Canonical.pow ha _ _ h
  | project grade _ ha => exact Multivector.Canonical.project ha grade
  | rev _ h ha => exact Multivector.Canonical.rev ha _ h
  | dual _ h ha => exact Multivector.Canonical.dual ha _ h
  | inverse _ h ha => exact Multivector.Canonical.inverse ha _ h

/-! ## §5. What the normal form gives. -/

namespace Multivector

open SortedTerms

/-- **At most 32 blades**: they are different sets of five axes. -/
theorem Canonical.size_le {a : Multivector} (ha : a.Canonical) : a.size ≤ 32 := by
  have hblade : ∀ K ∈ a.terms.map Prod.fst, CanonicalBlade K := by
    intro K hK
    obtain ⟨t, ht, rfl⟩ := List.mem_map.mp hK
    exact (ha.term ht).1
  have hsets : ((a.terms.map Prod.fst).map List.toFinset).Nodup := by
    refine List.Nodup.map_on ?_ ha.1.nodup_keys
    intro K hK L hL h
    exact Metric.eq_of_toFinset_eq (hblade K hK).1 (hblade L hL).1 h
  have hsub : ((a.terms.map Prod.fst).map List.toFinset).toFinset
      ⊆ (Finset.range metric.size).powerset := by
    intro s hs
    obtain ⟨K, hK, rfl⟩ := List.mem_map.mp (List.mem_toFinset.mp hs)
    refine Finset.mem_powerset.mpr fun i hi => ?_
    exact Finset.mem_range.mpr ((hblade K hK).2 i (List.mem_toFinset.mp hi))
  have hcard := Finset.card_le_card hsub
  rw [List.toFinset_card_of_nodup hsets, Finset.card_powerset, Finset.card_range,
    List.length_map, List.length_map] at hcard
  exact hcard

theorem Canonical.value_coefficientOf {a : Multivector} (ha : a.Canonical) (K : Blade) :
    (a.coefficientOf K).value = total a.terms K := by
  rw [total_apply (canonical_iff.mp ha), Multivector.coefficientOf]
  cases a.terms.lookup K with
  | none => rfl
  | some p => rfl

/-- **The coefficient of a canonical blade is the coordinate of its axes.** -/
theorem Canonical.coord_value {a : Multivector} (ha : a.Canonical) {K : Blade}
    (hK : CanonicalBlade K) :
    Clifford.coord K.toFinset a.value = (a.coefficientOf K).value := by
  rw [ha.value_coefficientOf]
  exact coord_reading (fun _ _ h h' => coord_algebraTerm h h') (fun _ ht => (ha.term ht).1) hK

/-- No other blade has a coefficient. -/
theorem Canonical.value_coefficientOf_eq_zero {a : Multivector} (ha : a.Canonical) {K : Blade}
    (hK : ¬ CanonicalBlade K) : (a.coefficientOf K).value = 0 := by
  rw [ha.value_coefficientOf]
  apply total_eq_zero
  intro t ht h
  exact hK (h ▸ (ha.term ht).1)

/-- A multivector is the sum over any blades that include its own. -/
theorem Canonical.value_eq_sum_over {a : Multivector} (ha : a.Canonical) {blades : Finset Blade}
    (hblades : ∀ t ∈ a.terms, t.1 ∈ blades) :
    a.value = ∑ K ∈ blades, algebraTerm K (a.coefficientOf K).value := by
  have hsupport : (total a.terms).support ⊆ blades := by
    intro K hK
    by_contra hmem
    apply Finsupp.mem_support_iff.mp hK
    apply total_eq_zero
    intro t ht h
    exact hmem (h ▸ hblades t ht)
  rw [value, reading_eq_liftAddHom, Finsupp.liftAddHom_apply,
    Finsupp.sum_of_support_subset _ hsupport _ fun K _ => map_zero _]
  simp only [ha.value_coefficientOf]

/-- A stored coefficient is not zero. -/
theorem Canonical.value_coefficientOf_ne_zero {a : Multivector} (ha : a.Canonical)
    {t : Blade × Polynomial} (ht : t ∈ a.terms) : (a.coefficientOf t.1).value ≠ 0 := by
  rw [ha.value_coefficientOf]
  exact total_ne_zero_of_mem (canonical_iff.mp ha) ht

/-- **Multivectors are equal iff their coefficients are.** -/
theorem Canonical.eq_iff {a b : Multivector} (ha : a.Canonical) (hb : b.Canonical) :
    a = b ↔ ∀ K, CanonicalBlade K → a.coefficientOf K = b.coefficientOf K := by
  constructor
  · intro h K _
    rw [h]
  · intro h
    have htotal : total a.terms = total b.terms := by
      ext1 K
      rw [← ha.value_coefficientOf, ← hb.value_coefficientOf]
      by_cases hK : CanonicalBlade K
      · rw [h K hK]
      · rw [ha.value_coefficientOf_eq_zero hK, hb.value_coefficientOf_eq_zero hK]
    have hterms := eq_of_total_eq (canonical_iff.mp ha) (canonical_iff.mp hb) htotal
    cases a
    cases b
    exact congrArg _ hterms

/-- **THE REPRESENTATION OF BUILT MULTIVECTORS**: they are in normal form and have
at most 32 blades; reordering leaves nothing over of the words that products and
reversals do not check, nor of the fixed words of constants and duals; and a
multivector is determined by its coefficients. -/
theorem built_representation {a b : Multivector} (ha : Built (.multivector a))
    (hb : Built (.multivector b)) :
    a.Canonical ∧ a.size ≤ 32
      ∧ (∀ s ∈ a.terms, ∀ t ∈ b.terms, (metric.reorder (s.1 ++ t.1)).unconsumed = [])
      ∧ (∀ t ∈ a.terms, (metric.reorder t.1.reverse).unconsumed = [])
      ∧ (∀ word, word ⊆ metric.pseudoscalar → (metric.reorder word).unconsumed = [])
      ∧ (a = b ↔ ∀ K, CanonicalBlade K → a.coefficientOf K = b.coefficientOf K)
      ∧ (a.isZero = true ↔ ∀ K, CanonicalBlade K → (a.coefficientOf K).isZero = true) := by
  have hA : a.Canonical := ha.canonical
  have hB : b.Canonical := hb.canonical
  refine ⟨hA, hA.size_le, ?_, ?_, ?_, hA.eq_iff hB, ?_⟩
  · intro s hs t ht
    exact Metric.reorder_unconsumed_eq_nil_iff.mpr ((hA.term hs).1.2.append (hB.term ht).1.2)
  · intro t ht
    exact Metric.reorder_unconsumed_eq_nil_iff.mpr fun i hi =>
      (hA.term ht).1.2 i (List.mem_reverse.mp hi)
  · intro word hword
    exact Metric.reorder_unconsumed_eq_nil_iff.mpr fun i hi => List.mem_range.mp (hword hi)
  · rw [isZero_iff, hA.eq_iff zero_denotes.1]
    simp only [Polynomial.isZero_iff]
    rfl

/-- The product `∞ o = −1 − e₋e₊`, compared with the origin. -/
theorem built_representation_product : ∃ a, Conformal.infinity.mul Conformal.origin = .ok a
    ∧ (Built (.multivector a) ∧ Built (.multivector Conformal.origin))
    ∧ a.Canonical ∧ a.size ≤ 32
    ∧ (a = Conformal.origin
      ↔ ∀ K, CanonicalBlade K → a.coefficientOf K = Conformal.origin.coefficientOf K) := by
  have hmul : Conformal.infinity.mul Conformal.origin
      = .ok ⟨[([], .ofInt (-1)), ([0, 1], .ofInt (-1))]⟩ := by decide
  have ha : Built (.multivector _) := .mul .infinity .origin hmul
  obtain ⟨hA, hsize, -, -, -, heq, -⟩ := built_representation ha .origin
  exact ⟨_, hmul, ⟨ha, .origin⟩, hA, hsize, heq⟩

end Multivector

end GeometricAlgebra
