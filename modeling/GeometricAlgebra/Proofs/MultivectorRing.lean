/-
  GeometricAlgebra.Proofs.MultivectorRing
  ────────────────────────────────
  **MULTIVECTORS ARE THE CLIFFORD ALGEBRA OF CONFORMAL SPACE.**

  A canonical multivector stands for one element of the Clifford algebra over
  the ring of polynomials, and is the only canonical multivector that does
  (`Multivector.value_injective`).  Sums, multiples and geometric products are
  canonical and have the exact value, unless a coefficient overflows.

  Main result:
    * `Multivector.geometric_algebra` — the geometric product is associative,
      distributes over sums, has the unit 1 and commutes with scaling, as an
      equality of stored terms.
-/
import GeometricAlgebra.Conformal
import GeometricAlgebra.Proofs.PolynomialRing
import GeometricAlgebra.Proofs.Reordering

namespace GeometricAlgebra

open Outcome

/-! ## §1. Signs as coefficients. -/

theorem Sign.toFraction_denotes (s : Sign) : Fraction.Denotes s.toInt s.toFraction :=
  Fraction.ofInt_denotes s.toInt

/-- Scaling a polynomial by a sign is exact. -/
theorem Polynomial.Denotes.scaleSign {f : MvPolynomial String ℚ} {p : Polynomial}
    (hp : Denotes f p) (s : Sign) : Yields (p.scale s.toFraction) (Denotes (s.toInt • f)) := by
  have h := hp.scale s.toFraction_denotes
  rw [map_intCast, mul_comm, ← zsmul_eq_mul] at h
  exact h

namespace Multivector

open SortedTerms

/-! ## §2. The value of a multivector. -/

/-- The algebra in which multivectors have their values. -/
abbrev ConformalAlgebra : Type := Clifford metric (MvPolynomial String ℚ)

/-- Of the axes of conformal space only the first squares to −1. -/
theorem square_eq (i : Axis) : metric.square i = if i = 0 then .negative else .positive := by
  match i with
  | 0 => rfl
  | 1 => rfl
  | 2 => rfl
  | 3 => rfl
  | 4 => rfl
  | _ + 5 => rfl

/-- A canonical blade of conformal space. -/
def CanonicalBlade (blade : Blade) : Prop :=
  blade.Pairwise (· < ·) ∧ metric.InAlphabet blade

theorem canonicalBlade_nil : CanonicalBlade [] :=
  ⟨List.Pairwise.nil, by simp [Metric.InAlphabet]⟩

/-- A blade with a coefficient, as an element of the algebra. -/
noncomputable def algebraTerm (blade : Blade) : MvPolynomial String ℚ →+ ConformalAlgebra :=
  Clifford.single blade.toFinset

/-- The element of the algebra that a multivector stands for. -/
noncomputable def value (a : Multivector) : ConformalAlgebra := reading algebraTerm a.terms

/-- The multivector is canonical and stands for `x`. -/
def Denotes (x : ConformalAlgebra) (a : Multivector) : Prop := a.Canonical ∧ a.value = x

theorem canonical_iff {a : Multivector} : a.Canonical ↔ IsNormal CanonicalBlade a.terms := by
  constructor
  · intro h
    obtain ⟨hsorted, hterms⟩ := h
    exact ⟨hsorted, fun t ht => ⟨⟨(hterms t ht).1, (hterms t ht).2.1⟩, (hterms t ht).2.2⟩⟩
  · intro h
    obtain ⟨hsorted, hterms⟩ := h
    exact ⟨hsorted, fun t ht => ⟨(hterms t ht).1.1, (hterms t ht).1.2, (hterms t ht).2⟩⟩

theorem coord_algebraTerm {K L : Blade} (hK : CanonicalBlade K) (hL : CanonicalBlade L)
    (p : MvPolynomial String ℚ) :
    Clifford.coord K.toFinset (algebraTerm L p) = if L = K then p else 0 := by
  have hiff : L.toFinset = K.toFinset ↔ L = K :=
    ⟨fun h => Metric.eq_of_toFinset_eq hL.1 hK.1 h, fun h => congrArg _ h⟩
  rw [algebraTerm, Clifford.coord_single]
  simp only [hiff]

/-- **Canonical multivectors with the same value are the same.** -/
theorem value_injective {a b : Multivector} (ha : a.Canonical) (hb : b.Canonical)
    (h : a.value = b.value) : a = b := by
  have hterms : a.terms = b.terms :=
    eq_of_reading_eq (fun _ _ hK hL => coord_algebraTerm hK hL) (canonical_iff.mp ha)
      (canonical_iff.mp hb) h
  cases a
  cases b
  exact congrArg _ hterms

theorem Denotes.eq_iff {x y : ConformalAlgebra} {a b : Multivector} (ha : Denotes x a)
    (hb : Denotes y b) : a = b ↔ x = y := by
  constructor
  · intro h
    rw [← ha.2, ← hb.2, h]
  · intro h
    exact value_injective ha.1 hb.1 (by rw [ha.2, hb.2, h])

/-- Programs that compute the same element agree. -/
theorem agree_of_denotes {x : ConformalAlgebra} {u v : Outcome Multivector} (hu : Yields u (Denotes x))
    (hv : Yields v (Denotes x)) : Agree u v :=
  Yields.agree (fun _ _ => value_injective) hu hv

/-! ## §3. Building blocks. -/

theorem zero_denotes : Denotes 0 zero := ⟨canonical_iff.mpr isNormal_nil, rfl⟩

theorem ofBlades_denotes {terms : List (Blade × Polynomial)}
    (hterms : ∀ t ∈ terms, CanonicalBlade t.1 ∧ t.2.Canonical) :
    Yields (ofBlades terms) (Denotes (reading algebraTerm terms)) := by
  apply (ofList_reading_yields (φ := algebraTerm) hterms).bind
  intro sum h
  obtain ⟨hsum, hreading⟩ := h
  exact yields_pure ⟨canonical_iff.mpr hsum, hreading⟩

theorem scalar_denotes {f : MvPolynomial String ℚ} {p : Polynomial}
    (hp : Polynomial.Denotes f p) : Denotes (algebraMap _ ConformalAlgebra f) (scalar p) := by
  obtain ⟨hp, rfl⟩ := hp
  have hmap : algebraMap _ ConformalAlgebra p.value = algebraTerm [] p.value :=
    (Clifford.single_empty p.value).symm
  rw [hmap]
  unfold scalar
  split
  next h0 =>
    rw [(Polynomial.isZero_iff_value hp).mp h0, map_zero]
    exact zero_denotes
  next h0 =>
    refine ⟨canonical_iff.mpr (isNormal_cons.mpr ⟨⟨canonicalBlade_nil, hp, ?_⟩, isNormal_nil⟩), ?_⟩
    · exact Bool.eq_false_iff.mpr h0
    · exact add_zero _

/-- The normal form of a word over the alphabet, with a coefficient. -/
theorem signedTerm_yields {word : Blade} {f : MvPolynomial String ℚ} {p : Polynomial}
    (hword : metric.InAlphabet word) (hp : Polynomial.Denotes f p) :
    Yields (signedTerm (metric.normalForm word) p) (fun t => (CanonicalBlade t.1 ∧ t.2.Canonical)
      ∧ algebraTerm t.1 t.2.value = f • (word.map Clifford.axis).prod) := by
  apply (hp.scaleSign _).bind
  intro q h
  obtain ⟨hq, hvalue⟩ := h
  have hblade : CanonicalBlade (metric.normalForm word).axes :=
    ⟨metric.normalForm_increasing word, hword.normalForm⟩
  refine yields_pure ⟨⟨hblade, hq⟩, ?_⟩
  show algebraTerm (metric.normalForm word).axes q.value = _
  rw [Metric.prod_normalForm Metric.represents_axis, Clifford.prod_axes hblade.1, hvalue, map_zsmul,
    smul_comm, ← Clifford.single_eq_smul]
  rfl

/-! ## §4. The operations. -/

/-- **Addition is exact.** -/
theorem Denotes.add {x y : ConformalAlgebra} {a b : Multivector} (ha : Denotes x a)
    (hb : Denotes y b) : Yields (a.add b) (Denotes (x + y)) := by
  obtain ⟨ha, rfl⟩ := ha
  obtain ⟨hb, rfl⟩ := hb
  refine (accumulateAll_reading_yields (φ := algebraTerm) (canonical_iff.mp ha)
    (canonical_iff.mp hb).2).bind ?_
  intro sum h
  obtain ⟨hsum, hreading⟩ := h
  exact yields_pure ⟨canonical_iff.mpr hsum, hreading⟩

/-- A loop over the coefficients that multiplies each of them by `f` is exact. -/
theorem mapCoefficients_yields {op : Polynomial → Outcome Polynomial} {f : MvPolynomial String ℚ}
    {a : Multivector} (ha : a.Canonical)
    (hop : ∀ p, p.Canonical → Yields (op p) (Polynomial.Denotes (p.value * f))) :
    Yields (do ofBlades (← a.terms.mapM fun t => return (t.1, ← op t.2)))
      (Denotes (f • a.value)) := by
  have hterm : ∀ t ∈ a.terms, Yields (do return (t.1, ← op t.2) : Outcome (Blade × Polynomial))
      (fun u => (CanonicalBlade u.1 ∧ u.2.Canonical) ∧ algebraTerm u.1 u.2.value
        = DistribSMul.toAddMonoidHom ConformalAlgebra f (algebraTerm t.1 t.2.value)) := by
    -- the blade of a term stays, its coefficient is multiplied
    intro t ht
    have hnormal := (canonical_iff.mp ha).2 t ht
    apply (hop t.2 hnormal.2).bind
    intro q h
    obtain ⟨hq, hvalue⟩ := h
    refine yields_pure ⟨⟨hnormal.1, hq⟩, ?_⟩
    show Clifford.single t.1.toFinset q.value = f • Clifford.single t.1.toFinset t.2.value
    rw [hvalue, Clifford.smul_single, mul_comm]
  apply (mapM_reading_yields (φ := algebraTerm) hterm).bind
  intro us h
  obtain ⟨hus, hreading⟩ := h
  apply (ofBlades_denotes hus).mono
  intro r h
  obtain ⟨hr, hvalue⟩ := h
  exact ⟨hr, hvalue.trans hreading⟩

/-- **Scaling is exact.** -/
theorem Denotes.scale {x : ConformalAlgebra} {f : MvPolynomial String ℚ} {a : Multivector}
    {p : Polynomial} (ha : Denotes x a) (hp : Polynomial.Denotes f p) :
    Yields (a.scale p) (Denotes (f • x)) := by
  obtain ⟨ha, rfl⟩ := ha
  exact mapCoefficients_yields ha fun q hq => Polynomial.Denotes.mul ⟨hq, rfl⟩ hp

/-- **Division by a number other than zero is exact.** -/
theorem Denotes.divScalar {x : ConformalAlgebra} {k : ℚ} {a : Multivector} {c : Fraction}
    (ha : Denotes x a) (hc : Fraction.Denotes k c) (hk : k ≠ 0) :
    Yields (a.divScalar c) (Denotes ((MvPolynomial.C k⁻¹ : MvPolynomial String ℚ) • x)) := by
  obtain ⟨ha, rfl⟩ := ha
  exact mapCoefficients_yields ha fun q hq => Polynomial.Denotes.divScalar ⟨hq, rfl⟩ hc hk

theorem mulTerm_yields {s t : Blade × Polynomial} (hs : CanonicalBlade s.1 ∧ s.2.Canonical)
    (ht : CanonicalBlade t.1 ∧ t.2.Canonical) :
    Yields (mulTerm s t) (fun u => (CanonicalBlade u.1 ∧ u.2.Canonical)
      ∧ algebraTerm u.1 u.2.value
        = algebraTerm s.1 s.2.value * algebraTerm t.1 t.2.value) := by
  refine (Polynomial.Denotes.mul ⟨hs.2, rfl⟩ ⟨ht.2, rfl⟩).bind fun p hp => ?_
  -- the word of both blades is brought into canonical form
  have hword : metric.InAlphabet (s.1 ++ t.1) := Metric.InAlphabet.append hs.1.2 ht.1.2
  rw [Metric.canonicalizeKnown_of_inAlphabet hword]
  apply (signedTerm_yields hword hp).mono
  intro u h
  obtain ⟨hu, hterm⟩ := h
  refine ⟨hu, ?_⟩
  rw [hterm, List.map_append, List.prod_append, Clifford.prod_axes hs.1.1,
    Clifford.prod_axes ht.1.1, algebraTerm, algebraTerm, Clifford.single_eq_smul _ s.2.value,
    Clifford.single_eq_smul _ t.2.value, smul_mul_smul_comm]

/-- **The geometric product is exact.** -/
theorem Denotes.mul {x y : ConformalAlgebra} {a b : Multivector} (ha : Denotes x a)
    (hb : Denotes y b) : Yields (a.mul b) (Denotes (x * y)) := by
  obtain ⟨ha, rfl⟩ := ha
  obtain ⟨hb, rfl⟩ := hb
  have hterm : ∀ s ∈ a.terms, ∀ t ∈ b.terms, Yields (mulTerm s t) (fun u =>
      (CanonicalBlade u.1 ∧ u.2.Canonical) ∧ algebraTerm u.1 u.2.value
        = algebraTerm s.1 s.2.value * algebraTerm t.1 t.2.value) :=
    fun s hs t ht =>
      mulTerm_yields ((canonical_iff.mp ha).2 s hs) ((canonical_iff.mp hb).2 t ht)
  apply (rows_reading_yields (φ := algebraTerm) hterm).bind
  intro rows h
  obtain ⟨hrows, hreading⟩ := h
  apply (ofBlades_denotes hrows).mono
  intro r h
  obtain ⟨hr, hvalue⟩ := h
  exact ⟨hr, hvalue.trans hreading⟩

/-! ## §5. The laws. -/

/-- **MULTIVECTORS FORM AN ASSOCIATIVE UNITAL ALGEBRA OVER THE POLYNOMIALS**:
unless a coefficient overflows on one side of a law, both sides answer with the
same stored terms. -/
theorem geometric_algebra {a b c : Multivector} {p : Polynomial} (ha : a.Canonical)
    (hb : b.Canonical) (hc : c.Canonical) (hp : p.Canonical) :
    Agree (do (← a.mul b).mul c) (do a.mul (← b.mul c))
      ∧ Agree (do a.mul (← b.add c)) (do (← a.mul b).add (← a.mul c))
      ∧ Agree (do (← a.add b).mul c) (do (← a.mul c).add (← b.mul c))
      ∧ Agree ((scalar Polynomial.one).mul a) (.ok a)
      ∧ Agree (a.mul (scalar Polynomial.one)) (.ok a)
      ∧ Agree (do (← a.scale p).mul b) (do a.mul (← b.scale p))
      ∧ Agree (do a.mul (← b.scale p)) (do (← a.mul b).scale p)
      ∧ Agree (do (← a.scale p).mul b) (do (← a.mul b).scale p) := by
  have hA : Denotes a.value a := ⟨ha, rfl⟩
  have hB : Denotes b.value b := ⟨hb, rfl⟩
  have hC : Denotes c.value c := ⟨hc, rfl⟩
  have hP : Polynomial.Denotes p.value p := ⟨hp, rfl⟩
  -- every side of a law is a program with one exact meaning
  have hone : Denotes 1 (scalar Polynomial.one) := by
    have h := scalar_denotes Polynomial.one_denotes
    rw [map_one] at h
    exact h
  have hscaled : Yields (do (← a.mul b).scale p) (Denotes (p.value • (a.value * b.value))) :=
    (hA.mul hB).bind fun _ h => h.scale hP
  have hleft : Yields (do (← a.scale p).mul b) (Denotes (p.value • (a.value * b.value))) := by
    rw [← smul_mul_assoc]
    exact (hA.scale hP).bind fun _ h => h.mul hB
  have hright : Yields (do a.mul (← b.scale p)) (Denotes (p.value • (a.value * b.value))) := by
    rw [← mul_smul_comm]
    exact (hB.scale hP).bind fun _ h => hA.mul h
  refine ⟨?_, ?_, ?_, ?_, ?_, agree_of_denotes hleft hright, agree_of_denotes hright hscaled,
    agree_of_denotes hleft hscaled⟩
  · -- associativity
    have hl : Yields (do (← a.mul b).mul c) (Denotes (a.value * b.value * c.value)) :=
      (hA.mul hB).bind fun _ h => h.mul hC
    rw [mul_assoc] at hl
    exact agree_of_denotes hl ((hB.mul hC).bind fun _ h => hA.mul h)
  · -- distributivity on the left
    have hl : Yields (do a.mul (← b.add c)) (Denotes (a.value * (b.value + c.value))) :=
      (hB.add hC).bind fun _ h => hA.mul h
    rw [mul_add] at hl
    exact agree_of_denotes hl ((hA.mul hB).bind fun _ h => (hA.mul hC).bind fun _ h' => h.add h')
  · -- distributivity on the right
    have hl : Yields (do (← a.add b).mul c) (Denotes ((a.value + b.value) * c.value)) :=
      (hA.add hB).bind fun _ h => h.mul hC
    rw [add_mul] at hl
    exact agree_of_denotes hl ((hA.mul hC).bind fun _ h => (hB.mul hC).bind fun _ h' => h.add h')
  · -- the left unit
    have hl := hone.mul hA
    rw [one_mul] at hl
    exact agree_of_denotes hl (yields_ok hA)
  · -- the right unit
    have hl := hA.mul hone
    rw [mul_one] at hl
    exact agree_of_denotes hl (yields_ok hA)

/-- The multivector `(t − 1/2) + 3 e₋x`, of mixed grades. -/
def mixed : Multivector :=
  ⟨[([], ⟨[(⟨[]⟩, ⟨-1, 2⟩), (⟨["t"]⟩, ⟨1, 1⟩)]⟩), ([0, 2], ⟨[(⟨[]⟩, ⟨3, 1⟩)]⟩)]⟩

/-- The laws for a mixed multivector, the origin, a vector and the variable `u`. -/
theorem geometric_algebra_mixed :
    (mixed.Canonical ∧ Conformal.origin.Canonical ∧ (unit [1]).Canonical
        ∧ (Polynomial.var "u").Canonical)
      ∧ Agree (do (← mixed.mul Conformal.origin).mul (unit [1]))
          (do mixed.mul (← Conformal.origin.mul (unit [1])))
      ∧ Agree (do (← mixed.scale (Polynomial.var "u")).mul Conformal.origin)
          (do (← mixed.mul Conformal.origin).scale (Polynomial.var "u")) := by
  have hmixed : mixed.Canonical := by decide
  have horigin : Conformal.origin.Canonical := by decide
  have hunit : (unit [1]).Canonical := by decide
  have hvar : (Polynomial.var "u").Canonical := by decide
  obtain ⟨hassoc, -, -, -, -, -, -, hscale⟩ := geometric_algebra hmixed horigin hunit hvar
  exact ⟨⟨hmixed, horigin, hunit, hvar⟩, hassoc, hscale⟩

end Multivector

end GeometricAlgebra
