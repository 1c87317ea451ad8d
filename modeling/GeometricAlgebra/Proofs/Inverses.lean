/-
  GeometricAlgebra.Proofs.Inverses
  ────────────────────────────────
  **WHEN THE INVERSE IS AN INVERSE.**

  The inverse of a multivector is its reversal over a number, and the number is
  the scalar part of the norm, the product of both.  Nothing asks whether the
  norm has other parts: where it has, the quotient is answered all the same and
  inverts the multivector on neither side.  Where it has none, as for all
  products of vectors with invertible squares, the quotient is a right inverse
  by its definition, and a left inverse because finitely many axes span a finite
  algebra.

  Main results:
    * `Clifford` is Dedekind-finite — one-sided inverses are inverses.
    * `Multivector.inverse_exact_iff` — what is answered, what is refused, and
      which answers are inverses.
    * `Multivector.versor_inverse` — versors are inverted on both sides.
-/
import GeometricAlgebra.Proofs.BuiltValues
import GeometricAlgebra.Proofs.Reversal

namespace GeometricAlgebra

open Outcome

/-! ## §1. One-sided inverses. -/

namespace Clifford

section Within

variable (metric : Metric) (R : Type) [CommRing R]

/-- The elements that involve no other axes than the given ones. -/
noncomputable def within (S : Finset Axis) : Submodule R (Clifford metric R) :=
  Submodule.span R ((fun K => single K 1) '' (S.powerset : Set (Finset Axis)))

theorem within_fg (S : Finset Axis) : (within metric R S).FG :=
  Submodule.fg_span (S.powerset.finite_toSet.image _)

end Within

variable {metric : Metric} {R : Type} [CommRing R]

theorem single_mem_within {K S : Finset Axis} (h : K ⊆ S) (a : R) :
    single K a ∈ within metric R S := by
  rw [single_eq_smul]
  exact Submodule.smul_mem _ a (Submodule.subset_span ⟨K, Finset.mem_powerset.mpr h, rfl⟩)

theorem within_mono {S T : Finset Axis} (h : S ⊆ T) : within metric R S ≤ within metric R T :=
  Submodule.span_mono (Set.image_mono (Finset.coe_subset.mpr (Finset.powerset_mono.mpr h)))

/-- Every element involves finitely many axes. -/
theorem exists_mem_within (x : Clifford metric R) : ∃ S, x ∈ within metric R S := by
  induction x using induction_on with
  | single K a => exact ⟨K, single_mem_within subset_rfl a⟩
  | add x y hx hy =>
    obtain ⟨S, hS⟩ := hx
    obtain ⟨T, hT⟩ := hy
    exact ⟨S ∪ T, add_mem (within_mono Finset.subset_union_left hS)
      (within_mono Finset.subset_union_right hT)⟩

/-- Products involve no new axes. -/
theorem mul_mem_within {S : Finset Axis} {x y : Clifford metric R} (hx : x ∈ within metric R S)
    (hy : y ∈ within metric R S) : x * y ∈ within metric R S := by
  have hle : within metric R S * within metric R S ≤ within metric R S := by
    rw [within, Submodule.span_mul_span, Submodule.span_le]
    rintro _ ⟨_, ⟨K, hK, rfl⟩, _, ⟨L, hL, rfl⟩, rfl⟩
    show single K 1 * single L 1 ∈ within metric R S
    have hsub : symmDiff K L ⊆ S := symmDiff_le_sup.trans
      (Finset.union_subset (Finset.mem_powerset.mp hK) (Finset.mem_powerset.mp hL))
    rw [single_mul_single]
    exact zsmul_mem (single_mem_within hsub _) _
  exact hle (Submodule.mul_mem_mul hx hy)

/-- Multiplication from the left, among the elements with some axes. -/
noncomputable def mulLeftWithin {S : Finset Axis} {x : Clifford metric R}
    (hx : x ∈ within metric R S) : within metric R S →ₗ[R] within metric R S :=
  (LinearMap.mulLeft R x).restrict fun _ hz => mul_mem_within hx hz

/-- **ONE-SIDED INVERSES ARE INVERSES**: an element with a right inverse multiplies
onto the finite module of the axes that both involve, hence injectively. -/
instance : IsDedekindFiniteMonoid (Clifford metric R) where
  mul_eq_one_symm := by
    intro x y h
    obtain ⟨S, hS⟩ := exists_mem_within x
    obtain ⟨T, hT⟩ := exists_mem_within y
    have hx : x ∈ within metric R (S ∪ T) := within_mono Finset.subset_union_left hS
    have hy : y ∈ within metric R (S ∪ T) := within_mono Finset.subset_union_right hT
    have hone : 1 ∈ within metric R (S ∪ T) := single_mem_within (Finset.empty_subset _) 1
    have hfinite : Module.Finite R (within metric R (S ∪ T)) :=
      Module.Finite.iff_fg.mpr (within_fg metric R _)
    have hsurjective : Function.Surjective (mulLeftWithin hx) := by
      intro z
      refine ⟨⟨y * z, mul_mem_within hy z.2⟩, Subtype.ext ?_⟩
      show x * (y * z) = z
      rw [← mul_assoc, h, one_mul]
    have hinjective :=
      OrzechProperty.injective_of_surjective_endomorphism (mulLeftWithin hx) hsurjective
    -- `y x` and 1 have the same product with `x`
    have heq : (⟨y * x, mul_mem_within hy hx⟩ : within metric R (S ∪ T)) = ⟨1, hone⟩ := by
      refine hinjective (Subtype.ext ?_)
      show x * (y * x) = x * 1
      rw [← mul_assoc, h, one_mul, mul_one]
    exact congrArg Subtype.val heq

/-- Scaling is multiplication by a scalar. -/
theorem smul_eq_algebraMap_mul (r : R) (x : Clifford metric R) : r • x = algebraMap R _ r * x :=
  Algebra.smul_def r x

end Clifford

/-! ## §2. Numbers to divide by. -/

namespace Fraction

/-- A number to divide by: in lowest terms, and not zero. -/
def Divisor (n : Fraction) : Prop := n.Normal ∧ n.isZero = false

instance (n : Fraction) : Decidable n.Divisor := inferInstanceAs (Decidable (_ ∧ _))

theorem Divisor.value_ne_zero {n : Fraction} (hn : n.Divisor) : n.value ≠ 0 :=
  SortedTerms.value_ne_zero (v := n) hn.1 hn.2

/-- Every rational number is the value of a fraction. -/
theorem exists_denotes (q : ℚ) : ∃ n, Denotes q n :=
  ⟨⟨q.num, q.den⟩, ⟨Int.natCast_pos.mpr q.den_pos, q.reduced⟩, q.num_div_den⟩

theorem Denotes.divisor {q : ℚ} {n : Fraction} (h : Denotes q n) (hq : q ≠ 0) : n.Divisor := by
  rw [← h.2] at hq
  exact ⟨h.1, SortedTerms.isZero_eq_false (v := n) h.1 hq⟩

/-- A distance can only overflow. -/
theorem abs_yields (x : Fraction) : Yields x.abs (fun _ => True) := by
  unfold Fraction.abs
  split
  · exact (word_yields _).bind fun _ _ => yields_pure trivial
  · exact yields_ok trivial

end Fraction

namespace Polynomial

open SortedTerms

/-- A piece can only overflow. -/
theorem renderTerm_yields (form : TextForm) (t : Monomial × Fraction) :
    Yields (renderTerm form t) (fun _ => True) :=
  (Fraction.abs_yields t.2).bind fun _ _ => yields_pure trivial

/-- A text can only overflow. -/
theorem render_yields (form : TextForm) (p : Polynomial) :
    Yields (p.render form) (fun _ => True) := by
  have hterm : ∀ t ∈ p.terms, Yields (renderTerm form t) (fun _ => True ∧ () = ()) :=
    fun t _ => (renderTerm_yields form t).mono fun _ _ => ⟨trivial, rfl⟩
  exact (Yields.mapM (φ := fun _ => ()) (ψ := fun _ => ()) hterm).bind
    fun _ _ => yields_pure trivial

/-- A number other than zero is a single term. -/
theorem constant_eq {n : Fraction} (h0 : n.isZero = false) :
    constant n = ⟨[(Monomial.one, n)]⟩ := if_neg (Bool.eq_false_iff.mp h0)

/-- The reciprocal of a number. -/
theorem recip_constant {n : Fraction} (h0 : n.isZero = false) :
    (constant n).recip = (do return constant (← n.recip)) := by
  rw [constant_eq h0]
  rfl

/-- A polynomial that is not one constant term is refused, and so is zero. -/
theorem recip_eq_refuse {p : Polynomial} (h : ∀ c, p.terms ≠ [(Monomial.one, c)]) :
    p.recip = recip.refuse p := by
  unfold Polynomial.recip
  split
  next hterms =>
    -- the text of zero is known
    rw [recip.refuse, render, hterms]
    rfl
  next m c hterms =>
    split
    next hone =>
      have hm : m = Monomial.one := by
        cases m
        exact congrArg _ (List.isEmpty_iff.mp hone)
      exact absurd (hm ▸ hterms) (h c)
    next => rfl
  next => rfl

/-- **What is no number other than zero has no reciprocal**; the refusal quotes it. -/
theorem Canonical.recip_refused {p : Polynomial} (hp : p.Canonical)
    (h : ∀ n, n.Divisor → p ≠ constant n) : p.recip = .error .overflow
      ∨ ∃ text, p.render .plain = .ok text ∧ p.recip = .error (.notInvertible text) := by
  rw [recip_eq_refuse]
  · unfold recip.refuse
    cases render_yields .plain p with
    | answer text htext _ => exact Or.inr ⟨text, htext, by rw [htext]; rfl⟩
    | overflow hover => exact Or.inl (by rw [hover]; rfl)
  · intro c hterms
    -- a single constant term is the constant of its coefficient
    obtain ⟨⟨-, hc, hc0⟩, -⟩ := isNormal_cons.mp (hterms ▸ canonical_iff.mp hp)
    refine h c ⟨hc, hc0⟩ ?_
    have hp : p = ⟨[(Monomial.one, c)]⟩ := by
      cases p
      exact congrArg _ hterms
    rw [hp]
    exact (constant_eq hc0).symm

end Polynomial

namespace Multivector

open SortedTerms

/-! ## §3. Scalars. -/

theorem one_denotes : Denotes 1 (scalar .one) := by
  have h := scalar_denotes Polynomial.one_denotes
  rwa [map_one] at h

/-- The numbers among the elements of the algebra. -/
noncomputable def number : ℚ →+* ConformalAlgebra :=
  (algebraMap (MvPolynomial String ℚ) ConformalAlgebra).comp MvPolynomial.C

theorem number_denotes {q : ℚ} {n : Fraction} (hn : Fraction.Denotes q n) :
    Denotes (number q) (scalar (.constant n)) :=
  scalar_denotes (Polynomial.constant_denotes hn)

/-- Numbers commute with everything. -/
theorem number_mul_comm (q : ℚ) (x : ConformalAlgebra) : number q * x = x * number q :=
  Algebra.commutes (MvPolynomial.C q : MvPolynomial String ℚ) x

/-- A factor over a number is an inverse if the product is that number. -/
theorem mul_over_eq_one_iff {q : ℚ} (hq : q ≠ 0) {x y : ConformalAlgebra} :
    x * (number q⁻¹ * y) = 1 ↔ x * y = number q := by
  have hunit : number q⁻¹ * number q = 1 := by
    rw [← map_mul, inv_mul_cancel₀ hq, map_one]
  rw [← mul_assoc, ← number_mul_comm, mul_assoc]
  constructor
  · intro h
    rw [← mul_one (number q), ← h, ← mul_assoc, number_mul_comm, hunit, one_mul]
  · intro h
    rw [h, hunit]

theorem scalarPart_scalar (p : Polynomial) : (scalar p).scalarPart = p := by
  unfold scalar
  split
  next h0 => exact (Polynomial.isZero_iff.mp h0).symm
  next => rfl

/-! ## §4. The inverse. -/

/-- The norm of a multivector: its product with its reversal. -/
def mulRev (a : Multivector) : Outcome Multivector := do a.mul (← a.rev)

/-- The reversal of a multivector over a number. -/
def revOver (a : Multivector) (n : Fraction) : Outcome Multivector := do
  (← a.rev).scale (.constant (← n.recip))

theorem Denotes.mulRev {x : ConformalAlgebra} {a : Multivector} (ha : Denotes x a) :
    Yields a.mulRev (Denotes (x * Clifford.reverse x)) :=
  ha.rev.bind fun _ h => ha.mul h

/-- **The reversal over a number is exact.** -/
theorem Denotes.revOver {x : ConformalAlgebra} {a : Multivector} {q : ℚ} {n : Fraction}
    (ha : Denotes x a) (hn : Fraction.Denotes q n) (hq : q ≠ 0) :
    Yields (a.revOver n) (Denotes (number q⁻¹ * Clifford.reverse x)) := by
  refine ha.rev.bind fun reversed h => (hn.recip hq).bind fun r hr => ?_
  have hscale := h.scale (Polynomial.constant_denotes hr)
  rw [Clifford.smul_eq_algebraMap_mul] at hscale
  exact hscale

/-- The inverse takes the reciprocal of the scalar part of the norm. -/
theorem inverse_eq (a : Multivector) : a.inverse = (do
    let norm ← a.mulRev
    let r ← norm.scalarPart.recip
    (← a.rev).scale r) := by
  unfold Multivector.inverse Multivector.mulRev
  cases a.rev with
  | error failure => rfl
  | ok reversed => rfl

section Norm

variable {a norm : Multivector} (hnorm : a.mulRev = .ok norm)
include hnorm

/-- **A scalar part that is a number is divided by.** -/
theorem inverse_eq_revOver {n : Fraction} (hn : n.Divisor) (h : norm.scalarPart = .constant n) :
    a.inverse = a.revOver n := by
  rw [inverse_eq, hnorm]
  show norm.scalarPart.recip >>= _ = _
  rw [h, Polynomial.recip_constant hn.2, Multivector.revOver]
  -- the reversal has an answer, so it does not matter when it is computed
  cases hrev : a.rev with
  | error failure =>
    rw [Multivector.mulRev, hrev] at hnorm
    cases hnorm
  | ok reversed =>
    cases n.recip with
    | error failure => rfl
    | ok r => rfl

/-- A scalar part without a reciprocal fails the inverse. -/
theorem inverse_eq_error {failure : Failure} (h : norm.scalarPart.recip = .error failure) :
    a.inverse = .error failure := by
  rw [inverse_eq, hnorm]
  show norm.scalarPart.recip >>= _ = _
  rw [h]
  rfl

/-- **Every other scalar part is refused.** -/
theorem inverse_refused (ha : a.Canonical)
    (h : ∀ n, n.Divisor → norm.scalarPart ≠ .constant n) : a.inverse = .error .overflow
      ∨ ∃ text, norm.scalarPart.render .plain = .ok text
        ∧ a.inverse = .error (.notInvertible text) := by
  have hcanonical : norm.Canonical := ((Denotes.mulRev ⟨ha, rfl⟩).ensures _ hnorm).1
  rcases (hcanonical.coefficientOf []).recip_refused h with hover | ⟨text, htext, hrefused⟩
  · exact Or.inl (inverse_eq_error hnorm hover)
  · exact Or.inr ⟨text, htext, inverse_eq_error hnorm hrefused⟩

/-- **A quotient is an inverse on one side iff it is one on the other, iff the
norm is the number it was divided by.** -/
theorem mul_revOver_eq_one_iff (ha : a.Canonical) {b : Multivector} {n : Fraction}
    (hn : n.Divisor) (hb : a.revOver n = .ok b) :
    Yields (a.mul b) (fun c => c = scalar .one ↔ norm = scalar (.constant n))
      ∧ Yields (b.mul a) (fun c => c = scalar .one ↔ norm = scalar (.constant n)) := by
  have hA : Denotes a.value a := ⟨ha, rfl⟩
  have hN : Fraction.Denotes n.value n := ⟨hn.1, rfl⟩
  have hB := (hA.revOver hN hn.value_ne_zero).ensures _ hb
  have hS := hA.mulRev.ensures _ hnorm
  have hright : a.value * (number n.value⁻¹ * Clifford.reverse a.value) = 1
      ↔ norm = scalar (.constant n) := by
    rw [mul_over_eq_one_iff hn.value_ne_zero, hS.eq_iff (number_denotes hN)]
  constructor
  · apply (hA.mul hB).mono
    intro c hc
    rw [hc.eq_iff one_denotes, hright]
  · apply (hB.mul hA).mono
    intro c hc
    rw [hc.eq_iff one_denotes, mul_eq_one_comm, hright]

end Norm

/-- **WHAT THE INVERSE ANSWERS**: the reversal over the scalar part of the norm,
if that is a number other than zero; and this is an inverse, on both sides
alike, iff the norm has no part but that number.  Every other failure than an
overflow is a refusal that quotes a scalar part which is no such number. -/
theorem inverse_exact_iff {a : Multivector} (ha : a.Canonical) :
    (∀ b, a.inverse = .ok b → ∃ norm n, a.mulRev = .ok norm ∧ n.Divisor
        ∧ norm.scalarPart = .constant n ∧ a.revOver n = .ok b
        ∧ Yields (a.mul b) (fun c => c = scalar .one ↔ norm = scalar (.constant n))
        ∧ Yields (b.mul a) (fun c => c = scalar .one ↔ norm = scalar (.constant n)))
      ∧ (∀ failure, a.inverse = .error failure → failure = .overflow
        ∨ ∃ norm text, a.mulRev = .ok norm ∧ norm.scalarPart.render .plain = .ok text
          ∧ failure = .notInvertible text ∧ ∀ n, n.Divisor → norm.scalarPart ≠ .constant n) := by
  have hA : Denotes a.value a := ⟨ha, rfl⟩
  cases hA.mulRev with
  | overflow hnorm =>
    have hover : a.inverse = .error .overflow := by
      rw [inverse_eq, hnorm]
      rfl
    rw [hover]
    exact ⟨nofun, fun failure h => Or.inl (Except.error.inj h).symm⟩
  | answer norm hnorm hS =>
    by_cases hnumber : ∃ n : Fraction, n.Divisor ∧ norm.scalarPart = .constant n
    · obtain ⟨n, hn, hpart⟩ := hnumber
      have hrev := hA.revOver ⟨hn.1, rfl⟩ hn.value_ne_zero
      rw [inverse_eq_revOver hnorm hn hpart]
      refine ⟨fun b hb => ?_, fun failure h => Or.inl (hrev.failure_eq h)⟩
      exact ⟨norm, n, hnorm, hn, hpart, hb, mul_revOver_eq_one_iff hnorm ha hn hb⟩
    · have hnone : ∀ n : Fraction, n.Divisor → norm.scalarPart ≠ .constant n :=
        fun n hn h => hnumber ⟨n, hn, h⟩
      rcases inverse_refused hnorm ha hnone with hover | ⟨text, htext, hrefused⟩
      · rw [hover]
        exact ⟨nofun, fun failure h => Or.inl (Except.error.inj h).symm⟩
      · rw [hrefused]
        refine ⟨nofun, fun failure h => Or.inr ⟨norm, text, hnorm, htext, ?_, hnone⟩⟩
        exact (Except.error.inj h).symm

/-- The rotor `2 + 2xy`. -/
def rotor : Multivector := ⟨[([], .ofInt 2), ([2, 3], .ofInt 2)]⟩

/-- The rotor has the inverse `1/4 − xy/4`. -/
theorem inverse_exact_iff_rotor : rotor.Canonical ∧ ∃ b, rotor.inverse = .ok b
    ∧ b.coefficientOf [2, 3] = .constant ⟨-1, 4⟩
    ∧ ∃ norm n, rotor.mulRev = .ok norm ∧ n.Divisor ∧ norm.scalarPart = .constant n
      ∧ rotor.revOver n = .ok b
      ∧ Yields (rotor.mul b) (fun c => c = scalar .one ↔ norm = scalar (.constant n))
      ∧ Yields (b.mul rotor) (fun c => c = scalar .one ↔ norm = scalar (.constant n)) := by
  have hrotor : rotor.Canonical := by decide
  have hinverse : rotor.inverse
      = .ok ⟨[([], .constant ⟨1, 4⟩), ([2, 3], .constant ⟨-1, 4⟩)]⟩ := by decide
  exact ⟨hrotor, _, hinverse, rfl, (inverse_exact_iff hrotor).1 _ hinverse⟩

/-- Twice the idempotent `(1 + x)/2`. -/
def onePlusX : Multivector := ⟨[([], .one), ([2], .one)]⟩

/-- **An answer that is no inverse**: `1 + x` is answered `(1 + x)/2`, and both
products are `1 + x`. -/
theorem inverse_not_exact : onePlusX.Canonical
    ∧ ∃ b, onePlusX.inverse = .ok b ∧ onePlusX.mul b = .ok onePlusX
      ∧ b.mul onePlusX = .ok onePlusX ∧ onePlusX ≠ scalar .one := by
  have hinverse : onePlusX.inverse
      = .ok ⟨[([], .constant Fraction.half), ([2], .constant Fraction.half)]⟩ := by decide
  exact ⟨by decide, _, hinverse, by decide, by decide, by decide⟩

/-! ## §5. Versors. -/

/-- **Versors**: vectors whose squares are numbers other than zero, and products
of versors in any bracketing. -/
inductive Versor : Multivector → Prop where
  | one : Versor (scalar .one)
  | vector {v : Multivector} {n : Fraction} (hv : v.Canonical) (hgrade : v.Homogeneous 1)
      (hn : n.Divisor) (h : v.mul v = .ok (scalar (.constant n))) : Versor v
  | mul {a b c : Multivector} (ha : Versor a) (hb : Versor b) (h : a.mul b = .ok c) : Versor c

/-- **The norm of a versor is a number other than zero.** -/
theorem Versor.norm_eq {a : Multivector} (h : Versor a) : a.Canonical
    ∧ ∃ q : ℚ, q ≠ 0 ∧ a.value * Clifford.reverse a.value = number q := by
  induction h with
  | one =>
    refine ⟨one_denotes.1, 1, one_ne_zero, ?_⟩
    rw [one_denotes.2, Clifford.reverse_one, one_mul, map_one]
  | @vector v n hv hgrade hn h =>
    have hV : Denotes v.value v := ⟨hv, rfl⟩
    have hself := Clifford.reverse_of_grade_one ((homogeneous_iff hV).mp hgrade)
    refine ⟨hv, n.value, hn.value_ne_zero, ?_⟩
    rw [hself, ← ((hV.mul hV).ensures _ h).2]
    exact (number_denotes ⟨hn.1, rfl⟩).2
  | @mul a b c _ _ h iha ihb =>
    obtain ⟨ha, q, hq, hqa⟩ := iha
    obtain ⟨hb, r, hr, hrb⟩ := ihb
    obtain ⟨hc, hvalue⟩ := (Denotes.mul ⟨ha, rfl⟩ ⟨hb, rfl⟩).ensures _ h
    refine ⟨hc, q * r, mul_ne_zero hq hr, ?_⟩
    -- the norm of the right factor is a number and leaves the middle
    calc c.value * Clifford.reverse c.value
        = a.value * (b.value * Clifford.reverse b.value) * Clifford.reverse a.value := by
          rw [hvalue, Clifford.reverse_mul, mul_assoc, mul_assoc, mul_assoc]
      _ = number r * (a.value * Clifford.reverse a.value) := by
          rw [hrb, ← number_mul_comm, mul_assoc]
      _ = number (q * r) := by
          rw [hqa, ← map_mul, mul_comm]

/-- **VERSORS ARE INVERTED ON BOTH SIDES**: if the norm is a number other than
zero, the inverse is the reversal over that number, and both products with it
are 1; and the norm of every versor is such a number. -/
theorem versor_inverse {a : Multivector} (ha : a.Canonical) :
    (∀ n : Fraction, n.Divisor → a.mulRev = .ok (scalar (.constant n)) →
      a.inverse = a.revOver n ∧ Yields a.inverse (fun w =>
        Yields (a.mul w) (· = scalar .one) ∧ Yields (w.mul a) (· = scalar .one)))
      ∧ (Versor a → Yields a.mulRev (fun norm =>
        ∃ n : Fraction, n.Divisor ∧ norm = scalar (.constant n))) := by
  have hA : Denotes a.value a := ⟨ha, rfl⟩
  constructor
  · intro n hn hnorm
    have hrev := inverse_eq_revOver hnorm hn (scalarPart_scalar _)
    refine ⟨hrev, ?_⟩
    rw [hrev]
    cases hA.revOver ⟨hn.1, rfl⟩ hn.value_ne_zero with
    | overflow hover => exact .overflow hover
    | answer w hw _ =>
      obtain ⟨hright, hleft⟩ := mul_revOver_eq_one_iff hnorm ha hn hw
      exact .answer w hw ⟨hright.mono fun _ h => h.mpr rfl, hleft.mono fun _ h => h.mpr rfl⟩
  · intro hversor
    obtain ⟨-, q, hq, hnorm⟩ := hversor.norm_eq
    obtain ⟨n, hn⟩ := Fraction.exists_denotes q
    apply hA.mulRev.mono
    intro norm hS
    exact ⟨n, hn.divisor hq, (hS.eq_iff (number_denotes hn)).mpr hnorm⟩

/-- The rotor is the product of the vectors `2x` and `x + y`. -/
theorem versor_inverse_rotor : rotor.Canonical ∧ Versor rotor
    ∧ rotor.mulRev = .ok (scalar (.constant (.ofInt 8)))
    ∧ (∃ w, rotor.inverse = .ok w
      ∧ Yields (rotor.mul w) (· = scalar .one) ∧ Yields (w.mul rotor) (· = scalar .one))
    ∧ Yields rotor.mulRev (fun norm =>
      ∃ n : Fraction, n.Divisor ∧ norm = scalar (.constant n)) := by
  have hrotor : rotor.Canonical := by decide
  have hx : Versor ⟨[([2], .ofInt 2)]⟩ :=
    .vector (n := .ofInt 4) (by decide) (by decide) (by decide) (by decide)
  have hxy : Versor ⟨[([2], .one), ([3], .one)]⟩ :=
    .vector (n := .ofInt 2) (by decide) (by decide) (by decide) (by decide)
  have hversor : Versor rotor := .mul hx hxy (by decide)
  have hnorm : rotor.mulRev = .ok (scalar (.constant (.ofInt 8))) := by decide
  have hinverse : rotor.inverse
      = .ok ⟨[([], .constant ⟨1, 4⟩), ([2, 3], .constant ⟨-1, 4⟩)]⟩ := by decide
  obtain ⟨hexact, hnumber⟩ := versor_inverse hrotor
  obtain ⟨-, hboth⟩ := hexact _ (by decide) hnorm
  exact ⟨hrotor, hversor, hnorm, ⟨_, hinverse, hboth.ensures _ hinverse⟩, hnumber hversor⟩

end Multivector

end GeometricAlgebra
