/-
  GeometricAlgebra.Proofs.ScalarDivision
  ────────────────────────────────
  **DIVISION BY A NUMBER.**

  A polynomial tests the divisor before it looks at its terms.  A multivector leaves
  the test to its coefficients, so the division by zero is refused by the first
  coefficient, and not at all where there is none: the quotient of the zero
  multivector by zero is zero.

  Any other divisor has a reciprocal, and the quotient is the multiple by it,

      A / k  =  k⁻¹ · A        and        k · (A / k)  =  A.

  Main result:
    * `Multivector.scalar_division` — which divisions are refused, and the value of
      the others.
-/
import GeometricAlgebra.Proofs.MultivectorRing

namespace GeometricAlgebra

open Outcome

variable {k : Fraction}

/-! ## §1. Divisors. -/

/-- A divisor other than zero has a value other than zero, because zero has one normal
form. -/
theorem Fraction.value_ne_zero (hk : k.Normal) (h0 : k ≠ zero) : k.value ≠ 0 := by
  intro h
  have hzero : Denotes 0 zero := by simpa [zero] using ofInt_denotes 0
  exact h0 (value_injective hk hzero.1 (h.trans hzero.2.symm))

/-! ## §2. Quotients of a polynomial. -/

namespace Polynomial

variable {p : Polynomial}

theorem divScalar_zero (p : Polynomial) : p.divScalar .zero = .error .divisionByZero := rfl

/-- **Division is refused for the divisor zero and for no other.** -/
theorem Canonical.divScalar_eq_divisionByZero_iff (hp : p.Canonical) (hk : k.Normal) :
    p.divScalar k = .error .divisionByZero ↔ k = .zero := by
  constructor
  · intro h
    by_contra h0
    cases (Denotes.divScalar ⟨hp, rfl⟩ ⟨hk, rfl⟩ (Fraction.value_ne_zero hk h0)).failure_eq h
  · rintro rfl
    exact p.divScalar_zero

/-- **The quotient is the multiple by the reciprocal.** -/
theorem Canonical.divScalar_agree_scale (hp : p.Canonical) (hk : k.Normal) (h0 : k.value ≠ 0) :
    Agree (p.divScalar k) (do p.scale (← k.recip)) := by
  have hrecip : Yields (do p.scale (← k.recip)) (Denotes (p.value * MvPolynomial.C k.value⁻¹)) :=
    (Fraction.Denotes.recip ⟨hk, rfl⟩ h0).bind fun _ hr => Denotes.scale ⟨hp, rfl⟩ hr
  exact Yields.agree (fun _ _ => value_injective) (Denotes.divScalar ⟨hp, rfl⟩ ⟨hk, rfl⟩ h0) hrecip

/-- **A quotient times its divisor is the dividend.** -/
theorem Canonical.scale_divScalar (hp : p.Canonical) (hk : k.Normal) (h0 : k.value ≠ 0) :
    Agree (do (← p.divScalar k).scale k) (.ok p) := by
  have hback : Yields (do (← p.divScalar k).scale k)
      (Denotes (p.value * MvPolynomial.C k.value⁻¹ * MvPolynomial.C k.value)) :=
    (Denotes.divScalar ⟨hp, rfl⟩ ⟨hk, rfl⟩ h0).bind fun _ hq => hq.scale ⟨hk, rfl⟩
  rw [mul_assoc, ← map_mul, inv_mul_cancel₀ h0, map_one, mul_one] at hback
  exact Yields.agree (fun _ _ => value_injective) hback (yields_ok ⟨hp, rfl⟩)

end Polynomial

/-! ## §3. Quotients of a multivector. -/

namespace Multivector

variable {a : Multivector}

/-- The zero multivector has no coefficient that could refuse a divisor. -/
theorem zero_divScalar (k : Fraction) : zero.divScalar k = .ok zero := rfl

/-- Every other multivector has one, and the first of them refuses the divisor zero. -/
theorem divScalar_zero (h : a ≠ zero) : a.divScalar .zero = .error .divisionByZero := by
  obtain ⟨terms⟩ := a
  cases terms with
  | nil => exact absurd rfl h
  | cons t terms =>
    rw [Multivector.divScalar, List.mapM_cons, Polynomial.divScalar_zero]
    rfl

/-- **Division is refused for the divisor zero, provided that there is a coefficient to
divide, and for no other.** -/
theorem Canonical.divScalar_eq_divisionByZero_iff (ha : a.Canonical) (hk : k.Normal) :
    a.divScalar k = .error .divisionByZero ↔ k = .zero ∧ a ≠ zero := by
  constructor
  · intro h
    refine ⟨?_, ?_⟩
    · by_contra h0
      cases (Denotes.divScalar ⟨ha, rfl⟩ ⟨hk, rfl⟩ (Fraction.value_ne_zero hk h0)).failure_eq h
    · rintro rfl
      rw [zero_divScalar] at h
      cases h
  · rintro ⟨rfl, hne⟩
    exact divScalar_zero hne

/-- **The quotient is the multiple by the reciprocal.** -/
theorem Canonical.divScalar_agree_scale (ha : a.Canonical) (hk : k.Normal) (h0 : k.value ≠ 0) :
    Agree (a.divScalar k) (do a.scale (.constant (← k.recip))) := by
  have hrecip : Yields (do a.scale (.constant (← k.recip)))
      (Denotes ((MvPolynomial.C k.value⁻¹ : MvPolynomial String ℚ) • a.value)) :=
    (Fraction.Denotes.recip ⟨hk, rfl⟩ h0).bind fun _ hr =>
      Denotes.scale ⟨ha, rfl⟩ (Polynomial.constant_denotes hr)
  exact agree_of_denotes (Denotes.divScalar ⟨ha, rfl⟩ ⟨hk, rfl⟩ h0) hrecip

/-- **A quotient times its divisor is the dividend.** -/
theorem Canonical.scale_divScalar (ha : a.Canonical) (hk : k.Normal) (h0 : k.value ≠ 0) :
    Agree (do (← a.divScalar k).scale (.constant k)) (.ok a) := by
  have hback : Yields (do (← a.divScalar k).scale (.constant k)) (Denotes
      ((MvPolynomial.C k.value : MvPolynomial String ℚ) • (MvPolynomial.C k.value⁻¹
        : MvPolynomial String ℚ) • a.value)) :=
    (Denotes.divScalar ⟨ha, rfl⟩ ⟨hk, rfl⟩ h0).bind fun _ hb =>
      hb.scale (Polynomial.constant_denotes ⟨hk, rfl⟩)
  rw [smul_smul, ← map_mul, mul_inv_cancel₀ h0, map_one, one_smul] at hback
  exact agree_of_denotes hback (yields_ok ⟨ha, rfl⟩)

/-- **DIVISION BY A NUMBER**: a polynomial refuses the divisor zero, and no other; a
multivector refuses the divisor zero unless it is zero itself, in which case the quotient
is zero.  The quotient by any other number is the multiple by the reciprocal, and its
multiple by the divisor is the dividend; all this unless a step overflows. -/
theorem scalar_division {p : Polynomial} (ha : a.Canonical) (hp : p.Canonical) (hk : k.Normal) :
    (p.divScalar k = .error .divisionByZero ↔ k = .zero)
      ∧ (a.divScalar k = .error .divisionByZero ↔ k = .zero ∧ a ≠ zero)
      ∧ zero.divScalar k = .ok zero
      ∧ (k ≠ .zero →
        (Yields (p.divScalar k) (Polynomial.Denotes (p.value * MvPolynomial.C k.value⁻¹))
            ∧ Agree (p.divScalar k) (do p.scale (← k.recip))
            ∧ Agree (do (← p.divScalar k).scale k) (.ok p))
          ∧ Yields (a.divScalar k)
              (Denotes ((MvPolynomial.C k.value⁻¹ : MvPolynomial String ℚ) • a.value))
            ∧ Agree (a.divScalar k) (do a.scale (.constant (← k.recip)))
            ∧ Agree (do (← a.divScalar k).scale (.constant k)) (.ok a)) := by
  refine ⟨hp.divScalar_eq_divisionByZero_iff hk, ha.divScalar_eq_divisionByZero_iff hk,
    zero_divScalar k, fun h0 => ?_⟩
  have hvalue := Fraction.value_ne_zero hk h0
  exact ⟨⟨Polynomial.Denotes.divScalar ⟨hp, rfl⟩ ⟨hk, rfl⟩ hvalue,
    hp.divScalar_agree_scale hk hvalue, hp.scale_divScalar hk hvalue⟩,
    Denotes.divScalar ⟨ha, rfl⟩ ⟨hk, rfl⟩ hvalue, ha.divScalar_agree_scale hk hvalue,
    ha.scale_divScalar hk hvalue⟩

/-- The quotients of `(t − 1/2) + 3 e₋x` and of `t` by `−2/3` and by zero. -/
theorem scalar_division_mixed :
    (mixed.Canonical ∧ (Polynomial.var "t").Canonical ∧ Fraction.Normal ⟨-2, 3⟩)
      ∧ (∃ b, mixed.divScalar ⟨-2, 3⟩ = .ok b
        ∧ b.terms = [([], ⟨[(⟨[]⟩, ⟨3, 4⟩), (⟨["t"]⟩, ⟨-3, 2⟩)]⟩), ([0, 2], ⟨[(⟨[]⟩, ⟨-9, 2⟩)]⟩)]
        ∧ Agree (b.scale (.constant ⟨-2, 3⟩)) (.ok mixed))
      ∧ mixed.divScalar .zero = .error .divisionByZero
      ∧ (Polynomial.var "t").divScalar .zero = .error .divisionByZero := by
  have hmixed : mixed.Canonical := by decide
  have hvar : (Polynomial.var "t").Canonical := by decide
  have hk : Fraction.Normal ⟨-2, 3⟩ := by decide
  have hquotient : mixed.divScalar ⟨-2, 3⟩ = .ok ⟨[([], ⟨[(⟨[]⟩, ⟨3, 4⟩), (⟨["t"]⟩, ⟨-3, 2⟩)]⟩),
      ([0, 2], ⟨[(⟨[]⟩, ⟨-9, 2⟩)]⟩)]⟩ := by decide
  obtain ⟨-, -, -, hdivide⟩ := scalar_division hmixed hvar hk
  obtain ⟨-, -, -, hback⟩ := hdivide (by decide)
  obtain ⟨hpoly, hmv, -⟩ := scalar_division hmixed hvar (Fraction.normal_ofInt 0)
  refine ⟨⟨hmixed, hvar, hk⟩, ⟨_, hquotient, rfl, ?_⟩, hmv.mpr ⟨rfl, by decide⟩, hpoly.mpr rfl⟩
  rw [hquotient] at hback
  exact hback

/-- Zero by zero is refused by the polynomial zero and not by the multivector zero. -/
theorem zero_divScalar_zero :
    Polynomial.zero.divScalar .zero = .error .divisionByZero ∧ zero.divScalar .zero = .ok zero
      ∧ ¬ ∀ (a : Multivector) (k : Fraction), a.Canonical → k.Normal →
        (a.divScalar k = .error .divisionByZero ↔ k = .zero) := by
  refine ⟨rfl, rfl, fun h => ?_⟩
  have hrefused := (h zero .zero (by decide) (Fraction.normal_ofInt 0)).mpr rfl
  cases hrefused

end Multivector

end GeometricAlgebra
