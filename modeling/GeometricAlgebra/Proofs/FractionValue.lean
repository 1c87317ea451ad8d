/-
  GeometricAlgebra.Proofs.FractionValue
  ────────────────────────────────
  **FRACTIONS OF WORDS ARE RATIONAL NUMBERS.**

  A fraction in normal form is one way, and the only one, to write its value
  (`Fraction.value_injective`).  Sums and products of fractions in normal form
  are in normal form and have the exact value, unless a word overflows on the
  way (`Fraction.Denotes.add`, `Fraction.Denotes.mul`).
-/
import GeometricAlgebra.Fraction
import GeometricAlgebra.Proofs.Overflow

namespace GeometricAlgebra.Fraction

open Outcome

/-! ## §1. The value of a fraction. -/

/-- The rational number that a fraction stands for. -/
def value (x : Fraction) : ℚ := (x.num : ℚ) / (x.den : ℚ)

/-- The fraction is in normal form and stands for the number `q`. -/
def Denotes (q : ℚ) (x : Fraction) : Prop := x.Normal ∧ x.value = q

theorem ofInt_denotes (n : Int) : Denotes n (ofInt n) := by
  refine ⟨normal_ofInt n, ?_⟩
  simp [value, ofInt]

/-- **The normal form of a number is unique.** -/
theorem value_injective {x y : Fraction} (hx : x.Normal) (hy : y.Normal)
    (h : x.value = y.value) : x = y := by
  have hboth : x.num = y.num ∧ x.den = y.den :=
    Rat.div_int_inj hx.1 hy.1 hx.2 hy.2 h
  cases x
  cases y
  cases hboth.1
  cases hboth.2
  rfl

theorem isZero_iff_value {x : Fraction} (hx : x.Normal) : x.isZero = true ↔ x.value = 0 := by
  have hden : (x.den : ℚ) ≠ 0 := by
    have hpos := hx.1
    exact_mod_cast hpos.ne'
  rw [isZero_iff, value, div_eq_zero_iff]
  simp [hden]

/-! ## §2. Words. -/

theorem word_yields (n : Int) : Yields (Word.ofInt n) (· = n) := by
  by_cases h : Word.Fits n
  · rw [Word.ofInt_of_fits h]
    exact yields_ok rfl
  · rw [Word.ofInt_of_not_fits h]
    exact yields_overflow

theorem gcd_yields (m n : Int) : Yields (gcd m n) (· = (Int.gcd m n : Int)) := word_yields _

/-- A common denominator: positive, and a multiple of both. -/
theorem lcm_yields {m n : Int} (hm : 0 < m) (hn : 0 < n) :
    Yields (lcm m n) (fun l => 0 < l ∧ m ∣ l ∧ n ∣ l) := by
  apply (gcd_yields m n).bind_eq
  apply (word_yields _).mono
  intro _ h
  subst h
  have hg : 0 < (Int.gcd m n : Int) := by
    have hne : Int.gcd m n ≠ 0 := fun h => hm.ne' (Int.gcd_eq_zero_iff.mp h).1
    omega
  obtain ⟨a, ha⟩ := Int.gcd_dvd_left m n
  obtain ⟨b, hb⟩ := Int.gcd_dvd_right m n
  have hquot : n / (Int.gcd m n : Int) = b := Int.ediv_eq_of_eq_mul_right hg.ne' hb
  have hbpos : 0 < b := by
    rw [hb] at hn
    exact pos_of_mul_pos_right hn hg.le
  rw [hquot]
  refine ⟨mul_pos hm hbpos, Dvd.intro b rfl, ?_⟩
  refine ⟨a, ?_⟩
  calc m * b = (Int.gcd m n : Int) * a * b := by rw [← ha]
    _ = (Int.gcd m n : Int) * b * a := by ring
    _ = n * a := by rw [← hb]

/-! ## §3. Arithmetic. -/

/-- Cancelling the common factor gives lowest terms. -/
theorem cancel_denotes (num : Int) {den : Int} (hden : 0 < den) :
    Denotes ((num : ℚ) / den) ⟨num / (Int.gcd num den : Int), den / (Int.gcd num den : Int)⟩ := by
  have hg : 0 < Int.gcd num den := Int.gcd_pos_of_ne_zero_right num hden.ne'
  have hgq : ((Int.gcd num den : Int) : ℚ) ≠ 0 := by exact_mod_cast hg.ne'
  refine ⟨⟨?_, Int.gcd_ediv_gcd_ediv_gcd hg⟩, ?_⟩
  · exact Int.ediv_pos_of_pos_of_dvd hden (by omega) (Int.gcd_dvd_right num den)
  · show ((num / (Int.gcd num den : Int) : Int) : ℚ) / ((den / (Int.gcd num den : Int) : Int) : ℚ) = _
    rw [Int.cast_div (Int.gcd_dvd_left num den) hgq, Int.cast_div (Int.gcd_dvd_right num den) hgq,
      div_div_div_cancel_right₀ hgq]

/-- **Reduction is exact**, whatever the sign of the denominator. -/
theorem reduce_denotes (num : Int) {den : Int} (hden : den ≠ 0) :
    Yields (reduce num den) (Denotes ((num : ℚ) / den)) := by
  unfold reduce
  rw [if_neg hden]
  split
  next hzero =>
    refine yields_ok ⟨normal_ofInt 0, ?_⟩
    simp [value, zero, ofInt, hzero]
  next =>
    split
    next heq =>
      have hq : (den : ℚ) ≠ 0 := by exact_mod_cast hden
      refine yields_ok ⟨normal_ofInt 1, ?_⟩
      simp [value, one, ofInt, heq, hq]
    next =>
      apply (gcd_yields num den).bind_eq
      split
      next hneg =>
        -- a negative denominator: the same fraction with both words negated
        apply (word_yields _).bind_eq
        apply (word_yields _).bind_eq
        have hden' : 0 < -den := by omega
        have hflip := cancel_denotes (-num) hden'
        rw [Int.gcd_neg, Int.neg_gcd,
          Int.neg_ediv_of_dvd (Int.gcd_dvd_left num den),
          Int.neg_ediv_of_dvd (Int.gcd_dvd_right num den), Int.cast_neg, Int.cast_neg,
          neg_div_neg_eq] at hflip
        exact yields_pure hflip
      next hpos =>
        exact yields_pure (cancel_denotes num (by omega))

/-- **Addition is exact.** -/
theorem Denotes.add {q r : ℚ} {x y : Fraction} (hx : Denotes q x) (hy : Denotes r y) :
    Yields (x.add y) (Denotes (q + r)) := by
  obtain ⟨hx, rfl⟩ := hx
  obtain ⟨hy, rfl⟩ := hy
  have hxq : (x.den : ℚ) ≠ 0 := by exact_mod_cast hx.1.ne'
  have hyq : (y.den : ℚ) ≠ 0 := by exact_mod_cast hy.1.ne'
  unfold Fraction.add
  split
  next hden =>
    -- equal denominators: only the numerators are added
    apply (word_yields _).bind_eq
    have hsum : ((x.num + y.num : Int) : ℚ) / x.den = x.value + y.value := by
      rw [value, value, ← hden, Int.cast_add, add_div]
    rw [← hsum]
    exact reduce_denotes _ hx.1.ne'
  next =>
    -- different ones: both fractions are brought to a common denominator
    apply (lcm_yields hx.1 hy.1).bind
    intro l h
    obtain ⟨hl, hxl, hyl⟩ := h
    apply (word_yields _).bind_eq
    apply (word_yields _).bind_eq
    apply (word_yields _).bind_eq
    have hlq : (l : ℚ) ≠ 0 := by exact_mod_cast hl.ne'
    have hsum : ((x.num * (l / x.den) + y.num * (l / y.den) : Int) : ℚ) / l
        = x.value + y.value := by
      rw [value, value, Int.cast_add, Int.cast_mul, Int.cast_mul, Int.cast_div hxl hxq,
        Int.cast_div hyl hyq]
      field_simp
    rw [← hsum]
    exact reduce_denotes _ hl.ne'

/-- A product of exact quotients, as a product of fractions. -/
theorem cast_quotients {a b g h : Int} (hg : (g : ℚ) ≠ 0) (hh : (h : ℚ) ≠ 0) (ha : g ∣ a)
    (hb : h ∣ b) : ((a / g * (b / h) : Int) : ℚ) = (a : ℚ) / g * ((b : ℚ) / h) := by
  rw [Int.cast_mul, Int.cast_div ha hg, Int.cast_div hb hh]

/-- **Multiplication is exact.** -/
theorem Denotes.mul {q r : ℚ} {x y : Fraction} (hx : Denotes q x) (hy : Denotes r y) :
    Yields (x.mul y) (Denotes (q * r)) := by
  obtain ⟨hx, rfl⟩ := hx
  obtain ⟨hy, rfl⟩ := hy
  have hxq : (x.den : ℚ) ≠ 0 := by exact_mod_cast hx.1.ne'
  have hyq : (y.den : ℚ) ≠ 0 := by exact_mod_cast hy.1.ne'
  -- each numerator is cancelled against the other denominator
  apply (gcd_yields x.num y.den).bind_eq
  apply (gcd_yields x.den y.num).bind_eq
  apply (word_yields _).bind_eq
  apply (word_yields _).bind_eq
  have hg : ((Int.gcd x.num y.den : Int) : ℚ) ≠ 0 := by
    exact_mod_cast (Int.gcd_pos_of_ne_zero_right x.num hy.1.ne').ne'
  have hh : ((Int.gcd x.den y.num : Int) : ℚ) ≠ 0 := by
    exact_mod_cast (Int.gcd_pos_of_ne_zero_left y.num hx.1.ne').ne'
  have hnum := cast_quotients hg hh (Int.gcd_dvd_left x.num y.den) (Int.gcd_dvd_right x.den y.num)
  have hden := cast_quotients hh hg (Int.gcd_dvd_left x.den y.num) (Int.gcd_dvd_right x.num y.den)
  have hne : (x.den / (Int.gcd x.den y.num : Int)) * (y.den / (Int.gcd x.num y.den : Int)) ≠ 0 := by
    intro h0
    rw [h0, Int.cast_zero] at hden
    have hcast : (x.den : ℚ) / (Int.gcd x.den y.num : Int)
        * ((y.den : ℚ) / (Int.gcd x.num y.den : Int)) ≠ 0 :=
      mul_ne_zero (div_ne_zero hxq hh) (div_ne_zero hyq hg)
    exact hcast hden.symm
  have hquot := reduce_denotes
    ((x.num / (Int.gcd x.num y.den : Int)) * (y.num / (Int.gcd x.den y.num : Int))) hne
  rw [hnum, hden] at hquot
  refine hquot.mono fun z hz => ⟨hz.1, ?_⟩
  rw [hz.2, value, value]
  field_simp

/-- **The reciprocal of a number other than zero is exact.** -/
theorem Denotes.recip {q : ℚ} {x : Fraction} (hx : Denotes q x) (hq : q ≠ 0) :
    Yields x.recip (Denotes q⁻¹) := by
  obtain ⟨hx, rfl⟩ := hx
  have hnum : x.num ≠ 0 := by
    intro h0
    simp [value, h0] at hq
  unfold Fraction.recip
  rw [if_neg hnum]
  split
  next hpos =>
    refine yields_ok ⟨⟨hpos, ?_⟩, ?_⟩
    · rw [Int.gcd_comm]
      exact hx.2
    · simp [value]
  next hneg =>
    -- the sign moves from the new denominator to the new numerator
    refine (word_yields _).bind_eq ((word_yields _).bind_eq (yields_pure ⟨⟨?_, ?_⟩, ?_⟩))
    · show 0 < -x.num
      omega
    · rw [Int.neg_gcd, Int.gcd_neg, Int.gcd_comm]
      exact hx.2
    · simp [value]

end GeometricAlgebra.Fraction
