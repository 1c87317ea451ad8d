/-
  GeometricAlgebra.Word
  ────────────────────────────────
  **WHOLE NUMBERS OF A 64-BIT WORD.**

  Numerators, denominators and grades live in machine words, but the library
  computes with `Int` and `Nat` and checks each result.  `Word.ofInt` is the
  only place where signed arithmetic can fail, and it fails exactly when the
  mathematical result does not fit (`Word.ofInt_eq_ok_iff`): an answer is
  never a wrapped one.
-/
import GeometricAlgebra.Failure

namespace GeometricAlgebra.Word

/-! ## §1. Signed words. -/

/-- The least signed word, −2⁶³. -/
def least : Int := -9223372036854775808

/-- The greatest signed word, 2⁶³ − 1. -/
def greatest : Int := 9223372036854775807

/-- The whole numbers that a signed word can hold. -/
def Fits (n : Int) : Prop := least ≤ n ∧ n ≤ greatest

instance (n : Int) : Decidable (Fits n) := inferInstanceAs (Decidable (_ ∧ _))

/-- The number itself if a signed word can hold it, and an overflow otherwise. -/
def ofInt (n : Int) : Outcome Int :=
  if Fits n then .ok n else .error .overflow

theorem ofInt_of_fits {n : Int} (h : Fits n) : ofInt n = .ok n := if_pos h

theorem ofInt_of_not_fits {n : Int} (h : ¬ Fits n) : ofInt n = .error .overflow := if_neg h

/-- **A checked result is the exact one, and it is given exactly when it fits.** -/
theorem ofInt_eq_ok_iff {n m : Int} : ofInt n = .ok m ↔ Fits n ∧ m = n := by
  by_cases h : Fits n
  · simp [ofInt_of_fits h, h, eq_comm]
  · simp [ofInt_of_not_fits h, h]

/-! ## §2. Unsigned words. -/

/-- The number of unsigned words, 2⁶⁴. -/
def bound : Nat := 18446744073709551616

/-- The number itself if an unsigned word can hold it, and an overflow
otherwise. -/
def ofNat (n : Nat) : Outcome Nat :=
  if n < bound then .ok n else .error .overflow

theorem ofNat_eq_ok_iff {n m : Nat} : ofNat n = .ok m ↔ n < bound ∧ m = n := by
  unfold ofNat
  split
  · next h => exact ⟨fun e => ⟨h, (Except.ok.inj e).symm⟩, fun e => congrArg _ e.2.symm⟩
  · next h => exact ⟨nofun, fun e => absurd e.1 h⟩

end GeometricAlgebra.Word
