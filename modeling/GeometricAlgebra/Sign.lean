/-
  GeometricAlgebra.Sign
  ────────────────────────────────
  **SIGNS.**

  The sign of a reordered blade, and the sign of the square of an axis.  Signs
  multiply like 1 and −1; the sign of a count of swaps is its parity.
-/
import GeometricAlgebra.Fraction

namespace GeometricAlgebra

/-- One of the two units 1 and −1. -/
inductive Sign where
  | positive
  | negative
  deriving DecidableEq, Repr

namespace Sign

/-! ## §1. The group of two elements. -/

/-- The product of two signs: positive exactly when they agree. -/
protected def mul : Sign → Sign → Sign
  | .positive, s => s
  | .negative, .positive => .negative
  | .negative, .negative => .positive

instance : Mul Sign := ⟨Sign.mul⟩

/-- The other sign. -/
protected def neg : Sign → Sign
  | .positive => .negative
  | .negative => .positive

instance : Neg Sign := ⟨Sign.neg⟩

/-- The sign of a number of swaps: negative if it is odd. -/
def ofParity (count : Nat) : Sign :=
  if count % 2 = 0 then .positive else .negative

/-- True of the negative sign. -/
def isNegative : Sign → Bool
  | .positive => false
  | .negative => true

/-! ## §2. Views. -/

/-- The sign as the number 1 or −1. -/
def toInt : Sign → Int
  | .positive => 1
  | .negative => -1

/-- The sign as a fraction. -/
def toFraction (s : Sign) : Fraction := Fraction.ofInt s.toInt

/-- The written sign. -/
def text : Sign → String
  | .positive => "+"
  | .negative => "-"

/-! ## §3. Laws. -/

@[simp] theorem positive_mul (s : Sign) : positive * s = s := by cases s <;> rfl

@[simp] theorem mul_positive (s : Sign) : s * positive = s := by cases s <;> rfl

@[simp] theorem mul_self (s : Sign) : s * s = positive := by cases s <;> rfl

theorem mul_comm (s t : Sign) : s * t = t * s := by cases s <;> cases t <;> rfl

theorem mul_assoc (s t u : Sign) : s * t * u = s * (t * u) := by
  cases s <;> cases t <;> cases u <;> rfl

@[simp] theorem neg_neg (s : Sign) : - -s = s := by cases s <;> rfl

theorem neg_mul (s t : Sign) : -s * t = -(s * t) := by cases s <;> cases t <;> rfl

theorem mul_neg (s t : Sign) : s * -t = -(s * t) := by cases s <;> cases t <;> rfl

/-- A sum of counts has the product of their signs. -/
theorem ofParity_add (m n : Nat) : ofParity (m + n) = ofParity m * ofParity n := by
  rcases Nat.mod_two_eq_zero_or_one m with hm | hm <;>
    rcases Nat.mod_two_eq_zero_or_one n with hn | hn <;>
    simp [ofParity, Nat.add_mod, hm, hn]

end Sign

end GeometricAlgebra
