/-
  GeometricAlgebra.SortedTerms
  ────────────────────────────────
  **SUMS OF TERMS, ONE PER KEY, IN KEY ORDER.**

  Polynomials and multivectors are both finite sums `Σ value · key`.  A sum is
  kept as a list of pairs whose keys increase strictly and whose values are
  not zero (`SortedTerms.Canonical`), so equal sums are equal lists.  The only
  way in is `accumulate`, which adds one term: it finds the place of the key,
  adds to a value that is already there, and drops the term when the sum
  vanishes.  Adding values may overflow, hence the `Outcome`.
-/
import GeometricAlgebra.Failure

namespace GeometricAlgebra

/-- Values that can be summed: an addition that may overflow, and a test for
the value that adds nothing. -/
class Summand (ν : Type) where
  add : ν → ν → Outcome ν
  isZero : ν → Bool

namespace SortedTerms

variable {κ ν : Type} [Ord κ] [Summand ν]

/-! ## §1. The normal form. -/

/-- Keys increase strictly from left to right and no value is zero. -/
def Canonical (terms : List (κ × ν)) : Prop :=
  terms.Pairwise (fun s t => compare s.1 t.1 = .lt) ∧ ∀ t ∈ terms, Summand.isZero t.2 = false

instance (terms : List (κ × ν)) : Decidable (Canonical terms) := inferInstanceAs (Decidable (_ ∧ _))

/-! ## §2. Adding terms. -/

/-- Add the term `value · key` at its place.  A value that is already there is
the left summand; a sum that vanishes leaves the list. -/
def insert (key : κ) (value : ν) : List (κ × ν) → Outcome (List (κ × ν))
  | [] => .ok [(key, value)]
  | (k, v) :: rest =>
      match compare key k with
      | .lt => .ok ((key, value) :: (k, v) :: rest)
      | .eq => do
          let sum ← Summand.add v value
          return if Summand.isZero sum then rest else (k, sum) :: rest
      | .gt => do
          let rest' ← insert key value rest
          return (k, v) :: rest'

/-- Add the term `value · key`, which changes nothing when the value is zero. -/
def accumulate (terms : List (κ × ν)) (term : κ × ν) : Outcome (List (κ × ν)) :=
  if Summand.isZero term.2 then .ok terms else insert term.1 term.2 terms

/-- Add terms one after the other. -/
def accumulateAll (terms : List (κ × ν)) (more : List (κ × ν)) : Outcome (List (κ × ν)) :=
  more.foldlM accumulate terms

/-- The sum of a list of terms in any order and with any repetitions. -/
def ofList (terms : List (κ × ν)) : Outcome (List (κ × ν)) :=
  accumulateAll [] terms

/-! ## §3. First laws. -/

theorem canonical_nil : Canonical ([] : List (κ × ν)) :=
  ⟨List.Pairwise.nil, by simp⟩

/-- A term with the value zero is not stored. -/
theorem accumulate_of_isZero {terms : List (κ × ν)} {term : κ × ν}
    (h : Summand.isZero term.2 = true) : accumulate terms term = .ok terms :=
  if_pos h

/-- Every other term goes to the place of its key. -/
theorem accumulate_of_not_isZero {terms : List (κ × ν)} {term : κ × ν}
    (h : Summand.isZero term.2 = false) :
    accumulate terms term = insert term.1 term.2 terms := by
  rw [accumulate, if_neg (by simp [h])]

@[simp] theorem accumulateAll_nil (terms : List (κ × ν)) :
    accumulateAll terms [] = .ok terms := rfl

theorem accumulateAll_cons (terms : List (κ × ν)) (term : κ × ν) (more : List (κ × ν)) :
    accumulateAll terms (term :: more)
      = (accumulate terms term).bind (fun sum => accumulateAll sum more) := rfl

end SortedTerms

end GeometricAlgebra
