/-
  GeometricAlgebra.Subsets
  ────────────────────────────────
  **SUBSETS OF A LIST, BY POSITION.**

  `choose k items` picks `k` positions of a list in every way, in
  lexicographic order of the positions; equal items at different positions
  count as different.  `powerset` goes through the sizes from nothing to all.
-/

namespace GeometricAlgebra.Subsets

variable {α : Type}

/-! ## §1. Subsets of one size. -/

/-- All ways to keep `k` items in their order: first those that keep the head,
then those that do not. -/
def choose : Nat → List α → List (List α)
  | 0, _ => [[]]
  | _ + 1, [] => []
  | k + 1, item :: rest =>
      if rest.length < k then []
      else (choose k rest).map (item :: ·) ++ choose (k + 1) rest

/-- Every subset: by size, and by position within a size. -/
def powerset (items : List α) : List (List α) :=
  (List.range (items.length + 1)).flatMap (fun k => choose k items)

/-! ## §2. First laws. -/

/-- No more items can be kept than there are. -/
theorem choose_eq_nil_of_lt {k : Nat} {items : List α} (h : items.length < k) :
    choose k items = [] := by
  cases k with
  | zero => simp at h
  | succ k =>
    cases items with
    | nil => rfl
    | cons item rest =>
      have hk : rest.length < k := by simpa using h
      simp [choose, hk]

/-- **The recursion of binomial coefficients**, on the subsets themselves. -/
theorem choose_succ_cons (k : Nat) (item : α) (rest : List α) :
    choose (k + 1) (item :: rest) = (choose k rest).map (item :: ·) ++ choose (k + 1) rest := by
  by_cases h : rest.length < k
  · have h' : rest.length < k + 1 := Nat.lt_succ_of_lt h
    simp [choose, h, choose_eq_nil_of_lt h, choose_eq_nil_of_lt h']
  · simp [choose, h]

end GeometricAlgebra.Subsets
