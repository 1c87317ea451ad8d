/-
  GeometricAlgebra.Monomial
  ────────────────────────────────
  **MONOMIALS: SORTED PRODUCTS OF NAMED VARIABLES.**

  A monomial is a multiset of variable names.  It is kept as the sorted list
  of its names, each as often as its exponent says, so equal monomials are
  equal lists; the empty list is the constant 1.  Monomials are ordered like
  lists of names: by the first difference, a shorter list before its
  extensions, names by code point.
-/

namespace GeometricAlgebra

/-! ## §1. Monomials. -/

/-- A product of variables, written as the sorted list of their names. -/
structure Monomial where
  /-- The names of the factors, in increasing order. -/
  names : List String
  deriving DecidableEq, Repr

namespace Monomial

/-- Monomials compare as their lists of names. -/
instance : Ord Monomial := ⟨fun m n => compare m.names n.names⟩

theorem compare_def (m n : Monomial) : compare m n = compare m.names n.names := rfl

/-- Swapping two monomials swaps the comparison. -/
instance : Std.OrientedOrd Monomial where
  eq_swap := by
    intro m n
    show compare m.names n.names = (compare n.names m.names).swap
    exact Std.OrientedCmp.eq_swap

/-- The order of monomials is transitive. -/
instance : Std.TransOrd Monomial where
  isLE_trans := by
    intro m n k hmn hnk
    show (compare m.names k.names).isLE
    exact Std.TransCmp.isLE_trans hmn hnk

/-- Monomials that compare equal are equal. -/
instance : Std.LawfulEqOrd Monomial where
  eq_of_compare := by
    intro m n h
    have hn : m.names = n.names := Std.LawfulEqCmp.eq_of_compare h
    cases m
    cases n
    cases hn
    rfl

/-- Put a name in front of the first name that is not below it. -/
def insertName (name : String) : List String → List String
  | [] => [name]
  | first :: rest =>
      if (compare name first).isLE then name :: first :: rest
      else first :: insertName name rest

/-- Names in increasing order, repetitions kept. -/
def sortNames (names : List String) : List String :=
  names.foldr insertName []

/-- The product of the named variables. -/
def ofNames (names : List String) : Monomial := ⟨sortNames names⟩

/-- The constant monomial. -/
def one : Monomial := ⟨[]⟩

/-- True of the constant monomial. -/
def isOne (m : Monomial) : Bool := m.names.isEmpty

/-- Total degree: the number of factors. -/
def degree (m : Monomial) : Nat := m.names.length

/-- The product of two monomials: their factors together, sorted again. -/
def product (m n : Monomial) : Monomial := ofNames (m.names ++ n.names)

/-! ## §2. Sorting loses nothing. -/

theorem insertName_perm (name : String) (names : List String) :
    (insertName name names).Perm (name :: names) := by
  induction names with
  | nil => exact List.Perm.refl _
  | cons first rest ih =>
    unfold insertName
    split
    · exact List.Perm.refl _
    · exact (ih.cons first).trans (List.Perm.swap name first rest)

/-- **Sorting rearranges the names and neither adds nor drops one.** -/
theorem sortNames_perm (names : List String) : (sortNames names).Perm names := by
  induction names with
  | nil => exact List.Perm.refl _
  | cons name rest ih => exact (insertName_perm name (sortNames rest)).trans (ih.cons name)

/-- The degree of a product of names is their number. -/
theorem degree_ofNames (names : List String) : (ofNames names).degree = names.length :=
  (sortNames_perm names).length_eq

/-- Degrees add up in products. -/
theorem degree_product (m n : Monomial) : (m.product n).degree = m.degree + n.degree := by
  rw [product, degree_ofNames, List.length_append]
  rfl

/-! ## §3. The exponent form. -/

/-- Count one more factor `name` in front of a list of powers. -/
def countFactor (name : String) : List (String × Nat) → List (String × Nat)
  | [] => [(name, 1)]
  | (first, exponent) :: rest =>
      if name = first then (first, exponent + 1) :: rest
      else (name, 1) :: (first, exponent) :: rest

/-- Each variable once with its exponent, in increasing order of names.  Exponents
are numbers without a bound.  `Monomial.countPowers` counts the same factors with
exponents in 32-bit words; it overflows where a name is repeated 2³² times, and
gives the same powers everywhere else (`Monomial.Sorted.countPowers_eq`). -/
def powers (m : Monomial) : List (String × Nat) :=
  m.names.foldr countFactor []

end Monomial

end GeometricAlgebra
