/-
  GeometricAlgebra.Metric
  ────────────────────────────────
  **AXES, BLADES AND METRICS.**

  A metric is an ordered alphabet of axis symbols together with the square of
  each axis, 1 or −1.  Inside the library an axis is its position in the
  alphabet and a blade is a word of axes.  This file holds the metrics and how
  they are built; `Metric.Canonical` brings words into order and
  `Metric.Label` reads and writes them with symbols.
-/
import GeometricAlgebra.Sign
import GeometricAlgebra.Subsets

namespace GeometricAlgebra

/-! ## §1. Axes and blades. -/

/-- The position of a basis vector in its alphabet. -/
abbrev Axis := Nat

/-- A word of axes.  It is canonical if its axes increase strictly. -/
abbrev Blade := List Axis

/-- A blade with a sign in front. -/
structure SignedBlade where
  /-- The blade. -/
  axes : Blade
  /-- The sign in front of it. -/
  sign : Sign
  deriving DecidableEq, Repr

/-- An ordered alphabet of axes, each with its square. -/
structure Metric where
  /-- The symbols in order, each with the square of its axis. -/
  axes : List (Char × Sign)
  deriving DecidableEq, Repr

namespace Metric

/-! ## §2. Construction. -/

/-- The greatest number of axes of an alphabet. -/
def maxSize : Nat := 255

/-- The first symbol that an earlier position already holds. -/
def firstRepeated : List Char → Option Char :=
  go []
where
  go (earlier : List Char) : List Char → Option Char
    | [] => none
    | c :: rest => if c ∈ earlier then some c else go (c :: earlier) rest

/-- The metric with these axes.  Symbols must be distinct and there must not be
too many of them. -/
def ofAxes (axes : List (Char × Sign)) : Outcome Metric :=
  if maxSize < axes.length then .error (.invalidSettings (.tooManyAxes axes.length))
  else match firstRepeated (axes.map Prod.fst) with
    | some c => .error (.invalidSettings (.repeatedSymbol c))
    | none => .ok ⟨axes⟩

/-- The metric in which one axis of the alphabet squares to −1 and every other
one to 1. -/
def conformal (symbols : List Char) (negative : Char) : Outcome Metric :=
  if negative ∈ symbols then
    ofAxes (symbols.map fun c => (c, if c = negative then .negative else .positive))
  else .error (.invalidSettings (.negativeAxisMissing negative (String.ofList symbols)))

/-- The metric of three-dimensional conformal space: the axis `-` squares to
−1, and `+`, `x`, `y` and `z` square to 1. -/
def conformalSpace : Metric :=
  ⟨[('-', .negative), ('+', .positive), ('x', .positive), ('y', .positive), ('z', .positive)]⟩

/-! ## §3. Queries. -/

/-- The number of axes. -/
def size (metric : Metric) : Nat := metric.axes.length

/-- The alphabet, in order. -/
def symbols (metric : Metric) : List Char := metric.axes.map Prod.fst

/-- The alphabet as a text. -/
def alphabet (metric : Metric) : String := String.ofList metric.symbols

/-- The symbol of an axis; `?` stands for an axis outside the alphabet. -/
def symbol (metric : Metric) (axis : Axis) : Char :=
  (metric.axes[axis]?.map Prod.fst).getD '?'

/-- The square of an axis.  An axis outside the alphabet counts as positive. -/
def square (metric : Metric) (axis : Axis) : Sign :=
  (metric.axes[axis]?.map Prod.snd).getD .positive

/-- The position of a symbol. -/
def axisOf (metric : Metric) (c : Char) : Option Axis :=
  metric.axes.findIdx? (fun axis => axis.1 == c)

/-- The blade of all axes in order. -/
def pseudoscalar (metric : Metric) : Blade := List.range metric.size

/-! ## §4. The basis of canonical blades. -/

/-- The canonical blades of one grade, in lexicographic order. -/
def basis (metric : Metric) (grade : Nat) : List Blade :=
  Subsets.choose grade metric.pseudoscalar

/-- The position of a canonical blade among those of its grade. -/
def indexOf (metric : Metric) (blade : Blade) : Option Nat :=
  (metric.basis blade.length).findIdx? (· == blade)

/-- No blade lies above the pseudoscalar. -/
theorem basis_eq_nil_of_lt {metric : Metric} {grade : Nat} (h : metric.size < grade) :
    metric.basis grade = [] :=
  Subsets.choose_eq_nil_of_lt (by simpa [pseudoscalar] using h)

end Metric

end GeometricAlgebra
