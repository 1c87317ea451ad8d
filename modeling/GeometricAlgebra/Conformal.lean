/-
  GeometricAlgebra.Conformal
  ────────────────────────────────
  **POINTS AND SPHERES OF CONFORMAL SPACE.**

  Two null vectors are singled out: infinity `∞ = e₋ + e₊` and the origin
  `o = (e₋ − e₊)/2`.  The Euclidean point `p` becomes the null vector
  `o + p + ∞ · |p|²/2`, the sphere about a point `c` with radius `r` is
  `c − ∞ · r²/2`, and the flat point through `c` is `c ∧ ∞`.
-/
import GeometricAlgebra.Multivector.Products

namespace GeometricAlgebra.Conformal

/-! ## §1. Basis vectors and null vectors. -/

/-- The axis that squares to −1. -/
def minusAxis : Axis := 0

/-- The other conformal axis. -/
def plusAxis : Axis := 1

/-- The first Euclidean axis. -/
def xAxis : Axis := 2

/-- The second Euclidean axis. -/
def yAxis : Axis := 3

/-- The third Euclidean axis. -/
def zAxis : Axis := 4

/-- The point at infinity, `e₋ + e₊`. -/
def infinity : Multivector :=
  ⟨[([minusAxis], Polynomial.one), ([plusAxis], Polynomial.one)]⟩

/-- The origin, `(e₋ − e₊)/2`. -/
def origin : Multivector :=
  ⟨[([minusAxis], Polynomial.constant Fraction.half),
    ([plusAxis], Polynomial.constant ⟨-1, 2⟩)]⟩

/-- The plane of the two conformal axes, `e₋ e₊`. -/
def minkowskiPlane : Multivector := Multivector.unit [minusAxis, plusAxis]

/-! ## §2. Points. -/

/-- The squared length of a Euclidean vector. -/
def squaredLength (x y z : Polynomial) : Outcome Polynomial := do
  let xx ← x.mul x
  let yy ← y.mul y
  let zz ← z.mul z
  let s ← xx.add yy
  s.add zz

/-- Half a polynomial times the point at infinity. -/
def halfInfinity (p : Polynomial) : Outcome Multivector := do
  let half ← p.scale Fraction.half
  infinity.scale half

/-- The point with the given Euclidean coordinates. -/
def pointAt (x y z : Polynomial) : Outcome Multivector := do
  let length ← squaredLength x y z
  let ex ← Multivector.vector xAxis x
  let ey ← Multivector.vector yAxis y
  let ez ← Multivector.vector zAxis z
  let weight ← halfInfinity length
  let p ← origin.add ex
  let p ← p.add ey
  let p ← p.add ez
  p.add weight

/-- A coordinate name with a subscript, which may be empty. -/
def subscripted (name subscript : String) : String :=
  if subscript = "" then name else name ++ "_" ++ subscript

/-- The point whose coordinates are the variables `a`, `b` and `c` with a
subscript. -/
def point (subscript : String) : Outcome Multivector :=
  pointAt (Polynomial.var (subscripted "a" subscript))
    (Polynomial.var (subscripted "b" subscript))
    (Polynomial.var (subscripted "c" subscript))

/-! ## §3. Spheres and flat points. -/

/-- The sphere about a point with a radius. -/
def sphereAt (center : Multivector) (radius : Polynomial) : Outcome Multivector := do
  let square ← radius.mul radius
  let weight ← halfInfinity square
  center.sub weight

/-- The flat point through a point. -/
def flatPoint (p : Multivector) : Outcome Multivector := p.wedge infinity

end GeometricAlgebra.Conformal
