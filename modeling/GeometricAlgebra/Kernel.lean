/-
  GeometricAlgebra.Kernel
  ────────────────────────────────
  **MULTIPLICATION KERNELS.**

  A kernel computes one graded product of a grade-`l` and a grade-`r` operand
  as a flat list of steps `out += ± lhs · rhs`, one for each pair of basis
  blades whose product lies in the target grade.  There is no kernel where the
  target grade is not positive or lies above the pseudoscalar.
-/
import GeometricAlgebra.Settings

namespace GeometricAlgebra

/-! ## §1. Graded products. -/

/-- The products for which kernels are derived. -/
inductive GradedProduct where
  /-- The outer product, into the sum of the grades. -/
  | wedge
  /-- The left contraction, into the right grade less the left one. -/
  | leftContraction
  deriving DecidableEq, Repr

namespace GradedProduct

/-- The order in which the products of a pair of grades are listed. -/
def all : List GradedProduct := [.wedge, .leftContraction]

/-- The stem of kernel names. -/
def name : GradedProduct → String
  | .wedge => "wedge"
  | .leftContraction => "left_contract"

/-- The grade of the product of two grades, if it is not negative.  The sum is
one of unsigned words and may overflow. -/
def targetGrade (product : GradedProduct) (lhs rhs : Nat) : Outcome (Option Nat) :=
  match product with
  | .wedge => return some (← Word.ofNat (lhs + rhs))
  | .leftContraction => .ok (if lhs ≤ rhs then some (rhs - lhs) else none)

end GradedProduct

/-! ## §2. Kernels. -/

/-- Which product of which grades a kernel computes. -/
structure Signature where
  /-- The product. -/
  product : GradedProduct
  /-- The grade of the left operand. -/
  lhs : Nat
  /-- The grade of the right operand. -/
  rhs : Nat
  deriving DecidableEq, Repr

/-- The name of a kernel, such as `wedge_1_2`. -/
def Signature.name (s : Signature) : String :=
  s.product.name ++ "_" ++ Nat.repr s.lhs ++ "_" ++ Nat.repr s.rhs

/-- One step of a kernel: `out += sign · lhs · rhs`. -/
structure KernelTerm where
  /-- The sign of the step. -/
  sign : Sign
  /-- The basis blade of the left operand. -/
  lhs : Blade
  /-- The basis blade of the right operand. -/
  rhs : Blade
  /-- The basis blade of the result. -/
  out : Blade
  deriving DecidableEq, Repr

/-- A graded product of two homogeneous operands, as a list of steps. -/
structure Kernel where
  /-- What is computed. -/
  signature : Signature
  /-- The grade of the result. -/
  outGrade : Nat
  /-- The steps. -/
  terms : List KernelTerm
  deriving DecidableEq, Repr

namespace Metric

/-- The step for a pair of basis blades, if their product has the target
grade. -/
def kernelTerm? (metric : Metric) (outGrade : Nat) (lhs rhs : Blade) :
    Outcome (Option KernelTerm) := do
  let product ← metric.canonicalize (lhs ++ rhs)
  return if product.axes.length = outGrade then some ⟨product.sign, lhs, rhs, product.axes⟩
    else none

/-- The steps for all pairs of basis blades, left operand first. -/
def kernelTerms (metric : Metric) (signature : Signature) (outGrade : Nat) :
    Outcome (List KernelTerm) := do
  let rights := metric.basis signature.rhs
  let rows ← (metric.basis signature.lhs).mapM fun lhs => do
    let row ← rights.mapM (metric.kernelTerm? outGrade lhs)
    return row.reduceOption
  return rows.flatten

/-- The kernel with a signature, if its target grade has blades to fill. -/
def kernel (metric : Metric) (signature : Signature) : Outcome (Option Kernel) := do
  match ← signature.product.targetGrade signature.lhs signature.rhs with
  | none => return none
  | some grade =>
      if 0 < grade ∧ grade ≤ metric.size then
        return some ⟨signature, grade, ← metric.kernelTerms signature grade⟩
      else return none

/-! ## §3. The inventory of a metric. -/

/-- The signatures that are tried: each pair of positive grades with each
product. -/
def signatures (metric : Metric) : List Signature :=
  let grades := List.range' 1 metric.size
  grades.flatMap fun lhs => grades.flatMap fun rhs =>
    GradedProduct.all.map fun product => ⟨product, lhs, rhs⟩

/-- Every signature that is tried, with its kernel if there is one. -/
def attempts (metric : Metric) : Outcome (List (Signature × Option Kernel)) :=
  metric.signatures.mapM fun signature => return (signature, ← metric.kernel signature)

/-- All kernels of a metric. -/
def kernels (metric : Metric) : Outcome (List Kernel) := do
  let attempts ← metric.attempts
  return attempts.filterMap Prod.snd

end Metric

end GeometricAlgebra
