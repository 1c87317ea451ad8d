/-
  GeometricAlgebra.Proofs.KernelGrades
  ────────────────────────────────
  **WHICH GRADES HAVE A KERNEL.**

  The target grade of a kernel is a whole number: the sum of both grades for the outer
  product, and the right grade less the left one for the contraction.  There is a kernel
  iff that number is the grade of blades other than the scalars,

      1  ≤  l + r  ≤  n        or        1  ≤  r − l  ≤  n,

  whatever the grades of the operands are; if one of them is above `n` there are no
  blades to multiply, and the kernel has no steps.

  The difference is taken with a check, the sum is not.  Two grades whose sum is no
  unsigned word have a target grade far above `n`, but are not told so: they overflow.

  Main result:
    * `Generator.kernel_decided` — for all grades, whether there is a kernel.
-/
import GeometricAlgebra.Proofs.KernelListing

namespace GeometricAlgebra

open Outcome

/-! ## §1. The target grade among the integers. -/

/-- The grade of the product, also where it is negative or no unsigned word. -/
def Signature.grade (s : Signature) : ℤ :=
  match s.product with
  | .wedge => s.lhs + s.rhs
  | .leftContraction => s.rhs - s.lhs

theorem Signature.target?_eq_some_iff {s : Signature} {grade : Nat} :
    s.target? = some grade ↔ s.grade = grade := by
  obtain ⟨product, l, r⟩ := s
  cases product with
  | wedge =>
    show some (l + r) = some grade ↔ (l + r : ℤ) = grade
    rw [Option.some.injEq]
    omega
  | leftContraction =>
    show (if l ≤ r then some (r - l) else none) = some grade ↔ (r - l : ℤ) = grade
    split
    next hle =>
      rw [Option.some.injEq]
      omega
    next hgt => exact iff_of_false nofun (by omega)

/-- A target grade that overflows is above all grades that a metric can have. -/
theorem Signature.Overflows.lt_grade {s : Signature} (h : s.Overflows) {size : Nat}
    (hsize : size ≤ Metric.maxSize) : (size : ℤ) < s.grade := by
  obtain ⟨product, l, r⟩ := s
  obtain ⟨rfl, hbound⟩ := h
  have hmax : Metric.maxSize < Word.bound := by decide
  show (size : ℤ) < l + r
  change Word.bound ≤ l + r at hbound
  omega

/-! ## §2. Kernels. -/

namespace Metric

variable {metric : Metric} {s : Signature} {kernel : Kernel}

/-- **Nothing is listed iff the target grade has no blades to fill.** -/
theorem listed?_eq_none_iff :
    metric.listed? s = none ↔ ¬ (1 ≤ s.grade ∧ s.grade ≤ metric.size) := by
  rw [listed?, Option.map_eq_none_iff, Option.filter_eq_none_iff]
  constructor
  · -- a grade from 1 on is a natural number, and the filter would keep it
    rintro h ⟨hpos, hle⟩
    obtain ⟨grade, hgrade⟩ := Int.eq_ofNat_of_zero_le (by omega : 0 ≤ s.grade)
    refine h grade (Signature.target?_eq_some_iff.mpr hgrade) (decide_eq_true ?_)
    omega
  · intro h grade htarget hfill
    have hgrade := Signature.target?_eq_some_iff.mp htarget
    have hrange := of_decide_eq_true hfill
    omega

/-- A step multiplies blades of the metric. -/
theorem le_size_of_step {l r outGrade : Nat} {t : KernelTerm}
    (ht : t ∈ metric.pairTerms l r outGrade) : l ≤ metric.size ∧ r ≤ metric.size := by
  obtain ⟨hlhs, hrhs, -⟩ := mem_pairTerms.mp ht
  exact ⟨hlhs.le_size, hrhs.le_size⟩

end Metric

namespace Generator

/-- **WHETHER THERE IS A KERNEL** is decided for all grades, with the one exception of an
outer product whose grades have no sum among the unsigned words.  Everything else is
answered, and with no kernel iff the target grade of the integers is not from 1 to `n`;
a kernel has that target grade, and steps only if both operands have blades.  The
exception has a target grade above `n` as well, and overflows. -/
theorem kernel_decided {settings : Settings} {g : Generator} (h : ofSettings settings = .ok g)
    (s : Signature) :
    (¬ s.Overflows → ∃ kernel?, g.metric.kernel s = .ok kernel?
        ∧ (kernel? = none ↔ ¬ (1 ≤ s.grade ∧ s.grade ≤ g.maxGrade))
        ∧ ∀ kernel, kernel? = some kernel → kernel.signature = s ∧ s.grade = kernel.outGrade
          ∧ (kernel.terms ≠ [] → s.lhs ≤ g.maxGrade ∧ s.rhs ≤ g.maxGrade))
      ∧ (s.Overflows → g.metric.kernel s = .error .overflow ∧ g.maxGrade < s.grade) := by
  constructor
  · intro hword
    refine ⟨_, Metric.kernel_eq_of_not_overflows hword, Metric.listed?_eq_none_iff, ?_⟩
    intro kernel hkernel
    obtain ⟨hsignature, htarget, -, hterms⟩ := Metric.listed?_eq_some hkernel
    refine ⟨hsignature, Signature.target?_eq_some_iff.mp htarget, fun hne => ?_⟩
    obtain ⟨t, ht⟩ := List.exists_mem_of_ne_nil _ (hterms ▸ hne)
    exact Metric.le_size_of_step ht
  · intro hover
    obtain ⟨-, hg⟩ := ofSettings_accepted h
    exact ⟨g.metric.kernel_of_overflows hover,
      hover.lt_grade (hg.size_eq.trans_le hg.axisCount_le)⟩

/-- Over the five axes of conformal space: the greatest unsigned word may be contracted
into itself or into nothing, and grades 6 and 8 have a kernel without steps; but with 1
the greatest unsigned word has no sum. -/
theorem kernel_decided_space : ofSettings .default = .ok space
    ∧ space.metric.kernel ⟨.leftContraction, 18446744073709551615, 18446744073709551615⟩ = .ok none
    ∧ space.metric.kernel ⟨.leftContraction, 18446744073709551615, 0⟩ = .ok none
    ∧ space.metric.kernel ⟨.wedge, 18446744073709551615, 0⟩ = .ok none
    ∧ (∃ kernel, space.metric.kernel ⟨.leftContraction, 6, 8⟩ = .ok (some kernel)
      ∧ kernel.outGrade = 2 ∧ kernel.terms = [])
    ∧ space.metric.kernel ⟨.wedge, 18446744073709551615, 1⟩ = .error .overflow := by
  have hnone : ∀ s : Signature, ¬ s.Overflows → ¬ (1 ≤ s.grade ∧ s.grade ≤ space.maxGrade) →
      space.metric.kernel s = .ok none := by
    intro s hword hrange
    obtain ⟨kernel?, hkernel, hnone, -⟩ := (kernel_decided ofSettings_default s).1 hword
    rw [hkernel, hnone.mpr hrange]
  refine ⟨ofSettings_default, hnone _ (by decide) (by decide), hnone _ (by decide) (by decide),
    hnone _ (by decide) (by decide), ?_, ((kernel_decided ofSettings_default _).2 (by decide)).1⟩
  obtain ⟨kernel?, hkernel, hnone, hsome⟩ :=
    (kernel_decided ofSettings_default ⟨.leftContraction, 6, 8⟩).1 (by decide)
  obtain ⟨kernel, rfl⟩ := Option.ne_none_iff_exists'.mp (mt hnone.mp (by decide))
  obtain ⟨-, hgrade, hterms⟩ := hsome kernel rfl
  refine ⟨kernel, hkernel, ?_, ?_⟩
  · have hout : (2 : ℤ) = kernel.outGrade := hgrade
    omega
  · by_contra hne
    exact absurd (hterms hne) (by decide)

/-- Over conformal space a kernel with a target grade of 2⁶⁴ is not skipped. -/
theorem kernel_overflow_not_skipped : ofSettings .default = .ok space
    ∧ ¬ ∀ s : Signature, s.lhs < Word.bound → s.rhs < Word.bound →
      ∃ kernel?, space.metric.kernel s = .ok kernel?
        ∧ (kernel? = none ↔ ¬ (1 ≤ s.grade ∧ s.grade ≤ space.maxGrade)) := by
  refine ⟨ofSettings_default, fun h => ?_⟩
  obtain ⟨kernel?, hkernel, -⟩ := h ⟨.wedge, 18446744073709551615, 1⟩ (by decide) (by decide)
  rw [Metric.kernel_of_overflows _ (by decide)] at hkernel
  cases hkernel

end Generator

end GeometricAlgebra
