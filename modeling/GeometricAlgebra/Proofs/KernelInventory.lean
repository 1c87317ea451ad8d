/-
  GeometricAlgebra.Proofs.KernelInventory
  ────────────────────────────────
  **THE KERNELS OF A METRIC.**

  Grades of a metric are far below the size of a word, so the target grade of a
  pair of them is the one of the integers and no kernel fails
  (`Metric.kernel_eq_listed`).  The inventory of a metric is therefore a plain
  filter of its signatures.  Every kernel of it stays among the grades of the
  metric, its steps name basis blades only, and its name tells it from the
  others.

  Main results:
    * `Metric.kernels_eq` — the inventory, in order.
    * `Metric.isGraded_of_listed` — the grades and blades of a kernel.
    * `Signature.name_injective`, `Metric.nodup_kernel_names` — names are distinct.
-/
import GeometricAlgebra.Proofs.KernelTerms

namespace GeometricAlgebra

open Outcome

/-! ## §1. Target grades without overflow. -/

namespace Signature

/-- The grade of the product among the integers, if it is not negative. -/
def target? (s : Signature) : Option Nat :=
  match s.product with
  | .wedge => some (s.lhs + s.rhs)
  | .leftContraction => if s.lhs ≤ s.rhs then some (s.rhs - s.lhs) else none

/-- The sum of the grades of an outer product is no unsigned word. -/
def Overflows (s : Signature) : Prop := s.product = .wedge ∧ Word.bound ≤ s.lhs + s.rhs

instance (s : Signature) : Decidable s.Overflows := inferInstanceAs (Decidable (_ ∧ _))

theorem targetGrade_eq {s : Signature} (h : ¬ s.Overflows) :
    s.product.targetGrade s.lhs s.rhs = .ok s.target? := by
  obtain ⟨product, l, r⟩ := s
  cases product with
  | wedge =>
    have hword : l + r < Word.bound := Nat.lt_of_not_le fun hle => h ⟨rfl, hle⟩
    exact Metric.targetGrade_wedge_iff.mpr ⟨hword, rfl⟩
  | leftContraction => rfl

theorem Overflows.targetGrade_eq {s : Signature} (h : s.Overflows) :
    s.product.targetGrade s.lhs s.rhs = .error .overflow := by
  unfold GradedProduct.targetGrade
  rw [h.1, Word.ofNat, if_neg (Nat.not_lt.mpr h.2)]
  rfl

end Signature

namespace Metric

variable {metric : Metric} {s : Signature} {kernel : Kernel}

/-- The kernel with a signature, if its target grade has blades to fill. -/
def listed? (metric : Metric) (s : Signature) : Option Kernel :=
  (s.target?.filter fun grade => 0 < grade ∧ grade ≤ metric.size).map fun grade =>
    ⟨s, grade, metric.pairTerms s.lhs s.rhs grade⟩

/-- **A kernel whose grades do not overflow does not fail.** -/
theorem kernel_eq_of_not_overflows (h : ¬ s.Overflows) :
    metric.kernel s = .ok (metric.listed? s) := by
  have htarget := Signature.targetGrade_eq h
  rw [listed?]
  cases hgrade : s.target? with
  | none =>
    rw [hgrade] at htarget
    rw [kernel, htarget]
    rfl
  | some grade =>
    rw [hgrade] at htarget
    by_cases hfill : 0 < grade ∧ grade ≤ metric.size
    · rw [kernel_eq_ok htarget hfill.1 hfill.2]
      simp [hfill]
    · rw [kernel, htarget, Option.filter_some, if_neg (by simpa using hfill)]
      exact if_neg hfill

/-- A target grade that overflows is not compared with anything. -/
theorem kernel_of_overflows (metric : Metric) (h : s.Overflows) :
    metric.kernel s = .error .overflow := by
  rw [kernel, h.targetGrade_eq]
  rfl

/-- **No kernel of small grades fails.** -/
theorem kernel_eq_listed (h : s.lhs + s.rhs < Word.bound) :
    metric.kernel s = .ok (metric.listed? s) :=
  kernel_eq_of_not_overflows fun hover => Nat.not_le_of_lt h hover.2

/-! ## §2. The inventory. -/

theorem mem_signatures : s ∈ metric.signatures
    ↔ (1 ≤ s.lhs ∧ s.lhs ≤ metric.size) ∧ 1 ≤ s.rhs ∧ s.rhs ≤ metric.size := by
  obtain ⟨product, l, r⟩ := s
  cases product <;>
    simp [signatures, GradedProduct.all, List.mem_range'_1, Nat.add_comm 1]

theorem nodup_signatures (metric : Metric) : metric.signatures.Nodup := by
  have hgrades : (List.range' 1 metric.size).Nodup := List.nodup_range'
  refine List.nodup_flatMap.mpr ⟨?_, ?_⟩
  · intro l _
    refine List.nodup_flatMap.mpr ⟨?_, ?_⟩
    · intro r _
      exact (by decide : GradedProduct.all.Nodup).map fun _ _ h => (Signature.mk.inj h).1
    · -- signatures with different right grades
      refine hgrades.imp ?_
      intro r r' hne s hs hs'
      obtain ⟨_, -, rfl⟩ := List.mem_map.mp hs
      obtain ⟨_, -, h⟩ := List.mem_map.mp hs'
      exact hne (Signature.mk.inj h).2.2.symm
  · -- signatures with different left grades
    refine hgrades.imp ?_
    intro l l' hne s hs hs'
    obtain ⟨_, -, hs⟩ := List.mem_flatMap.mp hs
    obtain ⟨_, -, hs'⟩ := List.mem_flatMap.mp hs'
    obtain ⟨_, -, rfl⟩ := List.mem_map.mp hs
    obtain ⟨_, -, h⟩ := List.mem_map.mp hs'
    exact hne (Signature.mk.inj h).2.1.symm

/-- **The inventory of a metric**: every signature whose target grade has blades to
fill, in order. -/
theorem kernels_eq (hsize : metric.size ≤ maxSize) :
    metric.kernels = .ok (metric.signatures.filterMap metric.listed?) := by
  have hattempt : ∀ s ∈ metric.signatures,
      (do return (s, ← metric.kernel s) : Outcome (Signature × Option Kernel))
        = .ok (s, metric.listed? s) := by
    intro s hs
    obtain ⟨⟨-, hl⟩, -, hr⟩ := mem_signatures.mp hs
    have hbound : maxSize + maxSize < Word.bound := by decide
    rw [kernel_eq_listed (by omega)]
    rfl
  have hattempts : metric.attempts
      = .ok (metric.signatures.map fun s => (s, metric.listed? s)) := mapM_eq_ok hattempt
  rw [kernels, hattempts]
  show Except.ok _ = _
  rw [List.filterMap_map]
  rfl

/-! ## §3. The kernels of the inventory. -/

/-- A kernel that stays among the grades and the basis blades of a metric. -/
structure IsGraded (metric : Metric) (kernel : Kernel) : Prop where
  lhs_le : kernel.signature.lhs ≤ metric.size
  rhs_le : kernel.signature.rhs ≤ metric.size
  out_le : kernel.outGrade ≤ metric.size
  terms : ∀ t ∈ kernel.terms, IsBasisBlade metric.size kernel.signature.lhs t.lhs
    ∧ IsBasisBlade metric.size kernel.signature.rhs t.rhs
    ∧ IsBasisBlade metric.size kernel.outGrade t.out

theorem signature_of_listed (h : metric.listed? s = some kernel) : kernel.signature = s := by
  obtain ⟨grade, -, rfl⟩ := Option.map_eq_some_iff.mp h
  rfl

/-- **A product of basis blades that is kept is a basis blade of the target grade.** -/
theorem isBasisBlade_out {l r outGrade : Nat} {t : KernelTerm}
    (ht : t ∈ metric.pairTerms l r outGrade) : IsBasisBlade metric.size outGrade t.out := by
  obtain ⟨hlhs, hrhs, hlength, hterm⟩ := mem_pairTerms.mp ht
  have hword : metric.InAlphabet (t.lhs ++ t.rhs) := InAlphabet.append hlhs.bounded hrhs.bounded
  refine ⟨?_, ?_, hlength⟩ <;> rw [hterm]
  · exact metric.normalForm_increasing _
  · exact hword.normalForm

theorem isGraded_of_listed (hs : s ∈ metric.signatures) (h : metric.listed? s = some kernel) :
    metric.IsGraded kernel := by
  obtain ⟨⟨-, hl⟩, -, hr⟩ := mem_signatures.mp hs
  obtain ⟨grade, hgrade, rfl⟩ := Option.map_eq_some_iff.mp h
  have hfill := (Option.filter_eq_some_iff.mp hgrade).2
  rw [decide_eq_true_eq] at hfill
  refine ⟨hl, hr, hfill.2, ?_⟩
  intro t ht
  obtain ⟨hlhs, hrhs, -⟩ := mem_pairTerms.mp ht
  exact ⟨hlhs, hrhs, isBasisBlade_out ht⟩

end Metric

/-! ## §4. Names of kernels. -/

/-- A number is written without underscores. -/
theorem underscore_notMem_repr (n : Nat) : '_' ∉ (Nat.repr n).toList := by
  intro h
  rw [Nat.toList_repr] at h
  cases Nat.isDigit_of_mem_toDigits (by decide) (by decide) h

/-- **A kernel is told by its name.** -/
theorem Signature.name_injective {s s' : Signature} (h : s.name = s'.name) : s = s' := by
  obtain ⟨product, l, r⟩ := s
  obtain ⟨product', l', r'⟩ := s'
  have hnumbers : ∀ p : String, p ++ "_" ++ Nat.repr l ++ "_" ++ Nat.repr r
      = p ++ "_" ++ Nat.repr l' ++ "_" ++ Nat.repr r' → l = l' ∧ r = r' := by
    intro p heq
    rw [← String.toList_inj] at heq
    simp only [String.toList_append, List.append_assoc, List.append_cancel_left_eq] at heq
    obtain ⟨hl, -, hr⟩ := (List.append_cons_inj_of_notMem (underscore_notMem_repr l)
      (underscore_notMem_repr r)).mp heq
    exact ⟨Nat.repr_inj.mp (String.toList_inj.mp hl), Nat.repr_inj.mp (String.toList_inj.mp hr)⟩
  cases product <;> cases product'
  · obtain ⟨rfl, rfl⟩ := hnumbers _ h
    rfl
  · -- the stems begin with different letters
    have hletters := congrArg String.toList h
    simp [name, GradedProduct.name] at hletters
  · have hletters := congrArg String.toList h
    simp [name, GradedProduct.name] at hletters
  · obtain ⟨rfl, rfl⟩ := hnumbers _ h
    rfl

/-- No two kernels of a metric share their name. -/
theorem Metric.nodup_kernel_names (metric : Metric) :
    ((metric.signatures.filterMap metric.listed?).map fun k => k.signature.name).Nodup := by
  rw [List.Nodup, List.pairwise_map]
  refine List.pairwise_filterMap.mpr (metric.nodup_signatures.imp ?_)
  intro s s' hne kernel hkernel kernel' hkernel' hname
  rw [Metric.signature_of_listed hkernel, Metric.signature_of_listed hkernel'] at hname
  exact hne (Signature.name_injective hname)

end GeometricAlgebra
