/-
  GeometricAlgebra.Proofs.KernelListing
  ────────────────────────────────
  **THE LIST OF ALL KERNELS.**

  The inventory tries every pair of grades with every product and keeps what has
  blades to fill.  Over `n` axes this leaves the outer products of grades
  `l, r ≥ 1` with `l + r ≤ n` and the left contractions of grades `1 ≤ l < r ≤ n`
  (`Signature.Fills`), equally many of both: an outer product is determined by the
  lower of its grades and their sum, as a contraction is by its two grades
  (`Metric.countP_fills`).  A kernel that is kept has a step, because `n` axes
  have room for two blades without a common axis, or for one inside the other.

  Main result:
    * `Generator.kernels_complete` — which kernels there are, in which order, how
      many, what each of them is, and that none of them fails.
-/
import GeometricAlgebra.Proofs.KernelInventory

namespace GeometricAlgebra

open Outcome

/-! ## §1. Order and shape of signatures. -/

namespace Signature

/-- Signatures in order: by the left grade, then by the right one, and of equal
grades the outer product first. -/
def Precedes (s t : Signature) : Prop :=
  s.lhs < t.lhs ∨ s.lhs = t.lhs ∧ (s.rhs < t.rhs
    ∨ s.rhs = t.rhs ∧ s.product = .wedge ∧ t.product = .leftContraction)

/-- Positive grades whose product has a positive grade of at most `size`. -/
def Fills (size : Nat) (s : Signature) : Prop :=
  match s.product with
  | .wedge => 1 ≤ s.lhs ∧ 1 ≤ s.rhs ∧ s.lhs + s.rhs ≤ size
  | .leftContraction => 1 ≤ s.lhs ∧ s.lhs < s.rhs ∧ s.rhs ≤ size

instance (size : Nat) (s : Signature) : Decidable (s.Fills size) := by
  unfold Fills
  split <;> infer_instance

/-- The greatest of the three grades. -/
def top (s : Signature) : Nat :=
  match s.product with
  | .wedge => s.lhs + s.rhs
  | .leftContraction => s.rhs

/-- The signature with the given greatest grade and left grade. -/
def ofTop (product : GradedProduct) (top lhs : Nat) : Signature :=
  match product with
  | .wedge => ⟨.wedge, lhs, top - lhs⟩
  | .leftContraction => ⟨.leftContraction, lhs, top⟩

theorem fills_iff {size : Nat} {s : Signature} :
    s.Fills size ↔ 1 ≤ s.lhs ∧ s.lhs < s.top ∧ s.top ≤ size := by
  obtain ⟨product, l, r⟩ := s
  cases product with
  | wedge =>
    show 1 ≤ l ∧ 1 ≤ r ∧ l + r ≤ size ↔ 1 ≤ l ∧ l < l + r ∧ l + r ≤ size
    omega
  | leftContraction => exact Iff.rfl

@[simp] theorem product_ofTop (product : GradedProduct) (top lhs : Nat) :
    (ofTop product top lhs).product = product := by
  cases product <;> rfl

@[simp] theorem lhs_ofTop (product : GradedProduct) (top lhs : Nat) :
    (ofTop product top lhs).lhs = lhs := by
  cases product <;> rfl

theorem top_ofTop (product : GradedProduct) {top lhs : Nat} (h : lhs ≤ top) :
    (ofTop product top lhs).top = top := by
  cases product with
  | wedge =>
    show lhs + (top - lhs) = top
    omega
  | leftContraction => rfl

/-- **A signature is determined by its product, its greatest grade and its left grade.** -/
theorem ofTop_top (s : Signature) : ofTop s.product s.top s.lhs = s := by
  obtain ⟨product, l, r⟩ := s
  cases product with
  | wedge =>
    show (⟨.wedge, l, l + r - l⟩ : Signature) = ⟨.wedge, l, r⟩
    rw [Nat.add_sub_cancel_left]
  | leftContraction => rfl

end Signature

namespace Metric

variable {metric : Metric} {s : Signature} {kernel : Kernel}

theorem signatures_ordered (metric : Metric) :
    metric.signatures.Pairwise Signature.Precedes := by
  have hgrades : (List.range' 1 metric.size).Pairwise (· < ·) := List.pairwise_lt_range'
  have hproducts : GradedProduct.all.Pairwise fun p q => p = .wedge ∧ q = .leftContraction := by
    decide
  apply List.pairwise_flatMap.mpr
  constructor
  · intro l _
    apply List.pairwise_flatMap.mpr
    constructor
    · intro r _
      exact List.pairwise_map.mpr (hproducts.imp fun h => Or.inr ⟨rfl, Or.inr ⟨rfl, h⟩⟩)
    · -- different right grades
      apply hgrades.imp
      intro r r' hlt s hs t ht
      obtain ⟨p, -, rfl⟩ := List.mem_map.mp hs
      obtain ⟨q, -, rfl⟩ := List.mem_map.mp ht
      exact Or.inr ⟨rfl, Or.inl hlt⟩
  · -- different left grades
    apply hgrades.imp
    intro l l' hlt s hs t ht
    obtain ⟨r, -, hs⟩ := List.mem_flatMap.mp hs
    obtain ⟨r', -, ht⟩ := List.mem_flatMap.mp ht
    obtain ⟨p, -, rfl⟩ := List.mem_map.mp hs
    obtain ⟨q, -, rfl⟩ := List.mem_map.mp ht
    exact Or.inl hlt

theorem mem_signatures_of_fills (h : s.Fills metric.size) : s ∈ metric.signatures := by
  rw [mem_signatures]
  obtain ⟨product, l, r⟩ := s
  cases product <;> simp only [Signature.Fills] at h ⊢ <;> omega

/-! ## §2. How many signatures fill. -/

/-- **Half of the pairs of grades**, for each of the products: those of a
greatest grade and a lower one. -/
theorem countP_fills (metric : Metric) (product : GradedProduct) :
    metric.signatures.countP (fun s => s.product = product ∧ s.Fills metric.size)
      = metric.size * (metric.size - 1) / 2 := by
  have hnodup := metric.nodup_signatures.filter
    fun s => decide (s.product = product ∧ s.Fills metric.size)
  rw [List.countP_eq_length_filter, ← List.toFinset_card_of_nodup hnodup]
  -- below each of the grades `0, …, n − 1` there are as many grades as it says
  have hpairs : ((Finset.range metric.size).sigma fun top => Finset.range top).card
      = metric.size * (metric.size - 1) / 2 := by
    rw [Finset.card_sigma, ← Finset.sum_range_id]
    exact Finset.sum_congr rfl fun top _ => Finset.card_range top
  rw [← hpairs]
  have hmem : ∀ s, s ∈ (metric.signatures.filter fun s =>
      s.product = product ∧ s.Fills metric.size).toFinset
        ↔ s.product = product ∧ s.Fills metric.size := by
    intro s
    rw [List.mem_toFinset, List.mem_filter, decide_eq_true_eq]
    exact ⟨And.right, fun h => ⟨mem_signatures_of_fills h.2, h⟩⟩
  refine Finset.card_nbij' (fun s => ⟨s.top - 1, s.lhs - 1⟩)
    (fun pair => Signature.ofTop product (pair.1 + 1) (pair.2 + 1)) ?_ ?_ ?_ ?_
  · intro s hs
    obtain ⟨-, hfills⟩ := (hmem s).mp hs
    obtain ⟨h1, h2, h3⟩ := Signature.fills_iff.mp hfills
    simp only [Finset.coe_sigma, Set.mem_sigma_iff, Finset.coe_range, Set.mem_Iio]
    omega
  · intro pair hpair
    simp only [Finset.coe_sigma, Set.mem_sigma_iff, Finset.coe_range, Set.mem_Iio] at hpair
    refine (hmem _).mpr ⟨Signature.product_ofTop _ _ _, Signature.fills_iff.mpr ?_⟩
    rw [Signature.lhs_ofTop, Signature.top_ofTop product (by omega)]
    omega
  · intro s hs
    obtain ⟨rfl, hfills⟩ := (hmem s).mp hs
    obtain ⟨h1, h2, -⟩ := Signature.fills_iff.mp hfills
    show Signature.ofTop s.product (s.top - 1 + 1) (s.lhs - 1 + 1) = s
    rw [Nat.sub_add_cancel h1, Nat.sub_add_cancel (by omega), Signature.ofTop_top]
  · intro pair hpair
    simp only [Finset.coe_sigma, Set.mem_sigma_iff, Finset.coe_range, Set.mem_Iio] at hpair
    show (⟨(Signature.ofTop product (pair.1 + 1) (pair.2 + 1)).top - 1,
      (Signature.ofTop product (pair.1 + 1) (pair.2 + 1)).lhs - 1⟩ : (_ : Nat) × Nat) = pair
    rw [Signature.lhs_ofTop, Signature.top_ofTop product (by omega)]
    rfl

/-! ## §3. The kernels that are listed. -/

/-- **A kernel is listed exactly if its signature fills.** -/
theorem listed?_isSome_iff (hs : s ∈ metric.signatures) :
    (metric.listed? s).isSome ↔ s.Fills metric.size := by
  obtain ⟨product, l, r⟩ := s
  have hgrades : (1 ≤ l ∧ l ≤ metric.size) ∧ 1 ≤ r ∧ r ≤ metric.size := mem_signatures.mp hs
  cases product with
  | wedge =>
    simp only [listed?, Signature.target?, Signature.Fills, Option.isSome_map,
      Option.isSome_filter, Option.any_some, decide_eq_true_eq]
    omega
  | leftContraction =>
    by_cases h : l ≤ r
    · simp only [listed?, Signature.target?, Signature.Fills, if_pos h, Option.isSome_map,
        Option.isSome_filter, Option.any_some, decide_eq_true_eq]
      omega
    · simp only [listed?, Signature.target?, Signature.Fills, if_neg h, Option.isSome_map,
        Option.isSome_filter, Option.any_none, Bool.false_eq_true, false_iff]
      omega

/-- The signatures of the listed kernels are those that fill, in their order. -/
theorem signatures_of_listed (metric : Metric) :
    (metric.signatures.filterMap metric.listed?).map Kernel.signature
      = metric.signatures.filter (fun s => s.Fills metric.size) := by
  have hsignature : ∀ s ∈ metric.signatures, (metric.listed? s).map Kernel.signature
      = Option.guard (fun s => s.Fills metric.size) s := by
    intro s hs
    have hiff := listed?_isSome_iff hs
    cases hlisted : metric.listed? s with
    | none =>
      rw [hlisted] at hiff
      have hnot : ¬ s.Fills metric.size := fun h => absurd (hiff.mpr h) (by decide)
      simp [Option.guard, hnot]
    | some kernel =>
      rw [hlisted] at hiff
      simp [Option.guard, hiff.mp rfl, signature_of_listed hlisted]
  rw [List.map_filterMap, List.filterMap_congr hsignature, List.filterMap_eq_filter]

/-- **What is listed** for a signature: its target grade, which has blades to fill,
and the pairs of basis blades that lead there. -/
theorem listed?_eq_some (h : metric.listed? s = some kernel) :
    kernel.signature = s ∧ s.target? = some kernel.outGrade
      ∧ (1 ≤ kernel.outGrade ∧ kernel.outGrade ≤ metric.size)
      ∧ kernel.terms = metric.pairTerms s.lhs s.rhs kernel.outGrade := by
  obtain ⟨grade, hgrade, rfl⟩ := Option.map_eq_some_iff.mp h
  obtain ⟨htarget, hfill⟩ := Option.filter_eq_some_iff.mp hgrade
  exact ⟨rfl, htarget, of_decide_eq_true hfill, rfl⟩

/-- **There is room for a step**: two blades without a common axis, or one blade
inside another. -/
theorem pairTerms_ne_nil {grade : Nat} (hfills : s.Fills metric.size)
    (htarget : s.target? = some grade) : metric.pairTerms s.lhs s.rhs grade ≠ [] := by
  apply List.ne_nil_of_length_pos
  obtain ⟨product, l, r⟩ := s
  cases product with
  | wedge =>
    obtain ⟨-, -, hle⟩ : 1 ≤ l ∧ 1 ≤ r ∧ l + r ≤ metric.size := hfills
    obtain rfl : l + r = grade := Option.some.inj htarget
    show 0 < (metric.pairTerms l r (l + r)).length
    rw [(metric.wedge_isTable l r).length_eq]
    exact Nat.mul_pos (Nat.choose_pos (by omega)) (Nat.choose_pos (by omega))
  | leftContraction =>
    obtain ⟨-, hlt, hle⟩ : 1 ≤ l ∧ l < r ∧ r ≤ metric.size := hfills
    have htarget' : (if l ≤ r then some (r - l) else none) = some grade := htarget
    rw [if_pos hlt.le] at htarget'
    obtain rfl : r - l = grade := Option.some.inj htarget'
    show 0 < (metric.pairTerms l r (r - l)).length
    rw [(metric.leftContraction_isTable hlt.le).length_eq]
    exact Nat.mul_pos (Nat.choose_pos hle) (Nat.choose_pos hlt.le)

/-- **No kernel meets a malformed blade**, of whatever grades: its target grade may
overflow, and that is all. -/
theorem kernel_ne_malformedBlade (metric : Metric) (s : Signature) (fault : BladeFault) :
    metric.kernel s ≠ .error (.malformedBlade fault) := by
  intro h
  by_cases hover : s.Overflows
  · rw [metric.kernel_of_overflows hover] at h
    cases h
  · rw [kernel_eq_of_not_overflows hover] at h
    cases h

end Metric

/-! ## §4. The kernels of a generator. -/

namespace Generator

/-- **THE INVENTORY OF AN ACCEPTED GENERATOR IS COMPLETE**, and making it never fails.
Over `n` axes the kernels are the outer products of grades `l, r ≥ 1` with
`l + r ≤ n` and the left contractions of grades `1 ≤ l < r ≤ n`, in strictly
increasing order, each once and `n(n - 1)/2` of each product; every one is the
kernel of its signature, has the target grade of the integers, from 1 to `n`, and
at least one step.  No kernel of any grades is refused for a malformed blade. -/
theorem kernels_complete {s : Settings} {g : Generator} (h : ofSettings s = .ok g) :
    ∃ kernels, g.metric.kernels = .ok kernels ∧ g.emit = .ok (g.moduleText kernels)
      ∧ (kernels.map Kernel.signature).Pairwise Signature.Precedes
      ∧ (kernels.map Kernel.signature).Nodup
      ∧ (∀ signature, signature ∈ kernels.map Kernel.signature ↔ signature.Fills g.maxGrade)
      ∧ (∀ product, kernels.countP (fun kernel => kernel.signature.product = product)
          = g.maxGrade * (g.maxGrade - 1) / 2)
      ∧ (∀ kernel ∈ kernels, g.metric.kernel kernel.signature = .ok (some kernel)
          ∧ kernel.signature.target? = some kernel.outGrade
          ∧ (1 ≤ kernel.outGrade ∧ kernel.outGrade ≤ g.maxGrade) ∧ kernel.terms ≠ [])
      ∧ ∀ signature fault, g.metric.kernel signature ≠ .error (.malformedBlade fault) := by
  obtain ⟨rfl, hg⟩ := ofSettings_accepted h
  have hsize : g.metric.size ≤ Metric.maxSize := hg.size_eq.trans_le hg.axisCount_le
  have hkernels := Metric.kernels_eq hsize
  have hsignatures := g.metric.signatures_of_listed
  refine ⟨_, hkernels, ?_, ?_, ?_, ?_, ?_, ?_, g.metric.kernel_ne_malformedBlade⟩
  · rw [emit, hkernels]
    rfl
  · rw [hsignatures]
    exact g.metric.signatures_ordered.filter _
  · rw [hsignatures]
    exact g.metric.nodup_signatures.filter _
  · intro signature
    rw [hsignatures, List.mem_filter, decide_eq_true_eq]
    exact ⟨And.right, fun hfills => ⟨Metric.mem_signatures_of_fills hfills, hfills⟩⟩
  · intro product
    have hcount := g.metric.countP_fills product
    have hmap : (g.metric.signatures.filterMap g.metric.listed?).countP
        (fun kernel => kernel.signature.product = product)
        = ((g.metric.signatures.filterMap g.metric.listed?).map Kernel.signature).countP
          (fun signature => signature.product = product) := by
      rw [List.countP_map]
      rfl
    rw [hmap, hsignatures, List.countP_filter, maxGrade, ← hcount]
    simp only [Bool.decide_and]
  · intro kernel hkernel
    obtain ⟨signature, hsignature, hlisted⟩ := List.mem_filterMap.mp hkernel
    obtain ⟨rfl, htarget, hgrade, hterms⟩ := Metric.listed?_eq_some hlisted
    have hfills := (Metric.listed?_isSome_iff hsignature).mp (by rw [hlisted]; rfl)
    obtain ⟨⟨-, hl⟩, -, hr⟩ := Metric.mem_signatures.mp hsignature
    have hbound : Metric.maxSize + Metric.maxSize < Word.bound := by decide
    refine ⟨?_, htarget, hgrade, ?_⟩
    · rw [Metric.kernel_eq_listed (by omega), hlisted]
    · rw [hterms]
      exact Metric.pairTerms_ne_nil hfills htarget

/-- Conformal space has ten kernels of each product, among them the outer product of a
vector and a 4-vector, but none of two trivectors. -/
theorem kernels_complete_space : ofSettings .default = .ok space
    ∧ ∃ kernels, space.metric.kernels = .ok kernels
      ∧ kernels.countP (fun kernel => kernel.signature.product = .leftContraction) = 10
      ∧ ⟨.wedge, 1, 4⟩ ∈ kernels.map Kernel.signature
      ∧ ⟨.wedge, 3, 3⟩ ∉ kernels.map Kernel.signature
      ∧ ∀ kernel ∈ kernels, kernel.terms ≠ [] := by
  obtain ⟨kernels, hkernels, -, -, -, hmem, hcount, hkernel, -⟩ :=
    kernels_complete ofSettings_default
  refine ⟨ofSettings_default, kernels, hkernels, hcount .leftContraction, ?_, ?_, ?_⟩
  · exact (hmem _).mpr (by decide)
  · exact fun h => absurd ((hmem _).mp h) (by decide)
  · exact fun kernel h => (hkernel kernel h).2.2.2

end Generator

end GeometricAlgebra
