/-
  GeometricAlgebra.Proofs.KernelTerms
  ────────────────────────────────
  **WHAT THE KERNELS LIST.**

  A kernel keeps a pair of basis blades if the canonical form of the two in a
  row has the target grade.  Shared axes vanish in pairs, so the length of that
  form says how many axes are shared: none of them for the outer product, all
  of the left ones for the left contraction.

  Main results:
    * `Metric.kernel_eq_ok`, `Metric.kernel_eq_some` — when there is a kernel,
      and which list of steps it has.
    * `Generator.kernel_terms_exact` — the steps of every kernel of every
      accepted generator: pairs, order, results, signs and number.
-/
import GeometricAlgebra.Proofs.AcceptedSettings
import GeometricAlgebra.Proofs.BasisBlades
import GeometricAlgebra.Proofs.Overflow
import GeometricAlgebra.Proofs.Reordering

namespace GeometricAlgebra

open Outcome

/-! ## §1. The steps of a kernel as one list. -/

namespace Metric

variable {metric : Metric} {l r outGrade : Nat}

/-- The step for a pair of blades, whatever its grade. -/
def pairTerm (metric : Metric) (lhs rhs : Blade) : KernelTerm :=
  ⟨(metric.normalForm (lhs ++ rhs)).sign, lhs, rhs, (metric.normalForm (lhs ++ rhs)).axes⟩

/-- The right operands whose product with a left one has the target grade. -/
def partners (metric : Metric) (r outGrade : Nat) (lhs : Blade) : List Blade :=
  (metric.basis r).filter fun rhs => (metric.pairTerm lhs rhs).out.length = outGrade

/-- The steps of all pairs of basis blades with the target grade. -/
def pairTerms (metric : Metric) (l r outGrade : Nat) : List KernelTerm :=
  (metric.basis l).flatMap fun lhs => (metric.partners r outGrade lhs).map (metric.pairTerm lhs)

/-- Basis blades are words over the alphabet, so no pair of them fails. -/
theorem kernelTerm?_eq_ok {lhs rhs : Blade} (hlhs : lhs ∈ metric.basis l)
    (hrhs : rhs ∈ metric.basis r) :
    metric.kernelTerm? outGrade lhs rhs
      = .ok (if (metric.pairTerm lhs rhs).out.length = outGrade
          then some (metric.pairTerm lhs rhs) else none) := by
  have hword : metric.InAlphabet (lhs ++ rhs) :=
    InAlphabet.append (mem_basis.mp hlhs).bounded (mem_basis.mp hrhs).bounded
  rw [kernelTerm?, canonicalize_of_lt hword]
  rfl

theorem kernelTerms_eq_ok (product : GradedProduct) :
    metric.kernelTerms ⟨product, l, r⟩ outGrade = .ok (metric.pairTerms l r outGrade) := by
  -- of a row of options, the pairs of the right grade remain
  have hkept : ∀ lhs, ((metric.basis r).map fun rhs =>
      if (metric.pairTerm lhs rhs).out.length = outGrade then some (metric.pairTerm lhs rhs)
        else none).reduceOption
      = (metric.partners r outGrade lhs).map (metric.pairTerm lhs) := by
    intro lhs
    rw [partners, List.reduceOption, List.filterMap_map, ← List.filterMap_eq_map',
      List.filterMap_filter]
    simp only [decide_eq_true_eq]
    rfl
  have hrow : ∀ lhs ∈ metric.basis l,
      (do return (← (metric.basis r).mapM (metric.kernelTerm? outGrade lhs)).reduceOption
        : Outcome (List KernelTerm))
      = .ok ((metric.partners r outGrade lhs).map (metric.pairTerm lhs)) := by
    intro lhs hlhs
    rw [mapM_eq_ok fun rhs hrhs => kernelTerm?_eq_ok hlhs hrhs, ← hkept]
    rfl
  show ((metric.basis l).mapM _ >>= fun rows => pure rows.flatten) = _
  rw [mapM_eq_ok hrow]
  rfl

/-! ## §2. When there is a kernel. -/

theorem targetGrade_wedge_iff : GradedProduct.wedge.targetGrade l r = .ok (some outGrade)
    ↔ l + r < Word.bound ∧ outGrade = l + r := by
  rw [← Word.ofNat_eq_ok_iff]
  unfold GradedProduct.targetGrade
  cases Word.ofNat (l + r) with
  | error failure => exact ⟨nofun, nofun⟩
  | ok sum =>
    show Except.ok (some sum) = Except.ok (some outGrade) ↔ _
    rw [Except.ok.injEq, Except.ok.injEq, Option.some.injEq]

theorem targetGrade_leftContraction_iff :
    GradedProduct.leftContraction.targetGrade l r = .ok (some outGrade)
      ↔ l ≤ r ∧ outGrade = r - l := by
  unfold GradedProduct.targetGrade
  rw [Except.ok.injEq]
  split
  next h =>
    rw [Option.some.injEq]
    exact ⟨fun heq => ⟨h, heq.symm⟩, fun heq => heq.2.symm⟩
  next h => exact ⟨nofun, fun heq => absurd heq.1 h⟩

/-- **A kernel whose target grade has blades to fill exists.** -/
theorem kernel_eq_ok {product : GradedProduct}
    (htarget : product.targetGrade l r = .ok (some outGrade)) (hpos : 0 < outGrade)
    (hle : outGrade ≤ metric.size) :
    metric.kernel ⟨product, l, r⟩
      = .ok (some ⟨⟨product, l, r⟩, outGrade, metric.pairTerms l r outGrade⟩) := by
  unfold kernel
  rw [htarget]
  show (if 0 < outGrade ∧ outGrade ≤ metric.size then _ else _) = _
  rw [if_pos ⟨hpos, hle⟩, kernelTerms_eq_ok]
  rfl

/-- **A kernel that exists has a target grade**, and the steps that lead there. -/
theorem kernel_eq_some {product : GradedProduct} {kernel : Kernel}
    (h : metric.kernel ⟨product, l, r⟩ = .ok (some kernel)) :
    product.targetGrade l r = .ok (some kernel.outGrade)
      ∧ kernel.terms = metric.pairTerms l r kernel.outGrade := by
  cases htarget : product.targetGrade l r with
  | error failure =>
    unfold Metric.kernel at h
    rw [htarget] at h
    cases h
  | ok target =>
    cases target with
    | none =>
      unfold Metric.kernel at h
      rw [htarget] at h
      cases h
    | some grade =>
      by_cases hgrade : 0 < grade ∧ grade ≤ metric.size
      · rw [kernel_eq_ok htarget hgrade.1 hgrade.2] at h
        cases h
        exact ⟨rfl, rfl⟩
      · unfold Metric.kernel at h
        rw [htarget] at h
        change (if 0 < grade ∧ grade ≤ metric.size then _ else _) = _ at h
        rw [if_neg hgrade] at h
        cases h

end Metric

/-! ## §3. Tables of steps. -/

/-- Lexicographic order of the operands. -/
def KernelTerm.Precedes (t u : KernelTerm) : Prop :=
  t.lhs < u.lhs ∨ t.lhs = u.lhs ∧ t.rhs < u.rhs

/-- The steps are one for each related pair of basis blades of grades `l` and
`r` and none for another pair, in lexicographic order, `count` in all. -/
structure IsTable (size l r : Nat) (related : Blade → Blade → Prop) (count : Nat)
    (terms : List KernelTerm) : Prop where
  ordered : terms.Pairwise KernelTerm.Precedes
  sound : ∀ t ∈ terms,
    IsBasisBlade size l t.lhs ∧ IsBasisBlade size r t.rhs ∧ related t.lhs t.rhs
  complete : ∀ lhs rhs, IsBasisBlade size l lhs → IsBasisBlade size r rhs → related lhs rhs →
    ∃! t, t ∈ terms ∧ t.lhs = lhs ∧ t.rhs = rhs
  length_eq : terms.length = count

namespace Metric

variable {metric : Metric} {l r outGrade : Nat}

theorem mem_partners {lhs rhs : Blade} : rhs ∈ metric.partners r outGrade lhs
    ↔ rhs ∈ metric.basis r ∧ (metric.pairTerm lhs rhs).out.length = outGrade := by
  rw [partners, List.mem_filter, decide_eq_true_eq]

theorem mem_pairTerms {t : KernelTerm} : t ∈ metric.pairTerms l r outGrade
    ↔ IsBasisBlade metric.size l t.lhs ∧ IsBasisBlade metric.size r t.rhs
      ∧ t.out.length = outGrade ∧ t = metric.pairTerm t.lhs t.rhs := by
  rw [pairTerms, List.mem_flatMap, ← mem_basis, ← mem_basis]
  constructor
  · intro h
    obtain ⟨lhs, hlhs, hmem⟩ := h
    obtain ⟨rhs, hrhs, rfl⟩ := List.mem_map.mp hmem
    obtain ⟨hrhs, hlength⟩ := mem_partners.mp hrhs
    exact ⟨hlhs, hrhs, hlength, rfl⟩
  · intro h
    obtain ⟨hlhs, hrhs, hlength, hterm⟩ := h
    rw [hterm] at hlength
    exact ⟨t.lhs, hlhs, List.mem_map.mpr ⟨t.rhs, mem_partners.mpr ⟨hrhs, hlength⟩, hterm.symm⟩⟩

/-- Both operands run through their basis in order, the right one faster. -/
theorem pairTerms_ordered (metric : Metric) (l r outGrade : Nat) :
    (metric.pairTerms l r outGrade).Pairwise KernelTerm.Precedes := by
  refine List.pairwise_flatMap.mpr ⟨?_, ?_⟩
  · intro lhs _
    refine List.pairwise_map.mpr (((metric.basis_ordered r).filter _).imp ?_)
    intro rhs rhs' hlt
    exact Or.inr ⟨rfl, hlt⟩
  · refine (metric.basis_ordered l).imp ?_
    intro lhs lhs' hlt t ht u hu
    obtain ⟨rhs, -, rfl⟩ := List.mem_map.mp ht
    obtain ⟨rhs', -, rfl⟩ := List.mem_map.mp hu
    exact Or.inl hlt

/-- Left operands with equally many partners. -/
theorem length_pairTerms {count : Nat}
    (h : ∀ lhs ∈ metric.basis l, (metric.partners r outGrade lhs).length = count) :
    (metric.pairTerms l r outGrade).length = metric.size.choose l * count := by
  have hrow : ∀ lhs ∈ metric.basis l,
      ((metric.partners r outGrade lhs).map (metric.pairTerm lhs)).length = count := by
    intro lhs hlhs
    rw [List.length_map, h lhs hlhs]
  rw [pairTerms, List.length_flatMap, List.map_congr_left hrow, List.map_const',
    List.sum_replicate_nat, length_basis]

/-- **The pairs with the target grade are the related ones.** -/
theorem pairTerms_isTable {related : Blade → Blade → Prop} {count : Nat}
    (hrelated : ∀ lhs rhs, IsBasisBlade metric.size l lhs → IsBasisBlade metric.size r rhs →
      ((metric.pairTerm lhs rhs).out.length = outGrade ↔ related lhs rhs))
    (hcount : ∀ lhs, IsBasisBlade metric.size l lhs →
      (metric.partners r outGrade lhs).length = count) :
    IsTable metric.size l r related (metric.size.choose l * count)
      (metric.pairTerms l r outGrade) where
  ordered := metric.pairTerms_ordered l r outGrade
  sound := by
    intro t ht
    obtain ⟨hlhs, hrhs, hlength, hterm⟩ := mem_pairTerms.mp ht
    rw [hterm] at hlength
    exact ⟨hlhs, hrhs, (hrelated _ _ hlhs hrhs).mp hlength⟩
  complete := by
    intro lhs rhs hlhs hrhs hpair
    have hlength := (hrelated lhs rhs hlhs hrhs).mpr hpair
    refine ⟨metric.pairTerm lhs rhs, ⟨mem_pairTerms.mpr ⟨hlhs, hrhs, hlength, rfl⟩, rfl, rfl⟩, ?_⟩
    intro t h
    obtain ⟨ht, rfl, rfl⟩ := h
    exact (mem_pairTerms.mp ht).2.2.2
  length_eq := length_pairTerms fun lhs hlhs => hcount lhs (mem_basis.mp hlhs)

/-! ## §4. The two products. -/

section Pair

variable {lhs rhs : Blade} (hlhs : IsBasisBlade metric.size l lhs)
  (hrhs : IsBasisBlade metric.size r rhs)
include hlhs hrhs

/-- The product reaches the sum of the grades if no axis is shared. -/
theorem length_eq_add_iff : (metric.pairTerm lhs rhs).out.length = l + r
    ↔ Disjoint lhs.toFinset rhs.toFinset := by
  have hlength := metric.length_pair hlhs.increasing hrhs.increasing
  rw [hlhs.length_eq, hrhs.length_eq] at hlength
  rw [Finset.disjoint_iff_inter_eq_empty, ← Finset.card_eq_zero]
  show (metric.normalForm (lhs ++ rhs)).axes.length = l + r ↔ _
  omega

/-- The product falls to the difference of the grades if every left axis is
shared. -/
theorem length_eq_sub_iff (hle : l ≤ r) : (metric.pairTerm lhs rhs).out.length = r - l
    ↔ lhs.toFinset ⊆ rhs.toFinset := by
  have hlength := metric.length_pair hlhs.increasing hrhs.increasing
  rw [hlhs.length_eq, hrhs.length_eq] at hlength
  -- a blade is part of another if none of its axes is missing from what they share
  have hcard := hlhs.card_toFinset
  have hiff : lhs.toFinset ⊆ rhs.toFinset ↔ (lhs.toFinset ∩ rhs.toFinset).card = l := by
    rw [← Finset.inter_eq_left]
    constructor
    · intro h
      rw [h, hcard]
    · intro h
      exact Finset.eq_of_subset_of_card_le Finset.inter_subset_left (by rw [h, hcard])
  rw [hiff]
  show (metric.normalForm (lhs ++ rhs)).axes.length = r - l ↔ _
  omega

end Pair

theorem wedge_isTable (metric : Metric) (l r : Nat) : IsTable metric.size l r List.Disjoint
    (metric.size.choose l * (metric.size - l).choose r) (metric.pairTerms l r (l + r)) := by
  refine pairTerms_isTable ?_ ?_
  · intro lhs rhs hlhs hrhs
    rw [length_eq_add_iff hlhs hrhs, List.disjoint_toFinset_iff_disjoint]
  · intro lhs hlhs
    rw [← countP_disjoint hlhs, partners, ← List.countP_eq_length_filter]
    refine List.countP_congr ?_
    intro rhs hrhs
    simp only [decide_eq_true_eq, length_eq_add_iff hlhs (mem_basis.mp hrhs)]

theorem leftContraction_isTable (metric : Metric) (hle : l ≤ r) : IsTable metric.size l r List.Subset
    (metric.size.choose r * r.choose l) (metric.pairTerms l r (r - l)) := by
  rw [Nat.choose_mul hle]
  refine pairTerms_isTable ?_ ?_
  · intro lhs rhs hlhs hrhs
    rw [length_eq_sub_iff hlhs hrhs hle, Finset.subset_iff]
    simp only [List.mem_toFinset]
    rfl
  · intro lhs hlhs
    rw [← countP_subset hlhs hle, partners, ← List.countP_eq_length_filter]
    refine List.countP_congr ?_
    intro rhs hrhs
    simp only [decide_eq_true_eq, length_eq_sub_iff hlhs (mem_basis.mp hrhs) hle]

end Metric

/-! ## §5. The kernels of a generator. -/

/-- A step of an outer product: its result joins the axes of its operands, and
its sign counts the pairs in the wrong order. -/
structure IsWedgeStep (t : KernelTerm) : Prop where
  increasing : t.out.Pairwise (· < ·)
  mem_out : ∀ i, i ∈ t.out ↔ i ∈ t.lhs ∨ i ∈ t.rhs
  negative_iff : t.sign = .negative ↔ Odd (crossings t.lhs t.rhs)

/-- A step of a left contraction: its result is what the left operand leaves of
the right one, and its sign counts the pairs in the wrong order and the axis
that squares to −1 if it is contracted. -/
structure IsContractionStep (g : Generator) (t : KernelTerm) : Prop where
  increasing : t.out.Pairwise (· < ·)
  mem_out : ∀ i, i ∈ t.out ↔ i ∈ t.rhs ∧ i ∉ t.lhs
  negative_iff : t.sign = .negative ↔ Odd (crossings t.lhs t.rhs
    + if g.settings.negativeAxis ∈ t.lhs.map g.metric.symbol then 1 else 0)

namespace Generator

variable {g : Generator}

/-- Axes that are not shared contribute no square. -/
theorem isWedgeStep {lhs rhs : Blade} (hlhs : lhs.Pairwise (· < ·)) (hrhs : rhs.Pairwise (· < ·))
    (hdisj : lhs.Disjoint rhs) : IsWedgeStep (g.metric.pairTerm lhs rhs) where
  increasing := g.metric.normalForm_increasing _
  mem_out := by
    intro i
    show i ∈ (g.metric.normalForm (lhs ++ rhs)).axes ↔ i ∈ lhs ∨ i ∈ rhs
    rw [Metric.mem_pair hlhs hrhs]
    have hnot : i ∈ lhs → i ∉ rhs := fun h h' => hdisj h h'
    tauto
  negative_iff := by
    -- nothing is shared, so the sign is that of the swaps alone
    have hshared : g.metric.negativeShared lhs rhs = 0 := by
      apply List.countP_eq_zero.mpr
      intro i hi h
      exact hdisj hi (of_decide_eq_true h).1
    show (g.metric.normalForm (lhs ++ rhs)).sign = .negative ↔ _
    rw [Metric.sign_pair hlhs hrhs, hshared, Sign.ofParity_eq_negative_iff]
    rfl

/-- Of a canonical blade, at most the one axis with the chosen symbol squares
to −1. -/
theorem Accepted.negativeShared_eq (hg : g.Accepted) {l : Nat} {lhs rhs : Blade}
    (hlhs : IsBasisBlade g.settings.axisCount l lhs) (hsub : lhs ⊆ rhs) :
    g.metric.negativeShared lhs rhs
      = if g.settings.negativeAxis ∈ lhs.map g.metric.symbol then 1 else 0 := by
  have hsymbols : (lhs.map g.metric.symbol).Nodup := by
    refine List.Nodup.map_on ?_ hlhs.nodup
    intro i hi j hj
    exact hg.symbol_injective (hlhs.bounded i hi) (hlhs.bounded j hj)
  rw [← hsymbols.count, List.count, List.countP_map, Metric.negativeShared]
  refine List.countP_congr ?_
  intro i hi
  rw [decide_eq_true_eq, hg.square_eq_negative_iff (hlhs.bounded i hi), Function.comp_apply,
    beq_iff_eq]
  exact and_iff_right (hsub hi)

/-- All left axes are shared. -/
theorem Accepted.isContractionStep (hg : g.Accepted) {l r : Nat} {lhs rhs : Blade}
    (hlhs : IsBasisBlade g.settings.axisCount l lhs)
    (hrhs : IsBasisBlade g.settings.axisCount r rhs) (hsub : lhs ⊆ rhs) :
    IsContractionStep g (g.metric.pairTerm lhs rhs) where
  increasing := g.metric.normalForm_increasing _
  mem_out := by
    intro i
    show i ∈ (g.metric.normalForm (lhs ++ rhs)).axes ↔ i ∈ rhs ∧ i ∉ lhs
    rw [Metric.mem_pair hlhs.increasing hrhs.increasing]
    have hmem : i ∈ lhs → i ∈ rhs := fun h => hsub h
    tauto
  negative_iff := by
    show (g.metric.normalForm (lhs ++ rhs)).sign = .negative ↔ _
    rw [Metric.sign_pair hlhs.increasing hrhs.increasing, hg.negativeShared_eq hlhs hsub,
      Sign.ofParity_eq_negative_iff]
    rfl

/-- **EVERY KERNEL LISTS EXACTLY THE RIGHT STEPS**, for every accepted generator
and all grades of its blades: the outer product has one step for each pair that
shares no axis, and the left contraction one for each pair whose left blade is
part of the right one. -/
theorem kernel_terms_exact {s : Settings} (h : ofSettings s = .ok g) (l r : Nat) :
    (0 < l + r → l + r ≤ s.axisCount → ∃ kernel,
        g.metric.kernel ⟨.wedge, l, r⟩ = .ok (some kernel) ∧ kernel.outGrade = l + r
          ∧ IsTable s.axisCount l r List.Disjoint
              (s.axisCount.choose l * (s.axisCount - l).choose r) kernel.terms
          ∧ ∀ t ∈ kernel.terms, IsWedgeStep t)
      ∧ (l < r → r ≤ s.axisCount → ∃ kernel,
        g.metric.kernel ⟨.leftContraction, l, r⟩ = .ok (some kernel) ∧ kernel.outGrade = r - l
          ∧ IsTable s.axisCount l r List.Subset (s.axisCount.choose r * r.choose l) kernel.terms
          ∧ ∀ t ∈ kernel.terms, IsContractionStep g t) := by
  obtain ⟨rfl, hg⟩ := ofSettings_accepted h
  have hsize := hg.size_eq
  refine ⟨?_, ?_⟩
  · intro hpos hle
    have htable := g.metric.wedge_isTable l r
    rw [hsize] at htable
    have hword : l + r < Word.bound := (hle.trans hg.axisCount_le).trans_lt (by decide)
    refine ⟨_, Metric.kernel_eq_ok (Metric.targetGrade_wedge_iff.mpr ⟨hword, rfl⟩) hpos
      (hle.trans_eq hsize.symm), rfl, htable, ?_⟩
    intro t ht
    obtain ⟨hlhs, hrhs, hdisj⟩ := htable.sound t ht
    rw [(Metric.mem_pairTerms.mp ht).2.2.2]
    exact isWedgeStep hlhs.increasing hrhs.increasing hdisj
  · intro hlt hr
    have hle : r - l ≤ g.metric.size := ((Nat.sub_le r l).trans hr).trans_eq hsize.symm
    have htable := g.metric.leftContraction_isTable hlt.le
    rw [hsize] at htable
    refine ⟨_, Metric.kernel_eq_ok (Metric.targetGrade_leftContraction_iff.mpr ⟨hlt.le, rfl⟩)
      (Nat.sub_pos_of_lt hlt) hle, rfl, htable, ?_⟩
    intro t ht
    obtain ⟨hlhs, hrhs, hsub⟩ := htable.sound t ht
    rw [(Metric.mem_pairTerms.mp ht).2.2.2]
    exact hg.isContractionStep hlhs hrhs hsub

/-- In conformal space a vector and a bivector have 30 steps in their outer product
and 20 in their contraction. -/
theorem kernel_terms_exact_space : ofSettings .default = .ok space
    ∧ (∃ kernel, space.metric.kernel ⟨.wedge, 1, 2⟩ = .ok (some kernel)
        ∧ kernel.terms.length = 30)
    ∧ (∃ kernel, space.metric.kernel ⟨.leftContraction, 1, 2⟩ = .ok (some kernel)
        ∧ kernel.terms.length = 20) := by
  obtain ⟨hwedge, hcontraction⟩ := kernel_terms_exact ofSettings_default 1 2
  obtain ⟨kernel, hkernel, -, htable, -⟩ := hwedge (by decide) (by decide)
  obtain ⟨kernel', hkernel', -, htable', -⟩ := hcontraction (by decide) (by decide)
  exact ⟨ofSettings_default, ⟨kernel, hkernel, htable.length_eq⟩,
    ⟨kernel', hkernel', htable'.length_eq⟩⟩

end Generator

end GeometricAlgebra
