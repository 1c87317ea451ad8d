/-
  GeometricAlgebra.Proofs.BasisBlades
  ────────────────────────────────
  **THE BASIS OF CANONICAL BLADES, AND HOW MANY THERE ARE.**

  `Subsets.choose` lists the sublists of one length, each once and in
  lexicographic order.  Over the axes of a metric these are the canonical
  blades of one grade (`Metric.mem_basis`).  Sending a blade to the set of its
  axes counts them: a family of blades that depends on the axes only is as
  large as the family of sets (`Metric.countP_basis`).

  Main results:
    * `Metric.basis_ordered` — basis blades increase in lexicographic order.
    * `Metric.countP_disjoint`, `Metric.countP_subset` — how many basis blades
      of a grade avoid a given blade, and how many contain it.
-/
import GeometricAlgebra.Metric
import Mathlib

namespace GeometricAlgebra

/-! ## §1. Subsets by size. -/

namespace Subsets

/-- **`choose` lists the sublists of a length**, and nothing else. -/
theorem mem_choose {α : Type} {k : Nat} {items subset : List α} :
    subset ∈ choose k items ↔ subset.Sublist items ∧ subset.length = k := by
  induction items generalizing k subset with
  | nil =>
    cases k with
    | zero => simp [choose]
    | succ k =>
      rw [choose, List.sublist_nil]
      constructor
      · intro h
        exact absurd h List.not_mem_nil
      · intro h
        obtain ⟨rfl, hlength⟩ := h
        cases hlength
  | cons item rest ih =>
    cases k with
    | zero =>
      rw [choose, List.mem_singleton, List.length_eq_zero_iff]
      constructor
      · intro h
        subst h
        exact ⟨List.nil_sublist _, rfl⟩
      · exact And.right
    | succ k =>
      rw [choose_succ_cons, List.mem_append, List.mem_map, List.sublist_cons_iff, ih]
      -- a subset keeps the head, or it is a subset of the rest
      constructor
      · intro h
        rcases h with ⟨s, hs, rfl⟩ | ⟨hsub, hlength⟩
        · obtain ⟨hsub, rfl⟩ := ih.mp hs
          exact ⟨Or.inr ⟨s, rfl, hsub⟩, List.length_cons⟩
        · exact ⟨Or.inl hsub, hlength⟩
      · intro h
        obtain ⟨hsub | ⟨s, rfl, hsub⟩, hlength⟩ := h
        · exact Or.inr ⟨hsub, hlength⟩
        · exact Or.inl ⟨s, ih.mpr ⟨hsub, Nat.succ.inj hlength⟩, rfl⟩

/-- Of an increasing list, the subsets come in lexicographic order: those with
the least item first. -/
theorem choose_ordered {α : Type} [LT α] {k : Nat} {items : List α}
    (h : items.Pairwise (· < ·)) : (choose k items).Pairwise (· < ·) := by
  induction items generalizing k with
  | nil =>
    cases k with
    | zero => exact List.pairwise_singleton _ _
    | succ k => exact List.Pairwise.nil
  | cons item rest ih =>
    obtain ⟨hitem, hrest⟩ := List.pairwise_cons.mp h
    cases k with
    | zero => exact List.pairwise_singleton _ _
    | succ k =>
      rw [choose_succ_cons]
      refine List.pairwise_append.mpr ⟨?_, ih hrest, ?_⟩
      · -- both keep the head
        refine List.pairwise_map.mpr ((ih hrest).imp ?_)
        intro s t hst
        exact List.cons_lt_cons_iff.mpr (Or.inr ⟨rfl, hst⟩)
      · -- one keeps the head, and the other starts further right
        intro s hs t ht
        obtain ⟨s, -, rfl⟩ := List.mem_map.mp hs
        obtain ⟨hsub, hlength⟩ := mem_choose.mp ht
        cases t with
        | nil => cases hlength
        | cons first t =>
          have hfirst : first ∈ rest := hsub.subset List.mem_cons_self
          exact List.cons_lt_cons_iff.mpr (Or.inl (hitem first hfirst))

/-- **There are as many subsets as a binomial coefficient says.** -/
theorem length_choose {α : Type} (k : Nat) (items : List α) :
    (choose k items).length = items.length.choose k := by
  induction items generalizing k with
  | nil => cases k <;> rfl
  | cons item rest ih =>
    cases k with
    | zero =>
      show 1 = (rest.length + 1).choose 0
      rw [Nat.choose_zero_right]
    | succ k =>
      rw [choose_succ_cons, List.length_append, List.length_map, ih, ih, List.length_cons,
        Nat.choose_succ_succ]

/-- The power set of `n` items has 2ⁿ subsets. -/
theorem length_powerset {α : Type} (items : List α) : (powerset items).length = 2 ^ items.length := by
  unfold powerset
  rw [List.length_flatMap]
  simp only [length_choose]
  exact Nat.sum_range_choose items.length

end Subsets

/-! ## §2. Basis blades. -/

/-- A canonical blade of one grade over the first `size` axes. -/
structure IsBasisBlade (size grade : Nat) (blade : Blade) : Prop where
  increasing : blade.Pairwise (· < ·)
  bounded : ∀ axis ∈ blade, axis < size
  length_eq : blade.length = grade

namespace IsBasisBlade

variable {size grade : Nat} {blade : Blade}

theorem nodup (h : IsBasisBlade size grade blade) : blade.Nodup := h.increasing.imp Nat.ne_of_lt

theorem card_toFinset (h : IsBasisBlade size grade blade) : blade.toFinset.card = grade := by
  rw [List.toFinset_card_of_nodup h.nodup, h.length_eq]

theorem toFinset_subset (h : IsBasisBlade size grade blade) :
    blade.toFinset ⊆ Finset.range size := by
  intro axis haxis
  exact Finset.mem_range.mpr (h.bounded axis (List.mem_toFinset.mp haxis))

/-- A blade has no more axes than there are. -/
theorem le_size (h : IsBasisBlade size grade blade) : grade ≤ size := by
  have hcard := Finset.card_le_card h.toFinset_subset
  rwa [h.card_toFinset, Finset.card_range] at hcard

/-- Every set of axes of the right size is the set of a basis blade. -/
theorem sort {K : Finset Axis} (hK : K ∈ (Finset.range size).powersetCard grade) :
    IsBasisBlade size grade (K.sort (· ≤ ·)) := by
  obtain ⟨hsub, hcard⟩ := Finset.mem_powersetCard.mp hK
  refine ⟨K.sortedLT_sort.pairwise, ?_, ?_⟩
  · intro axis haxis
    exact Finset.mem_range.mp (hsub ((K.mem_sort _).mp haxis))
  · rw [Finset.length_sort, hcard]

end IsBasisBlade

namespace Metric

variable {metric : Metric} {grade : Nat}

theorem mem_basis {blade : Blade} :
    blade ∈ metric.basis grade ↔ IsBasisBlade metric.size grade blade := by
  rw [basis, Subsets.mem_choose, pseudoscalar]
  constructor
  · intro h
    obtain ⟨hsub, hlength⟩ := h
    refine ⟨List.pairwise_lt_range.sublist hsub, ?_, hlength⟩
    intro axis haxis
    exact List.mem_range.mp (hsub.subset haxis)
  · intro h
    have hsubset : blade ⊆ List.range metric.size :=
      fun axis haxis => List.mem_range.mpr (h.bounded axis haxis)
    have hsub : blade.Sublist (List.range metric.size) :=
      List.sublist_of_subperm_of_pairwise (List.subperm_of_subset h.nodup hsubset) h.increasing
        List.pairwise_lt_range
    exact ⟨hsub, h.length_eq⟩

/-- The basis blades of all grades are the subsets of the alphabet. -/
theorem mem_powerset {blade : Blade} : blade ∈ Subsets.powerset metric.pseudoscalar
    ↔ ∃ grade, IsBasisBlade metric.size grade blade := by
  rw [Subsets.powerset, List.mem_flatMap]
  constructor
  · intro h
    obtain ⟨grade, -, hmem⟩ := h
    exact ⟨grade, mem_basis.mp hmem⟩
  · intro h
    obtain ⟨grade, hblade⟩ := h
    have hmem : blade ∈ metric.basis grade := mem_basis.mpr hblade
    refine ⟨grade, ?_, hmem⟩
    have hle := (Subsets.mem_choose.mp hmem).1.length_le
    rw [hblade.length_eq] at hle
    exact List.mem_range.mpr (Nat.lt_succ_of_le hle)

/-- **Basis blades come in lexicographic order.** -/
theorem basis_ordered (metric : Metric) (grade : Nat) :
    (metric.basis grade).Pairwise (· < ·) :=
  Subsets.choose_ordered List.pairwise_lt_range

theorem basis_nodup (metric : Metric) (grade : Nat) : (metric.basis grade).Nodup :=
  (metric.basis_ordered grade).nodup

/-! ## §3. Counting. -/

/-- Basis blades are counted as sets of axes. -/
theorem countP_basis (metric : Metric) (grade : Nat) (P : Finset Axis → Prop) [DecidablePred P] :
    (metric.basis grade).countP (fun blade => P blade.toFinset)
      = (((Finset.range metric.size).powersetCard grade).filter P).card := by
  rw [List.countP_eq_length_filter,
    ← List.toFinset_card_of_nodup ((metric.basis_nodup grade).filter _)]
  -- forgetting the order of a basis blade is undone by sorting
  refine Finset.card_nbij' List.toFinset (fun K => K.sort (· ≤ ·)) ?_ ?_ ?_ ?_
  · intro blade hmem
    obtain ⟨hblade, hP⟩ := List.mem_filter.mp (List.mem_toFinset.mp hmem)
    have h := mem_basis.mp hblade
    refine Finset.mem_coe.mpr (Finset.mem_filter.mpr ⟨?_, of_decide_eq_true hP⟩)
    exact Finset.mem_powersetCard.mpr ⟨h.toFinset_subset, h.card_toFinset⟩
  · intro K hmem
    obtain ⟨hK, hP⟩ := Finset.mem_filter.mp hmem
    refine Finset.mem_coe.mpr (List.mem_toFinset.mpr (List.mem_filter.mpr ⟨?_, ?_⟩))
    · exact mem_basis.mpr (IsBasisBlade.sort hK)
    · rw [decide_eq_true_eq, Finset.sort_toFinset]
      exact hP
  · intro blade hmem
    obtain ⟨hblade, -⟩ := List.mem_filter.mp (List.mem_toFinset.mp hmem)
    refine (Finset.sortedLT_sort _).pairwise.eq_of_mem_iff (mem_basis.mp hblade).increasing ?_
    intro axis
    rw [Finset.mem_sort, List.mem_toFinset]
  · intro K _
    exact Finset.sort_toFinset K _

theorem length_basis (metric : Metric) (grade : Nat) :
    (metric.basis grade).length = metric.size.choose grade := by
  unfold basis pseudoscalar
  rw [Subsets.length_choose, List.length_range]

/-- **All grades together have 2ⁿ basis blades.** -/
theorem sum_length_basis (metric : Metric) :
    ((List.range (metric.size + 1)).map fun grade => (metric.basis grade).length).sum
      = 2 ^ metric.size := by
  have h := Subsets.length_powerset metric.pseudoscalar
  unfold Subsets.powerset pseudoscalar at h
  rw [List.length_flatMap, List.length_range] at h
  exact h

variable {k : Nat} {blade : Blade} (hblade : IsBasisBlade metric.size k blade)
include hblade

/-- **Blades that avoid a given one** are built from the other axes. -/
theorem countP_disjoint :
    (metric.basis grade).countP (fun other => Disjoint blade.toFinset other.toFinset)
      = (metric.size - k).choose grade := by
  have hfilter : ((Finset.range metric.size).powersetCard grade).filter
      (fun K => Disjoint blade.toFinset K)
        = (Finset.range metric.size \ blade.toFinset).powersetCard grade := by
    ext K
    rw [Finset.mem_filter, Finset.mem_powersetCard, Finset.mem_powersetCard, Finset.subset_sdiff,
      disjoint_comm, and_right_comm]
  rw [countP_basis metric grade (fun K => Disjoint blade.toFinset K), hfilter, Finset.card_powersetCard,
    Finset.card_sdiff_of_subset hblade.toFinset_subset, Finset.card_range, hblade.card_toFinset]

/-- **Blades that contain a given one** add some of the other axes to it. -/
theorem countP_subset (hk : k ≤ grade) :
    (metric.basis grade).countP (fun other => blade.toFinset ⊆ other.toFinset)
      = (metric.size - k).choose (grade - k) := by
  have hcard := hblade.card_toFinset
  rw [countP_basis metric grade (fun K => blade.toFinset ⊆ K),
    Finset.card_filter_powersetCard_subset _ _ _ hblade.toFinset_subset (hcard.trans_le hk),
    Finset.card_range, hcard]

end Metric

end GeometricAlgebra
