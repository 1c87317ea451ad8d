/-
  GeometricAlgebra.Proofs.IndexTuples
  ────────────────────────────────
  **A SUBSET IS A TUPLE OF POSITIONS.**

  Items may repeat, so the subsets of a list are told apart by the positions of
  their items only.  A subset of size `k` is given by an increasing tuple of `k`
  positions

      i₁ < i₂ < … < i_k        and is     items[i₁], items[i₂], …, items[i_k] .

  `choose` does not look at the items it keeps (`choose_map`), so it enumerates
  the tuples first and reads them afterwards (`choose_eq_map_tuples`).

  The same list is found by a search that keeps a single subset and goes back and
  forth: it adds an item, searches on behind it, and takes the item away again
  (`Search.extend`).  The invariant is that the search leaves what it keeps as it
  was, and has recorded every way to fill it up (`Search.extend_eq`).

  Main result:
    * `choose_lists_tuples` — the subsets of one size are the tuples of positions in
      lexicographic order, and the power set goes through the sizes.
-/
import GeometricAlgebra.Proofs.BasisBlades

namespace GeometricAlgebra.Subsets

variable {α β : Type}

/-! ## §1. Tuples of positions. -/

/-- An increasing tuple of `k` positions in a list of `n` items. -/
structure IsTuple (k : Nat) {n : Nat} (tuple : List (Fin n)) : Prop where
  increasing : tuple.Pairwise (· < ·)
  length_eq : tuple.length = k

/-- The tuples of `k` positions, those with the least positions first. -/
def tuples (k n : Nat) : List (List (Fin n)) := choose k (List.finRange n)

/-- The items at a tuple of positions. -/
def itemsAt (items : List α) (tuple : List (Fin items.length)) : List α := tuple.map items.get

theorem mem_tuples {k n : Nat} {tuple : List (Fin n)} : tuple ∈ tuples k n ↔ IsTuple k tuple := by
  unfold tuples
  rw [mem_choose]
  constructor
  · intro h
    obtain ⟨hsub, hlength⟩ := h
    exact ⟨(List.pairwise_lt_finRange n).sublist hsub, hlength⟩
  · intro h
    -- an increasing list of positions is in the order of all positions
    have hsubset : tuple ⊆ List.finRange n := fun i _ => List.mem_finRange i
    have hsubperm := List.subperm_of_subset (h.increasing.imp ne_of_lt) hsubset
    exact ⟨List.sublist_of_subperm_of_pairwise hsubperm h.increasing (List.pairwise_lt_finRange n),
      h.length_eq⟩

theorem tuples_ordered (k n : Nat) : (tuples k n).Pairwise (· < ·) :=
  choose_ordered (List.pairwise_lt_finRange n)

/-- **The items do not matter to the choice.** -/
theorem choose_map (f : α → β) (k : Nat) (items : List α) :
    choose k (items.map f) = (choose k items).map (List.map f) := by
  induction items generalizing k with
  | nil => cases k <;> rfl
  | cons item rest ih =>
    cases k with
    | zero => rfl
    | succ k =>
      rw [List.map_cons, choose_succ_cons, choose_succ_cons, ih, ih, List.map_append, List.map_map,
        List.map_map]
      rfl

/-- **Subsets are the items at the tuples of positions**, in the same order. -/
theorem choose_eq_map_tuples (k : Nat) (items : List α) :
    choose k items = (tuples k items.length).map (itemsAt items) := by
  have h := choose_map items.get k (List.finRange items.length)
  rw [List.map_get_finRange] at h
  exact h

/-! ## §2. The search with one subset. -/

/-- The state of a search: the subset in the making, and those found so far. -/
structure Search (α : Type) where
  /-- The items that are kept. -/
  kept : List α
  /-- The subsets that were completed, in order. -/
  found : List (List α)

namespace Search

/-- Keep one more item. -/
def push (s : Search α) (item : α) : Search α := { s with kept := s.kept ++ [item] }

/-- Give up the last item. -/
def pop (s : Search α) : Search α := { s with kept := s.kept.dropLast }

/-- Record the subset in the making. -/
def record (s : Search α) : Search α := { s with found := s.found ++ [s.kept] }

/-- Try the items of a list as the next one to keep, one after the other.  Behind
each of them the search goes on with the items further right. -/
def extend (k : Nat) : List α → Search α → Search α
  | [], s => s
  | item :: rest, s =>
      let inner := s.push item
      let inner := if inner.kept.length = k then inner.record else extend k rest inner
      extend k rest inner.pop

/-- Complete the subset in the making in every way with items of a list. -/
def complete (k : Nat) (items : List α) (s : Search α) : Search α :=
  if s.kept.length = k then s.record else s.extend k items

/-- The state behind a search that has found these ways to go on. -/
def recordAll (s : Search α) (endings : List (List α)) : Search α :=
  { s with found := s.found ++ endings.map (s.kept ++ ·) }

theorem pop_recordAll (s : Search α) (item : α) (endings : List (List α)) :
    ((s.push item).recordAll endings).pop = s.recordAll (endings.map (item :: ·)) := by
  simp [push, pop, recordAll]

theorem recordAll_recordAll (s : Search α) (endings more : List (List α)) :
    (s.recordAll endings).recordAll more = s.recordAll (endings ++ more) := by
  simp [recordAll]

/-- Each item of the list is kept once and then passed over. -/
theorem extend_cons (k : Nat) (item : α) (rest : List α) (s : Search α) :
    s.extend k (item :: rest) = ((s.push item).complete k rest).pop.extend k rest := rfl

/-- A subset that is complete is recorded as it is; any other one is extended. -/
theorem complete_eq_of_extend {k missing : Nat} {items : List α} {s : Search α}
    (hextend : ∀ m, s.kept.length + (m + 1) = k →
      s.extend k items = s.recordAll (choose (m + 1) items))
    (h : s.kept.length + missing = k) : s.complete k items = s.recordAll (choose missing items) := by
  unfold complete
  cases missing with
  | zero =>
    rw [if_pos (by omega)]
    simp [record, recordAll, choose]
  | succ m =>
    rw [if_neg (by omega)]
    exact hextend m h

/-- **What the search keeps is left as it was, and every way to complete it has been
recorded**, in the order of the positions. -/
theorem extend_eq {k missing : Nat} {items : List α} {s : Search α}
    (h : s.kept.length + (missing + 1) = k) :
    s.extend k items = s.recordAll (choose (missing + 1) items) := by
  -- on the items that are left, for all subsets in the making
  induction items generalizing s missing with
  | nil =>
    show s = s.recordAll []
    simp [recordAll]
  | cons item rest ih =>
    have hpush : (s.push item).kept.length + missing = k := by
      show (s.kept ++ [item]).length + missing = k
      rw [List.length_append, List.length_singleton]
      omega
    have hinner := complete_eq_of_extend (fun m hm => ih hm) hpush
    have hrest : (s.recordAll ((choose missing rest).map (item :: ·))).extend k rest = _ := ih h
    rw [extend_cons, hinner, pop_recordAll, hrest, recordAll_recordAll, choose_succ_cons]

theorem complete_eq {k missing : Nat} {items : List α} {s : Search α}
    (h : s.kept.length + missing = k) : s.complete k items = s.recordAll (choose missing items) :=
  complete_eq_of_extend (fun _ => extend_eq) h

end Search

/-- All subsets of one size, found by a search that starts with nothing.  It is not
started if the list is too short. -/
def search (k : Nat) (items : List α) : List (List α) :=
  if k ≤ items.length then (Search.complete k items ⟨[], []⟩).found else []

/-- **The search finds the subsets in their order.** -/
theorem search_eq_choose (k : Nat) (items : List α) : search k items = choose k items := by
  unfold search
  split
  next =>
    rw [Search.complete_eq (Nat.zero_add k)]
    simp [Search.recordAll]
  next hlong => exact (choose_eq_nil_of_lt (Nat.lt_of_not_le hlong)).symm

/-! ## §3. The enumeration. -/

/-- **SUBSETS ARE ENUMERATED BY POSITION.**  The subsets of one size are the items at
all increasing tuples of positions, each tuple once and in lexicographic order, and a
search that goes back and forth finds the same list.  There are as many as the
binomial coefficient: one of size zero and none of more than all items.  The power set
goes through the sizes. -/
theorem choose_lists_tuples (items : List α) :
    (∀ k, (∃ positions : List (List (Fin items.length)),
            positions.Pairwise (· < ·) ∧ positions.Nodup
              ∧ (∀ tuple, tuple ∈ positions ↔ IsTuple k tuple)
              ∧ choose k items = positions.map (itemsAt items))
        ∧ choose k items = search k items
        ∧ (choose k items).length = items.length.choose k
        ∧ (items.length < k → choose k items = []))
      ∧ choose 0 items = [[]]
      ∧ powerset items = (List.range (items.length + 1)).flatMap (fun k => choose k items)
      ∧ (powerset items).length = 2 ^ items.length := by
  refine ⟨fun k => ⟨?_, ?_, ?_, ?_⟩, by rw [choose], rfl, length_powerset items⟩
  · have hordered := tuples_ordered k items.length
    exact ⟨tuples k items.length, hordered, hordered.nodup, fun tuple => mem_tuples,
      choose_eq_map_tuples k items⟩
  · exact (search_eq_choose k items).symm
  · exact length_choose k items
  · exact choose_eq_nil_of_lt

/-- Equal items at different positions are different items. -/
example : choose 2 ['a', 'b', 'a'] = [['a', 'b'], ['a', 'a'], ['b', 'a']] := by decide

end GeometricAlgebra.Subsets
