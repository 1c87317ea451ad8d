/-
  GeometricAlgebra.Proofs.Reordering
  ────────────────────────────────
  **THE LOOPS OF REORDERING COMPUTE THE NORMAL FORM.**

  The first loop draws the axes of the alphabet out of the word, one occurrence
  at a time.  It never looks for inversions, but each draw at position `k` of
  what is left takes exactly `k` inversions away, because the axis drawn is the
  least one left and its first occurrence.  So through the whole loop

      swaps so far  +  inversions of what is left  =  inversions of the word

  and at its end nothing is left but the axes that the alphabet does not have
  (`Metric.Sorts`).  The second loop cuts the sorted axes into runs.  A run holds
  every occurrence of its axis, so its length is the number of occurrences and
  half of it is the number of pairs (`Metric.Contracts`).  Together the final
  count is exact, not only its parity:

      swaps  =  inversions of the word  +  pairs that contract to −1

  Main results:
    * `Metric.reorder_unconsumed`, `Metric.reorder_blade` — what the loops leave
      over, and that they end at the normal form.
    * `Metric.contractRuns_swaps_lt` — the count of swaps fits in 64 bits.
    * `Metric.canonicalize_append` — a part of a word may be replaced by its
      canonical form, at the price of its sign.
    * `Metric.canonicalize_reference` — success, blade, sign and failure of
      `Metric.canonicalize` on every word, over every metric.
-/
import GeometricAlgebra.Metric.Canonical
import GeometricAlgebra.Proofs.Inversions

namespace GeometricAlgebra.Metric

variable {metric : Metric}

/-! ## §1. One draw. -/

namespace Sorting

variable {axis : Axis} {s t : Sorting}

theorem draw?_eq_none_iff : s.draw? axis = none ↔ axis ∉ s.remaining := by
  rw [← List.idxOf?_eq_none_iff]
  unfold draw?
  split <;> simp_all

/-- A draw cuts what is left at the first occurrence of the axis. -/
theorem draw?_eq_some (h : s.draw? axis = some t) :
    ∃ front back, s.remaining = front ++ axis :: back ∧ axis ∉ front
      ∧ t = ⟨front ++ back, s.placed ++ [axis], s.swaps + front.length⟩ := by
  unfold draw? at h
  split at h
  next index hindex =>
    obtain ⟨hlt, hfound, hbefore⟩ := List.idxOf?_eq_some_iff.mp hindex
    have hlength : (s.remaining.take index).length = index := List.length_take_of_le hlt.le
    refine ⟨s.remaining.take index, s.remaining.drop (index + 1), ?_, ?_, ?_⟩
    · rw [← hfound, ← List.drop_eq_getElem_cons hlt, List.take_append_drop]
    · intro hmem
      obtain ⟨j, hj, hget⟩ := List.getElem_of_mem hmem
      rw [List.getElem_take] at hget
      exact hbefore j (hlength ▸ hj) hget
    · rw [hlength, ← List.eraseIdx_eq_take_drop_succ]
      exact (Option.some.inj h).symm
  next => cases h

end Sorting

/-! ## §2. All draws. -/

/-- A word stays in order if what comes behind it belongs there. -/
theorem pairwise_concat {R : Axis → Axis → Prop} {word : Blade} {axis : Axis}
    (hword : word.Pairwise R) (hlast : ∀ i ∈ word, R i axis) : (word ++ [axis]).Pairwise R := by
  refine List.pairwise_append.mpr ⟨hword, List.pairwise_singleton _ _, ?_⟩
  intro i hi j hj
  rw [List.mem_singleton.mp hj]
  exact hlast i hi

/-- What is known of a word on its way into order: the axes below `high` may have
been moved, and the axes below `low` all have been. -/
structure Sorts (word : Blade) (low high : Axis) (s : Sorting) : Prop where
  ordered : s.placed.Pairwise (· ≤ ·)
  placed_lt : ∀ i ∈ s.placed, i < high
  le_remaining : ∀ i ∈ s.remaining, low ≤ i
  perm : (s.placed ++ s.remaining).Perm word
  sublist : s.remaining.Sublist word
  swaps_add : s.swaps + inversions s.remaining = inversions word

namespace Sorts

variable {word : Blade} {n : Axis} {s t : Sorting}

theorem start (word : Blade) : Sorts word 0 0 ⟨word, [], 0⟩ where
  ordered := List.Pairwise.nil
  placed_lt _ hi := absurd hi List.not_mem_nil
  le_remaining _ _ := Nat.zero_le _
  perm := List.Perm.refl word
  sublist := List.Sublist.refl word
  swaps_add := Nat.zero_add _

/-- **A draw preserves what is known**: it pays for the inversions it takes away. -/
theorem draw (h : Sorts word n (n + 1) s) (hdraw : s.draw? n = some t) :
    Sorts word n (n + 1) t := by
  obtain ⟨front, back, hremaining, hfirst, rfl⟩ := Sorting.draw?_eq_some hdraw
  obtain ⟨hordered, hlt, hge, hperm, hsublist, hswaps⟩ := h
  rw [hremaining] at hge hperm hsublist hswaps
  have hback : ∀ j ∈ back, n ≤ j := fun j hj => hge j (by simp [hj])
  have hfront : ∀ j ∈ front, n < j := by
    intro j hj
    refine lt_of_le_of_ne (hge j (by simp [hj])) ?_
    rintro rfl
    exact hfirst hj
  constructor
  case ordered => exact pairwise_concat hordered fun i hi => Nat.le_of_lt_succ (hlt i hi)
  case placed_lt =>
    intro i hi
    rcases List.mem_append.mp hi with hi | hi
    · exact hlt i hi
    · rw [List.mem_singleton.mp hi]
      exact Nat.lt_succ_self n
  case le_remaining =>
    intro i hi
    rcases List.mem_append.mp hi with hi | hi
    · exact (hfront i hi).le
    · exact hback i hi
  case perm =>
    refine List.Perm.trans ?_ hperm
    rw [List.append_assoc, List.singleton_append]
    exact List.Perm.append_left _ List.perm_middle.symm
  case sublist => exact ((List.sublist_cons_self n back).append_left front).trans hsublist
  case swaps_add =>
    rw [inversions_append_cons hfront hback] at hswaps
    show s.swaps + front.length + inversions (front ++ back) = inversions word
    omega

/-- Once all its occurrences are drawn, an axis is not left. -/
theorem drawAll (h : Sorts word n n s) : Sorts word (n + 1) (n + 1) (s.drawAll n) := by
  have hdrawn : Sorts word n (n + 1) (s.drawAll n) :=
    Loop.run_induction (fun _ _ => draw) _
      { h with placed_lt := fun i hi => (h.placed_lt i hi).trans (Nat.lt_succ_self n) }
  have hend : (s.drawAll n).draw? n = none := by
    refine Loop.step_run (fun s => s.remaining.length) ?_ le_rfl
    intro u v huv
    obtain ⟨front, back, hremaining, -, rfl⟩ := Sorting.draw?_eq_some huv
    simp [hremaining]
  refine { hdrawn with le_remaining := fun i hi => ?_ }
  refine Nat.succ_le_of_lt (lt_of_le_of_ne (hdrawn.le_remaining i hi) ?_)
  rintro rfl
  exact Sorting.draw?_eq_none_iff.mp hend hi

end Sorts

theorem sorts_foldl (word : Blade) (n : Nat) :
    Sorts word n n ((List.range n).foldl (fun s axis => s.drawAll axis) ⟨word, [], 0⟩) := by
  induction n with
  | zero => exact Sorts.start word
  | succ n ih =>
    rw [List.range_succ, List.foldl_append]
    exact ih.drawAll

/-- **The first loop sorts, and counts inversions.** -/
theorem sorts_sort (metric : Metric) (word : Blade) :
    Sorts word metric.size metric.size (metric.sort word) := sorts_foldl word metric.size

/-- **What is left over is what the alphabet does not have**, in order. -/
theorem sort_remaining (metric : Metric) (word : Blade) :
    (metric.sort word).remaining = word.filter (metric.size ≤ ·) := by
  have h := metric.sorts_sort word
  have hkept : (metric.sort word).remaining.filter (metric.size ≤ ·)
      = (metric.sort word).remaining := by
    rw [List.filter_eq_self]
    simpa using h.le_remaining
  have hgone : (metric.sort word).placed.filter (metric.size ≤ ·) = [] := by
    rw [List.filter_eq_nil_iff]
    simpa using h.placed_lt
  have hlength := (h.perm.filter (metric.size ≤ ·)).length_eq
  rw [List.filter_append, hgone, hkept, List.nil_append] at hlength
  have hsublist := h.sublist.filter (metric.size ≤ ·)
  rw [hkept] at hsublist
  exact hsublist.eq_of_length hlength

/-- A word over the alphabet is placed in full, and every inversion is counted. -/
theorem sort_of_inAlphabet {word : Blade} (hword : metric.InAlphabet word) :
    (metric.sort word).remaining = [] ∧ (metric.sort word).placed.Perm word
      ∧ (metric.sort word).swaps = inversions word := by
  have hnone : (metric.sort word).remaining = [] := by
    rw [sort_remaining, List.filter_eq_nil_iff]
    simpa [InAlphabet] using hword
  obtain ⟨-, -, -, hperm, -, hswaps⟩ := metric.sorts_sort word
  rw [hnone] at hperm hswaps
  exact ⟨hnone, by simpa using hperm, by simpa [inversions] using hswaps⟩

/-! ## §3. One run. -/

section Run

variable {placed : Blade} {s t : Contraction}

theorem contractRun?_eq_none_iff :
    metric.contractRun? placed s = none ↔ placed.length ≤ s.start := by
  rw [← List.getElem?_eq_none_iff]
  unfold contractRun?
  split <;> simp_all

/-- A run is cut off where another axis starts. -/
theorem contractRun?_eq_some (h : metric.contractRun? placed s = some t) :
    ∃ axis run rest, placed.drop s.start = List.replicate run axis ++ rest ∧ 0 < run
      ∧ rest.head? ≠ some axis ∧ t = {
        start := s.start + run
        canonical := if run % 2 = 1 then s.canonical ++ [axis] else s.canonical
        swaps := if metric.square axis = .negative then s.swaps + run / 2 else s.swaps } := by
  unfold contractRun? at h
  split at h
  next axis haxis =>
    have hpending : placed.drop s.start = axis :: placed.drop (s.start + 1) := by
      obtain ⟨hlt, rfl⟩ := List.getElem?_eq_some_iff.mp haxis
      exact List.drop_eq_getElem_cons hlt
    have hrun : (placed.drop s.start).takeWhile (· == axis)
        = List.replicate ((placed.drop s.start).takeWhile (· == axis)).length axis := by
      refine List.eq_replicate_iff.mpr ⟨rfl, fun i hi => ?_⟩
      simpa using List.all_eq_true.mp List.all_takeWhile i hi
    refine ⟨axis, ((placed.drop s.start).takeWhile (· == axis)).length,
      (placed.drop s.start).dropWhile (· == axis), ?_, ?_, ?_, ?_⟩
    · rw [← hrun, List.takeWhile_append_dropWhile]
    · simp [hpending]
    · intro hhead
      have hstop := List.head?_dropWhile_not (· == axis) (placed.drop s.start)
      simp [hhead] at hstop
    · have hsquare : (metric.square axis).isNegative = true ↔ metric.square axis = .negative := by
        cases metric.square axis <;> simp [Sign.isNegative]
      simp only [hsquare] at h
      exact (Option.some.inj h).symm
  next => cases h

/-- After a run of a word in order, all axes are greater. -/
theorem lt_of_run {axis : Axis} {run : Nat} {rest : Blade} (hrun : 0 < run)
    (hsorted : (List.replicate run axis ++ rest).Pairwise (· ≤ ·))
    (hstop : rest.head? ≠ some axis) : ∀ i ∈ rest, axis < i := by
  obtain ⟨-, hrest, hle⟩ := List.pairwise_append.mp hsorted
  have haxis : axis ∈ List.replicate run axis := List.mem_replicate.mpr ⟨hrun.ne', rfl⟩
  cases rest with
  | nil => simp
  | cons first rest =>
    have hfirst : axis < first := by
      refine lt_of_le_of_ne (hle axis haxis first List.mem_cons_self) ?_
      rintro rfl
      exact hstop rfl
    intro i hi
    rcases List.mem_cons.mp hi with rfl | hi
    · exact hfirst
    · exact hfirst.trans_le (List.rel_of_pairwise_cons hrest hi)

/-- What a run leaves: its axis if the run is odd. -/
theorem mem_contracted_iff {axis i : Axis} {run : Nat} {canonical : Blade} :
    i ∈ (if run % 2 = 1 then canonical ++ [axis] else canonical)
      ↔ i ∈ canonical ∨ i = axis ∧ Odd run := by
  rw [Nat.odd_iff]
  split
  next hodd => simp [hodd]
  next heven => simp [heven]

/-- A run of a new axis has half as many pairs as it is long. -/
theorem negativePairs_append_replicate {axis : Axis} {word : Blade} (hnew : axis ∉ word)
    (run : Nat) : metric.negativePairs (word ++ List.replicate run axis)
      = metric.negativePairs word + if metric.square axis = .negative then run / 2 else 0 := by
  have hterm : ∀ i, (word ++ List.replicate run axis).count i / 2
      = word.count i / 2 + if axis = i then run / 2 else 0 := by
    intro i
    rw [List.count_append, List.count_replicate]
    by_cases hi : axis = i
    · subst hi
      simp [List.count_eq_zero.mpr hnew]
    · simp [hi]
  simp only [negativePairs, hterm, Finset.sum_add_distrib, Finset.sum_ite_eq]
  by_cases hsquare : metric.square axis = .negative
  · simp [hsquare, lt_size_of_negative hsquare]
  · simp [hsquare]

theorem negativePairs_perm {u v : Blade} (h : u.Perm v) :
    metric.negativePairs u = metric.negativePairs v := by
  simp only [negativePairs, h.count_eq]

end Run

/-! ## §4. All runs. -/

/-- What is known of a word in order whose runs up to a position are contracted:
no axis has occurrences on both sides of the position. -/
structure Contracts (metric : Metric) (placed : Blade) (swaps : Nat) (s : Contraction) : Prop where
  apart : ∀ i ∈ placed.take s.start, ∀ j ∈ placed.drop s.start, i < j
  increasing : s.canonical.Pairwise (· < ·)
  mem_iff : ∀ i, i ∈ s.canonical ↔ Odd ((placed.take s.start).count i)
  swaps_eq : s.swaps = swaps + metric.negativePairs (placed.take s.start)

namespace Contracts

variable {placed : Blade} {swaps : Nat} {s t : Contraction}

theorem start (metric : Metric) (placed : Blade) (swaps : Nat) :
    metric.Contracts placed swaps ⟨0, [], swaps⟩ where
  apart _ hi := absurd hi List.not_mem_nil
  increasing := List.Pairwise.nil
  mem_iff _ := by simp
  swaps_eq := by simp [negativePairs]

/-- **A run preserves what is known**: it holds every occurrence of its axis. -/
theorem contractRun (hsorted : placed.Pairwise (· ≤ ·)) (h : metric.Contracts placed swaps s)
    (hstep : metric.contractRun? placed s = some t) : metric.Contracts placed swaps t := by
  obtain ⟨axis, run, rest, hpending, hrun, hstop, rfl⟩ := contractRun?_eq_some hstep
  obtain ⟨hapart, hincreasing, hmem, hswaps⟩ := h
  have hdone : placed.take (s.start + run) = placed.take s.start ++ List.replicate run axis := by
    rw [List.take_add, hpending, List.take_left' List.length_replicate]
  have hrest : placed.drop (s.start + run) = rest := by
    rw [← List.drop_drop, hpending, List.drop_left' List.length_replicate]
  have hlt : ∀ i ∈ placed.take s.start, i < axis :=
    fun i hi => hapart i hi axis (by simp [hpending, hrun.ne'])
  have hnew : axis ∉ placed.take s.start := fun hi => (hlt axis hi).false
  have hcanonical : ∀ i ∈ s.canonical, i < axis :=
    fun i hi => hlt i (List.count_pos_iff.mp ((hmem i).mp hi).pos)
  constructor
  case apart =>
    show ∀ i ∈ placed.take (s.start + run), ∀ j ∈ placed.drop (s.start + run), i < j
    rw [hdone, hrest]
    intro i hi j hj
    rcases List.mem_append.mp hi with hi | hi
    · exact hapart i hi j (by simp [hpending, hj])
    · have hpart : (placed.drop s.start).Pairwise (· ≤ ·) := hsorted.drop
      rw [hpending] at hpart
      rw [List.eq_of_mem_replicate hi]
      exact lt_of_run hrun hpart hstop j hj
  case increasing =>
    show (if run % 2 = 1 then s.canonical ++ [axis] else s.canonical).Pairwise (· < ·)
    split
    · exact pairwise_concat hincreasing hcanonical
    · exact hincreasing
  case mem_iff =>
    intro i
    show i ∈ (if run % 2 = 1 then s.canonical ++ [axis] else s.canonical)
      ↔ Odd ((placed.take (s.start + run)).count i)
    rw [mem_contracted_iff, hdone, List.count_append, List.count_replicate]
    by_cases hi : i = axis
    · -- all occurrences of the axis are in the run
      subst hi
      have hout : i ∉ s.canonical := fun hi => (hcanonical i hi).false
      simp [hout, List.count_eq_zero.mpr hnew]
    · simp [hmem i, hi, Ne.symm hi]
  case swaps_eq =>
    show (if metric.square axis = .negative then s.swaps + run / 2 else s.swaps)
      = swaps + metric.negativePairs (placed.take (s.start + run))
    rw [hdone, negativePairs_append_replicate hnew, hswaps]
    split <;> omega

end Contracts

/-- **The second loop contracts runs, and counts pairs.** -/
theorem contracts_contractRuns (metric : Metric) {placed : Blade}
    (hsorted : placed.Pairwise (· ≤ ·)) (swaps : Nat) :
    metric.Contracts placed swaps (metric.contractRuns placed swaps) :=
  Loop.run_induction (fun _ _ h => h.contractRun hsorted) _ (Contracts.start metric placed swaps)

/-- The second loop goes through the whole word. -/
theorem take_contractRuns (metric : Metric) (placed : Blade) (swaps : Nat) :
    placed.take (metric.contractRuns placed swaps).start = placed := by
  have hend : metric.contractRun? placed (metric.contractRuns placed swaps) = none := by
    refine Loop.step_run (fun s => placed.length - s.start) ?_ (Nat.sub_le _ _)
    intro u v huv
    obtain ⟨axis, run, rest, hpending, hrun, -, rfl⟩ := contractRun?_eq_some huv
    have hlength := congrArg List.length hpending
    rw [List.length_drop, List.length_append, List.length_replicate] at hlength
    show placed.length - (u.start + run) < placed.length - u.start
    omega
  exact List.take_of_length_le (contractRun?_eq_none_iff.mp hend)

/-! ## §5. Both loops. -/

/-- The count of swaps at the end of both loops. -/
theorem contractRuns_swaps (metric : Metric) (word : Blade) :
    (metric.contractRuns (metric.sort word).placed (metric.sort word).swaps).swaps
      = (metric.sort word).swaps + metric.negativePairs (metric.sort word).placed := by
  have h := metric.contracts_contractRuns (metric.sorts_sort word).ordered (metric.sort word).swaps
  rw [h.swaps_eq, take_contractRuns]

/-- **The count of swaps fits in 64 bits** for words with fewer than 2³² axes: no
step lowers it, and it ends below 2⁶⁴. -/
theorem contractRuns_swaps_lt {word : Blade} (h : word.length < 4294967296) :
    (metric.contractRuns (metric.sort word).placed (metric.sort word).swaps).swaps
      < Word.bound := by
  have hsorts := metric.sorts_sort word
  have hswaps := hsorts.swaps_add
  have hinversions := two_mul_inversions_add_length_le word
  have hpairs := metric.negativePairs_le (metric.sort word).placed
  have hlength := hsorts.perm.length_eq
  rw [List.length_append] at hlength
  have hsquare : word.length * word.length ≤ 4294967295 * 4294967295 :=
    Nat.mul_le_mul (by omega) (by omega)
  rw [contractRuns_swaps]
  unfold Word.bound
  omega

/-- The two loops meet the description of the canonical form. -/
theorem reorder_isCanonicalForm {word : Blade} (hword : metric.InAlphabet word) :
    metric.IsCanonicalForm word (metric.reorder word).blade := by
  obtain ⟨-, hperm, hswaps⟩ := sort_of_inAlphabet hword
  have h := metric.contracts_contractRuns (metric.sorts_sort word).ordered (metric.sort word).swaps
  refine ⟨h.increasing, fun i => ?_, ?_⟩
  · have hmem := h.mem_iff i
    rw [take_contractRuns, hperm.count_eq i] at hmem
    exact hmem
  · show Sign.ofParity _ = .negative ↔ _
    rw [contractRuns_swaps, hswaps, negativePairs_perm hperm, Sign.ofParity_eq_negative_iff]

/-- **The two loops compute the normal form.** -/
theorem reorder_blade {word : Blade} (hword : metric.InAlphabet word) :
    (metric.reorder word).blade = metric.normalForm word :=
  (reorder_isCanonicalForm hword).unique (metric.normalForm_isCanonicalForm word)

/-- **The two loops leave over what the alphabet does not have.** -/
theorem reorder_unconsumed (metric : Metric) (word : Blade) :
    (metric.reorder word).unconsumed = word.filter (metric.size ≤ ·) := metric.sort_remaining word

/-- The word `z − x −` with a foreign axis in it: six swaps and one pair. -/
example : conformalSpace.reorder [4, 0, 7, 2, 0] = ⟨⟨[2, 4], .negative⟩, [7]⟩ := by decide

theorem reorder_unconsumed_eq_nil_iff {word : Blade} :
    (metric.reorder word).unconsumed = [] ↔ metric.InAlphabet word := by
  rw [reorder_unconsumed, List.filter_eq_nil_iff]
  simp [InAlphabet]

/-! ## §6. Canonical forms. -/

/-- The canonical form that is taken without a check. -/
theorem canonicalizeKnown_of_inAlphabet {word : Blade} (hword : metric.InAlphabet word) :
    metric.canonicalizeKnown word = metric.normalForm word := reorder_blade hword

/-- A word over the alphabet always has a canonical form. -/
theorem canonicalize_of_lt {word : Blade} (hword : ∀ axis ∈ word, axis < metric.size) :
    metric.canonicalize word = .ok (metric.normalForm word) := by
  have hnone : (metric.reorder word).unconsumed = [] := reorder_unconsumed_eq_nil_iff.mpr hword
  unfold canonicalize
  rw [if_pos hnone, reorder_blade hword]

/-- Every other word is refused with the axes that are left over. -/
theorem canonicalize_of_not_inAlphabet {word : Blade} (hword : ¬ metric.InAlphabet word) :
    metric.canonicalize word = .error (.malformedBlade
      (.foreignAxes (word.filter (metric.size ≤ ·)) metric.size)) := by
  have hsome : (metric.reorder word).unconsumed ≠ [] := mt reorder_unconsumed_eq_nil_iff.mp hword
  unfold canonicalize
  rw [if_neg hsome, reorder_unconsumed]

/-- Canonical forms exist for the words over the alphabet, and only for these. -/
theorem canonicalize_eq_ok_iff {word : Blade} {blade : SignedBlade} :
    metric.canonicalize word = .ok blade
      ↔ metric.InAlphabet word ∧ metric.normalForm word = blade := by
  by_cases hword : metric.InAlphabet word
  · rw [canonicalize_of_lt hword, Except.ok.injEq]
    exact (and_iff_right hword).symm
  · rw [canonicalize_of_not_inAlphabet hword]
    simp [hword]

/-- **CANONICAL FORMS ARE COMPATIBLE WITH CONCATENATION**: in any context, a
part of a word over the alphabet may be replaced by its canonical form, and the
sign of the part multiplies the sign of the whole. -/
theorem canonicalize_append {a b c : Blade} (hword : metric.InAlphabet (a ++ b ++ c)) :
    ∃ part whole : SignedBlade,
      metric.canonicalize b = .ok part
        ∧ metric.canonicalize (a ++ part.axes ++ c) = .ok whole
        ∧ metric.canonicalize (a ++ b ++ c) = .ok ⟨whole.axes, part.sign * whole.sign⟩ := by
  have hmem : ∀ i, i ∈ a ∨ i ∈ b ∨ i ∈ c → i < metric.size := by
    intro i hi
    apply hword
    simp only [List.append_assoc, List.mem_append]
    exact hi
  have hpart : metric.InAlphabet (a ++ (metric.normalForm b).axes ++ c) := by
    intro i hi
    simp only [List.append_assoc, List.mem_append] at hi
    exact hmem i (hi.imp_right (Or.imp_left mem_normalForm))
  refine ⟨metric.normalForm b, metric.normalForm (a ++ (metric.normalForm b).axes ++ c), ?_, ?_, ?_⟩
  · exact canonicalize_of_lt fun i hi => hmem i (Or.inr (Or.inl hi))
  · exact canonicalize_of_lt hpart
  · rw [canonicalize_of_lt hword, normalForm_append]

/-- Over conformal space, the part `− x −` of `z − x − y −` contracts to `x`, and
`z x y −` is `− − x y z`: a negative blade. -/
theorem canonicalize_append_contraction :
    Metric.conformalSpace.InAlphabet ([4] ++ [0, 2, 0] ++ [3, 0])
      ∧ Metric.conformalSpace.canonicalize [0, 2, 0] = .ok ⟨[2], .positive⟩
      ∧ Metric.conformalSpace.canonicalize ([4] ++ [2] ++ [3, 0]) = .ok ⟨[0, 2, 3, 4], .negative⟩
      ∧ Metric.conformalSpace.canonicalize ([4] ++ [0, 2, 0] ++ [3, 0])
          = .ok ⟨[0, 2, 3, 4], .negative⟩ := by
  have hword : Metric.conformalSpace.InAlphabet ([4] ++ [0, 2, 0] ++ [3, 0]) := by
    unfold InAlphabet
    decide
  have hb : Metric.conformalSpace.canonicalize [0, 2, 0] = .ok ⟨[2], .positive⟩ := by decide
  have hc : Metric.conformalSpace.canonicalize ([4] ++ [2] ++ [3, 0])
      = .ok ⟨[0, 2, 3, 4], .negative⟩ := by decide
  obtain ⟨part, whole, hpart, hwhole, hall⟩ := canonicalize_append hword
  cases hb.symm.trans hpart
  cases hc.symm.trans hwhole
  exact ⟨hword, hb, hc, hall⟩

/-- **CANONICAL FORMS HAVE A REFERENCE**: a word has a canonical form iff it
keeps to the alphabet, and it is the only signed blade with the odd axes in
order and with the parity of the inversions and of the pairs that contract to −1.
Every other word is refused with the axes that the alphabet does not have, in
their order and as often as they occur. -/
theorem canonicalize_reference (metric : Metric) (word : Blade) :
    (∀ blade, metric.canonicalize word = .ok blade
        ↔ (∀ i ∈ word, i < metric.size) ∧ metric.IsCanonicalForm word blade)
      ∧ (∀ failure, metric.canonicalize word = .error failure
        ↔ (∃ i ∈ word, metric.size ≤ i) ∧ failure = .malformedBlade
          (.foreignAxes (word.filter fun i => metric.size ≤ i) metric.size)) := by
  by_cases hword : metric.InAlphabet word
  · have hform := reorder_isCanonicalForm hword
    rw [canonicalize_of_lt hword, ← reorder_blade hword]
    constructor
    · intro blade
      rw [Except.ok.injEq]
      exact ⟨fun h => h ▸ ⟨hword, hform⟩, fun h => hform.unique h.2⟩
    · intro failure
      constructor
      · intro h
        cases h
      · intro h
        obtain ⟨⟨i, hi, hge⟩, -⟩ := h
        exact absurd (hword i hi) (Nat.not_lt_of_ge hge)
  · have hsome : ∃ i ∈ word, metric.size ≤ i := by simpa [InAlphabet] using hword
    rw [canonicalize_of_not_inAlphabet hword]
    constructor
    · intro blade
      constructor
      · intro h
        cases h
      · intro h
        exact absurd h.1 hword
    · intro failure
      rw [Except.error.injEq]
      exact ⟨fun h => ⟨hsome, h.symm⟩, fun h => h.2.symm⟩

end GeometricAlgebra.Metric
