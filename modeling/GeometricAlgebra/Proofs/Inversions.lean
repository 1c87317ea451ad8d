/-
  GeometricAlgebra.Proofs.Inversions
  ────────────────────────────────
  **NORMAL FORMS, WITHOUT AN ALGORITHM.**

  What the normal form of a word is can be read off the word: an axis stays
  iff it occurs an odd number of times, and the sign is the parity of a count.
  Two things are counted: the pairs of positions in the wrong order
  (`inversions`), and the pairs of equal axes that square to −1
  (`Metric.negativePairs`).

  The word grows from the right, as `Metric.normalForm` reads it.  One more
  axis `i` in front of `w`

      inversions   gains   the axes of `w` below `i`
      the sign     gains   the axes of the NORMAL FORM of `w` below `i`

  and these two agree modulo 2, because contracting a pair of equal axes takes
  away two of them or none (`Metric.countP_normalForm`).

  Main result:
    * `Metric.normalForm_isCanonicalForm` — the normal form meets the
      description `Metric.IsCanonicalForm`, which one signed blade at most does.
-/
import GeometricAlgebra.Proofs.BladeProduct

namespace GeometricAlgebra

/-! ## §1. Inversions of a word. -/

/-- The pairs of positions `i < j` that hold their axes in the wrong order. -/
def inversions (word : Blade) : Nat :=
  ((Finset.univ : Finset (Fin word.length × Fin word.length)).filter
    fun p => p.1 < p.2 ∧ word[p.2] < word[p.1]).card

/-- A count over the positions of a word is a count over its axes. -/
theorem sum_positions (P : Axis → Bool) (word : Blade) :
    (∑ j : Fin word.length, if P word[j] then 1 else 0) = word.countP P := by
  induction word with
  | nil => rfl
  | cons i word ih =>
    show (∑ j : Fin (word.length + 1), if P (i :: word)[j] then 1 else 0) = _
    rw [Fin.sum_univ_succ, List.countP_cons]
    simp only [Fin.getElem_fin, Fin.val_zero, Fin.val_succ, List.getElem_cons_zero,
      List.getElem_cons_succ] at ih ⊢
    rw [ih, Nat.add_comm]
    rfl

theorem inversions_eq_sum (word : Blade) : inversions word
    = ∑ i : Fin word.length, ∑ j : Fin word.length, if i < j ∧ word[j] < word[i] then 1 else 0 := by
  rw [inversions, Finset.card_filter, Fintype.sum_prod_type]

/-- An axis in front is in the wrong order with every smaller axis. -/
theorem inversions_cons (i : Axis) (word : Blade) :
    inversions (i :: word) = word.countP (· < i) + inversions word := by
  rw [inversions_eq_sum, inversions_eq_sum, ← sum_positions (· < i)]
  show (∑ k : Fin (word.length + 1), ∑ j : Fin (word.length + 1),
    if k < j ∧ (i :: word)[j] < (i :: word)[k] then 1 else 0) = _
  simp only [Fin.sum_univ_succ, Fin.getElem_fin, Fin.val_zero, Fin.val_succ,
    List.getElem_cons_zero, List.getElem_cons_succ, Fin.succ_lt_succ_iff, Fin.succ_pos,
    Fin.not_lt_zero, true_and, false_and, if_false, decide_eq_true_eq, Nat.zero_add]

/-- Without the first of its least axes, a word has one inversion less for each
axis before it. -/
theorem inversions_append_cons {i : Axis} {front back : Blade} (hfront : ∀ j ∈ front, i < j)
    (hback : ∀ j ∈ back, i ≤ j) :
    inversions (front ++ i :: back) = front.length + inversions (front ++ back) := by
  induction front with
  | nil =>
    have hnone : back.countP (· < i) = 0 := by simpa [List.countP_eq_zero] using hback
    rw [List.nil_append, inversions_cons, hnone]
    rfl
  | cons first front ih =>
    obtain ⟨hlt, hrest⟩ := List.forall_mem_cons.mp hfront
    have hpassed : (i :: back).countP (· < first) = back.countP (· < first) + 1 :=
      List.countP_cons_of_pos (by simpa using hlt)
    simp only [List.cons_append, inversions_cons, List.countP_append, ih hrest, hpassed,
      List.length_cons]
    omega

/-- There are no more inversions than pairs of different positions. -/
theorem two_mul_inversions_add_length_le (word : Blade) :
    2 * inversions word + word.length ≤ word.length * word.length := by
  induction word with
  | nil => simp [inversions]
  | cons i word ih =>
    have hle : word.countP (· < i) ≤ word.length := List.countP_le_length
    rw [inversions_cons, List.length_cons]
    linarith

/-! ## §2. Parities in a normal form. -/

namespace Metric

variable {metric : Metric}

/-- Joining a blade and leaving it change a count by one either way. -/
theorem countP_insertAxis (P : Axis → Bool) (i : Axis) (word : Blade) :
    (metric.insertAxis i word).axes.countP P % 2
      = (word.countP P + if P i then 1 else 0) % 2 := by
  induction word with
  | nil => simp [insertAxis, List.countP_cons]
  | cons first rest ih =>
    unfold insertAxis
    split
    next => rw [List.countP_cons]
    next =>
      split
      next heq =>
        -- the equal axis is lost: one less, where one more is expected
        subst heq
        show rest.countP P % 2 = _
        rw [List.countP_cons]
        split <;> omega
      next =>
        simp only [List.countP_cons]
        omega

/-- **A normal form keeps the parity of every count.** -/
theorem countP_normalForm (P : Axis → Bool) (word : Blade) :
    (metric.normalForm word).axes.countP P % 2 = word.countP P % 2 := by
  induction word with
  | nil => rfl
  | cons i word ih =>
    have hstep := metric.countP_insertAxis P i (metric.normalForm word).axes
    show (metric.insertAxis i (metric.normalForm word).axes).axes.countP P % 2 = _
    rw [List.countP_cons]
    omega

/-- **An axis stays iff it occurs an odd number of times.** -/
theorem mem_normalForm_iff {i : Axis} {word : Blade} :
    i ∈ (metric.normalForm word).axes ↔ Odd (word.count i) := by
  have hparity := metric.countP_normalForm (· == i) word
  have honce :=
    List.nodup_iff_count_le_one.mp ((metric.normalForm_increasing word).imp Nat.ne_of_lt) i
  rw [← List.count_pos_iff, Nat.odd_iff]
  unfold List.count at *
  omega

/-! ## §3. The sign. -/

/-- The pairs of equal axes that contract to −1: half the occurrences of each
axis that squares to −1. -/
def negativePairs (metric : Metric) (word : Blade) : Nat :=
  ∑ i ∈ (Finset.range metric.size).filter (fun i => metric.square i = .negative), word.count i / 2

/-- Outside the alphabet nothing squares to −1. -/
theorem lt_size_of_negative {i : Axis} (h : metric.square i = .negative) : i < metric.size := by
  by_contra hge
  have hnone : metric.axes[i]? = none := List.getElem?_eq_none (Nat.le_of_not_lt hge)
  rw [square, hnone] at h
  cases h

/-- An axis in front completes a pair if the axis is left over so far. -/
theorem negativePairs_cons (i : Axis) (word : Blade) :
    metric.negativePairs (i :: word) = metric.negativePairs word
      + if i ∈ (metric.normalForm word).axes ∧ metric.square i = .negative then 1 else 0 := by
  have hterm : ∀ j, (i :: word).count j / 2
      = word.count j / 2
        + if i = j then (if i ∈ (metric.normalForm word).axes then 1 else 0) else 0 := by
    intro j
    rw [List.count_cons]
    by_cases hij : i = j
    · subst hij
      simp only [beq_self_eq_true, if_true, mem_normalForm_iff, Nat.odd_iff]
      split <;> omega
    · simp [hij]
  simp only [negativePairs, hterm, Finset.sum_add_distrib, Finset.sum_ite_eq]
  by_cases hsquare : metric.square i = .negative
  · simp [hsquare, lt_size_of_negative hsquare]
  · simp [hsquare]

/-- There are no more pairs than axes. -/
theorem negativePairs_le (metric : Metric) (word : Blade) :
    metric.negativePairs word ≤ word.length := by
  induction word with
  | nil => simp [negativePairs]
  | cons i word ih =>
    rw [negativePairs_cons, List.length_cons]
    split <;> omega

/-- One axis in front of a word meets the normal form of the word. -/
theorem sign_normalForm_cons (i : Axis) (word : Blade) : (metric.normalForm (i :: word)).sign
    = (metric.normalForm word).sign * Sign.ofParity ((metric.normalForm word).axes.countP (· < i)
      + if i ∈ (metric.normalForm word).axes ∧ metric.square i = .negative then 1 else 0) := by
  have hparts := metric.normalForm_append [i] word []
  have hpair :=
    metric.sign_pair (List.pairwise_singleton (· < ·) i) (metric.normalForm_increasing word)
  rw [crossings_cons] at hpair
  simp only [List.append_nil, List.singleton_append] at hparts hpair
  rw [hparts, hpair]
  simp [negativeShared, crossings]

/-- **The sign of a normal form counts inversions and contracted pairs.** -/
theorem sign_normalForm (word : Blade) : (metric.normalForm word).sign
    = Sign.ofParity (inversions word + metric.negativePairs word) := by
  induction word with
  | nil => simp [inversions, negativePairs, Sign.ofParity]
  | cons i word ih =>
    have hparity := metric.countP_normalForm (· < i) word
    rw [sign_normalForm_cons, ih, ← Sign.ofParity_add, inversions_cons, negativePairs_cons]
    unfold Sign.ofParity
    congr 2
    omega

/-! ## §4. The reference. -/

/-- What the canonical form of a word has to be. -/
structure IsCanonicalForm (metric : Metric) (word : Blade) (blade : SignedBlade) : Prop where
  increasing : blade.axes.Pairwise (· < ·)
  mem_iff : ∀ i, i ∈ blade.axes ↔ Odd (word.count i)
  negative_iff : blade.sign = .negative ↔ Odd (inversions word + metric.negativePairs word)

theorem normalForm_isCanonicalForm (metric : Metric) (word : Blade) :
    metric.IsCanonicalForm word (metric.normalForm word) where
  increasing := metric.normalForm_increasing word
  mem_iff _ := mem_normalForm_iff
  negative_iff := by rw [sign_normalForm, Sign.ofParity_eq_negative_iff]

theorem IsCanonicalForm.unique {word : Blade} {u v : SignedBlade}
    (hu : metric.IsCanonicalForm word u) (hv : metric.IsCanonicalForm word v) : u = v := by
  have haxes : u.axes = v.axes := hu.increasing.eq_of_mem_iff hv.increasing
    fun i => (hu.mem_iff i).trans (hv.mem_iff i).symm
  have hsign := hu.negative_iff.trans hv.negative_iff.symm
  cases u with | mk axes sign =>
  cases v with | mk axes' sign' =>
  cases haxes
  cases sign <;> cases sign' <;> simp_all

end Metric

end GeometricAlgebra
