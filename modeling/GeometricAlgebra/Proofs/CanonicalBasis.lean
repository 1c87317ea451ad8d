/-
  GeometricAlgebra.Proofs.CanonicalBasis
  ────────────────────────────────
  **THE BASIS IS THE SET OF CANONICAL FORMS.**

  The basis of a metric is made by choosing axes, canonical forms are made by moving
  the axes of a word past each other and contracting pairs, and neither looks at the
  other.  Kernels rely on it that a canonical form has a place in the basis:

      word  ──canonicalize──▶  ± blade  ──indexOf──▶  its place in its grade .

  The two sides meet in the increasing words over the alphabet.  Such a word is its
  own canonical form, every canonical form is one, and the basis lists each of them
  once.  So a blade that is found in the basis is found at its only place
  (`indexOf_eq_some_iff`), and what is not found is no canonical form
  (`indexOf_eq_none_iff`).

  Main result:
    * `Metric.basis_lists_canonical` — the basis by grade, in order and counted; the
      place of every canonical form; and what has no place.
-/
import GeometricAlgebra.Proofs.BasisBlades
import GeometricAlgebra.Proofs.Reordering

namespace GeometricAlgebra

/-- **In a list without repeats an item is found at its only position.** -/
theorem idxOf?_eq_some_iff_of_nodup {α : Type} [BEq α] [LawfulBEq α] {items : List α}
    (h : items.Nodup) {item : α} {i : Nat} : items.idxOf? item = some i ↔ items[i]? = some item := by
  rw [List.idxOf?_eq_some_iff, List.getElem?_eq_some_iff]
  constructor
  · intro hfound
    obtain ⟨hi, hitem, -⟩ := hfound
    exact ⟨hi, hitem⟩
  · intro hfound
    obtain ⟨hi, hitem⟩ := hfound
    refine ⟨hi, hitem, ?_⟩
    -- an earlier position with the same item would be a repeat
    intro j hj hearlier
    have heq : j = i := h.getElem_inj_iff.mp (hearlier.trans hitem.symm)
    omega

namespace Metric

variable {metric : Metric}

/-! ## §1. Canonical forms and basis blades. -/

theorem isBasisBlade_iff {word : Blade} : IsBasisBlade metric.size word.length word
    ↔ word.Pairwise (· < ·) ∧ metric.InAlphabet word :=
  ⟨fun h => ⟨h.increasing, h.bounded⟩, fun h => ⟨h.1, h.2, rfl⟩⟩

/-- **A canonical form is a basis blade**, in the grade of its length. -/
theorem normalForm_mem_basis {word : Blade} (h : metric.InAlphabet word) :
    (metric.normalForm word).axes ∈ metric.basis (metric.normalForm word).axes.length :=
  mem_basis.mpr (isBasisBlade_iff.mpr ⟨metric.normalForm_increasing word, h.normalForm⟩)

/-- **A basis blade is its own canonical form.** -/
theorem canonicalize_of_mem_basis {grade : Nat} {blade : Blade} (h : blade ∈ metric.basis grade) :
    metric.canonicalize blade = .ok ⟨blade, .positive⟩ := by
  have hblade := mem_basis.mp h
  exact canonicalize_eq_ok_iff.mpr ⟨hblade.bounded, normalForm_of_increasing hblade.increasing⟩

/-- The basis blades are the blades that words have as canonical forms. -/
theorem mem_basis_iff_canonical {blade : Blade} : blade ∈ metric.basis blade.length
    ↔ ∃ word sign, metric.canonicalize word = .ok ⟨blade, sign⟩ := by
  constructor
  · intro h
    exact ⟨blade, .positive, canonicalize_of_mem_basis h⟩
  · intro h
    obtain ⟨word, sign, hword⟩ := h
    obtain ⟨halphabet, hform⟩ := canonicalize_eq_ok_iff.mp hword
    have hmem := normalForm_mem_basis halphabet
    rw [hform] at hmem
    exact hmem

/-! ## §2. Places in the basis. -/

/-- **A blade is found where it is listed.** -/
theorem indexOf_eq_some_iff {blade : Blade} {i : Nat} :
    metric.indexOf blade = some i ↔ (metric.basis blade.length)[i]? = some blade :=
  idxOf?_eq_some_iff_of_nodup (metric.basis_nodup blade.length)

/-- A word has no place exactly when it is no increasing word over the alphabet. -/
theorem indexOf_eq_none_iff {word : Blade} :
    metric.indexOf word = none ↔ ¬ (word.Pairwise (· < ·) ∧ metric.InAlphabet word) := by
  rw [← isBasisBlade_iff, ← mem_basis]
  exact List.idxOf?_eq_none_iff

/-- The place of a canonical form. -/
theorem exists_indexOf_normalForm {word : Blade} (h : metric.InAlphabet word) :
    ∃ i, metric.indexOf (metric.normalForm word).axes = some i := by
  rw [← Option.ne_none_iff_exists']
  intro hnone
  exact indexOf_eq_none_iff.mp hnone ⟨metric.normalForm_increasing word, h.normalForm⟩

/-! ## §3. The basis. -/

/-- **THE BASIS LISTS THE CANONICAL BLADES.**  Each grade lists the increasing words of
its length over the alphabet, each once and in lexicographic order; these are the
canonical forms.  A grade has as many as the binomial coefficient, none past the number
`n` of axes, and all grades together have 2ⁿ.  The canonical form of every word over the
alphabet has a place in the basis, where it is listed, and a word that is not an
increasing one over the alphabet has none. -/
theorem basis_lists_canonical (metric : Metric) :
    (∀ grade, (∀ blade, blade ∈ metric.basis grade
            ↔ blade.Pairwise (· < ·) ∧ metric.InAlphabet blade ∧ blade.length = grade)
        ∧ (metric.basis grade).Nodup ∧ (metric.basis grade).Pairwise (· < ·)
        ∧ (metric.basis grade).length = metric.size.choose grade
        ∧ (metric.size < grade → metric.basis grade = []))
      ∧ ((List.range (metric.size + 1)).map fun grade => (metric.basis grade).length).sum
          = 2 ^ metric.size
      ∧ (∀ blade, blade ∈ metric.basis blade.length
          ↔ ∃ word sign, metric.canonicalize word = .ok ⟨blade, sign⟩)
      ∧ (∀ word, metric.InAlphabet word → ∃ blade i, metric.canonicalize word = .ok blade
          ∧ metric.indexOf blade.axes = some i
          ∧ (metric.basis blade.axes.length)[i]? = some blade.axes)
      ∧ (∀ word, metric.indexOf word = none
          ↔ ¬ (word.Pairwise (· < ·) ∧ metric.InAlphabet word)) := by
  refine ⟨fun grade => ⟨?_, metric.basis_nodup grade, metric.basis_ordered grade,
    metric.length_basis grade, basis_eq_nil_of_lt⟩, metric.sum_length_basis,
    fun _ => mem_basis_iff_canonical, ?_, fun _ => indexOf_eq_none_iff⟩
  · -- what a grade lists
    intro blade
    rw [mem_basis]
    exact ⟨fun h => ⟨h.increasing, h.bounded, h.length_eq⟩, fun h => ⟨h.1, h.2.1, h.2.2⟩⟩
  · -- where canonical forms are listed
    intro word hword
    obtain ⟨i, hi⟩ := exists_indexOf_normalForm hword
    exact ⟨metric.normalForm word, i, canonicalize_of_lt hword, hi, indexOf_eq_some_iff.mp hi⟩

/-- The word of the axes 4, 2, 0, 2, 3 contracts to the sixth blade of grade 3, with a
sign; it has no place as it stands. -/
example : conformalSpace.canonicalize [4, 2, 0, 2, 3] = .ok ⟨[0, 3, 4], .negative⟩
    ∧ conformalSpace.indexOf [0, 3, 4] = some 5
    ∧ conformalSpace.indexOf [4, 2, 0, 2, 3] = none := by decide

end Metric

end GeometricAlgebra
