/-
  GeometricAlgebra.Proofs.LabelTranslation
  ────────────────────────────────
  **LABELS AND WORDS TRANSLATE INTO EACH OTHER.**

  A label is read by looking every symbol up and written by putting the symbols of the
  axes side by side.  An alphabet is only given out if its symbols are distinct, so a
  symbol has one position and the two are inverse:

      axisOf c = axis   ↔   the symbol at position axis is c .

  Nothing else is used of the symbols.  Any character may be one, also the question
  mark, which stands for axes outside the alphabet: words over the alphabet never show
  it for such an axis.

  Main result:
    * `Metric.labels_translate` — reading after writing and writing after reading; which
      labels are refused; and the canonical form of a label.
-/
import GeometricAlgebra.Proofs.AcceptedSettings
import GeometricAlgebra.Proofs.CanonicalBasis
import GeometricAlgebra.Proofs.Spellings

namespace GeometricAlgebra.Metric

variable {metric : Metric}

/-! ## §1. Symbols. -/

theorem length_symbols (metric : Metric) : metric.symbols.length = metric.size :=
  List.length_map _

theorem symbol_eq_getD (metric : Metric) (axis : Axis) :
    metric.symbol axis = metric.symbols[axis]?.getD '?' := by
  unfold symbol symbols
  rw [List.getElem?_map]

theorem axisOf_eq_idxOf? (metric : Metric) (c : Char) :
    metric.axisOf c = metric.symbols.idxOf? c := by
  unfold axisOf symbols List.idxOf?
  rw [List.findIdx?_map]
  rfl

/-! ## §2. Labels over distinct symbols. -/

section Distinct

variable (hdistinct : metric.symbols.Nodup) {label : String} {word : Blade}
include hdistinct

/-- **The symbol of an axis is found at the axis.** -/
theorem axisOf_symbol {axis : Axis} (h : axis < metric.size) :
    metric.axisOf (metric.symbol axis) = some axis := by
  rw [← length_symbols] at h
  rw [axisOf_eq_idxOf?, idxOf?_eq_some_iff_of_nodup hdistinct, symbol_eq_getD,
    List.getElem?_eq_getElem h]
  rfl

theorem symbol_of_axisOf {c : Char} {axis : Axis} (h : metric.axisOf c = some axis) :
    metric.symbol axis = c := by
  rw [axisOf_eq_idxOf?, idxOf?_eq_some_iff_of_nodup hdistinct] at h
  rw [symbol_eq_getD, h]
  rfl

/-- **What was written is read back.** -/
theorem parse_label (h : metric.InAlphabet word) : metric.parse (metric.label word) = .ok word := by
  rw [parse_eq_ok_iff]
  unfold Metric.label
  rw [String.toList_ofList, List.forall₂_map_left_iff, List.forall₂_same]
  intro axis haxis
  exact axisOf_symbol hdistinct (h axis haxis)

/-- **What was read is written as it was.** -/
theorem label_of_parse (h : metric.parse label = .ok word) : metric.label word = label := by
  have hsymbols : List.Forall₂ (fun c axis => c = metric.symbol axis) label.toList word :=
    (parse_eq_ok_iff.mp h).imp fun c axis haxis => (symbol_of_axisOf hdistinct haxis).symm
  rw [← List.forall₂_map_right_iff (R := fun c d => c = d), List.forall₂_eq_eq_eq] at hsymbols
  unfold Metric.label
  rw [← hsymbols, String.ofList_toList]

/-- The canonical form of a label that spells a word is the label of the canonical form. -/
theorem canonicalizeLabel_label (h : metric.InAlphabet word) :
    metric.canonicalizeLabel (metric.label word)
      = .ok (metric.label (metric.normalForm word).axes, (metric.normalForm word).sign) := by
  unfold canonicalizeLabel canonicalizeWord
  rw [parse_label hdistinct h]
  show (do let blade ← metric.canonicalize word; _) = _
  rw [canonicalize_of_lt h]
  rfl

end Distinct

/-! ## §3. Canonical labels. -/

/-- A label has a canonical form exactly when all its symbols are known, and there is one
kind of failure. -/
theorem canonicalizeLabel_cases (metric : Metric) (label : String) :
    (metric.IsLabel label ∧ ∃ result, metric.canonicalizeLabel label = .ok result)
      ∨ (¬ metric.IsLabel label
        ∧ ∃ fault, metric.canonicalizeLabel label = .error (.malformedBlade fault)) := by
  unfold canonicalizeLabel
  by_cases h : metric.IsLabel label
  · rw [canonicalizeWord_of_isLabel h]
    exact .inl ⟨h, _, rfl⟩
  · obtain ⟨c, -, -, hparse⟩ := parse_of_not_isLabel h
    unfold canonicalizeWord
    rw [hparse]
    exact .inr ⟨h, _, rfl⟩

/-- **LABELS TRANSLATE LOSSLESSLY** over every alphabet that was given out.  The label of
a word over the alphabet is read as the word; a label is read exactly when all its
symbols are known, and then it is the label of what was read, whose axes fit a byte; it
has no canonical form, with a malformed blade as the reason, exactly when a symbol is
unknown.  The canonical form of the label of a word is the label of the canonical form,
with its sign, and is its own canonical form without one. -/
theorem labels_translate {axes : List (Char × Sign)} {metric : Metric}
    (hmetric : ofAxes axes = .ok metric) :
    (∀ word, metric.InAlphabet word → metric.parse (metric.label word) = .ok word)
      ∧ (∀ label, ((∃ word, metric.parse label = .ok word)
            ↔ ∀ c ∈ label.toList, c ∈ metric.symbols)
          ∧ ∀ word, metric.parse label = .ok word →
              metric.label word = label ∧ ∀ axis ∈ word, axis < maxSize)
      ∧ (∀ label, (∃ fault, metric.canonicalizeLabel label = .error (.malformedBlade fault))
          ↔ ∃ c ∈ label.toList, c ∉ metric.symbols)
      ∧ (∀ word, metric.InAlphabet word → ∃ blade, metric.canonicalize word = .ok blade
          ∧ metric.canonicalizeLabel (metric.label word)
              = .ok (metric.label blade.axes, blade.sign)
          ∧ metric.canonicalizeLabel (metric.label blade.axes)
              = .ok (metric.label blade.axes, .positive)) := by
  obtain ⟨haxes, hsize, hnodup⟩ := ofAxes_eq_ok_iff.mp hmetric
  rw [← haxes] at hsize hnodup
  have hdistinct : metric.symbols.Nodup := hnodup
  refine ⟨fun word => parse_label hdistinct, fun label => ⟨?_, ?_⟩, fun label => ?_,
    fun word hword => ?_⟩
  · -- what is read
    constructor
    · intro h
      obtain ⟨word, hword⟩ := h
      by_contra hlabel
      obtain ⟨c, -, -, hparse⟩ := parse_of_not_isLabel hlabel
      rw [hword] at hparse
      cases hparse
    · intro h
      exact ⟨_, parse_of_isLabel h⟩
  · -- and as which word
    intro word hword
    refine ⟨label_of_parse hdistinct hword, fun axis haxis => ?_⟩
    exact (inAlphabet_of_parse hword axis haxis).trans_le hsize
  · -- what has no canonical form
    rcases canonicalizeLabel_cases metric label with ⟨hlabel, result, hresult⟩ | ⟨hlabel, hfault⟩
    · rw [hresult]
      refine iff_of_false nofun ?_
      intro h
      obtain ⟨c, hc, hforeign⟩ := h
      exact hforeign (hlabel c hc)
    · unfold IsLabel at hlabel
      push Not at hlabel
      exact iff_of_true hfault hlabel
  · -- canonical forms
    refine ⟨metric.normalForm word, canonicalize_of_lt hword,
      canonicalizeLabel_label hdistinct hword, ?_⟩
    rw [canonicalizeLabel_label hdistinct hword.normalForm,
      normalForm_of_increasing (metric.normalForm_increasing word)]

/-- An alphabet in which the question mark is the symbol of an axis that squares to −1. -/
def questioned : Metric := ⟨[('α', .positive), ('?', .negative), ('β', .positive)]⟩

/-- Over it the label `β?α?` spells the axes 2, 1, 0, 1, and has the canonical form `αβ`
with a minus sign. -/
theorem labels_translate_question :
    (ofAxes questioned.axes = .ok questioned ∧ questioned.InAlphabet [2, 1, 0, 1])
      ∧ questioned.parse (questioned.label [2, 1, 0, 1]) = .ok [2, 1, 0, 1]
      ∧ questioned.canonicalizeLabel (questioned.label [2, 1, 0, 1]) = .ok ("αβ", .negative)
      ∧ questioned.canonicalizeLabel "αβ" = .ok ("αβ", .positive) := by
  have hmetric : ofAxes questioned.axes = .ok questioned := by decide
  have hword : questioned.InAlphabet [2, 1, 0, 1] := by
    unfold InAlphabet
    decide
  obtain ⟨hparse, -, -, hcanonical⟩ := labels_translate hmetric
  obtain ⟨blade, hblade, hlabel, hagain⟩ := hcanonical _ hword
  have hform : questioned.canonicalize [2, 1, 0, 1] = .ok ⟨[0, 2], .negative⟩ := by decide
  cases hform.symm.trans hblade
  exact ⟨⟨hmetric, hword⟩, hparse _ hword, hlabel, hagain⟩

end GeometricAlgebra.Metric
