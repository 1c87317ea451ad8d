/-
  GeometricAlgebra.Proofs.LabelledBlades
  ────────────────────────────────
  **A LABEL IS THE PRODUCT OF ITS SYMBOLS.**

  Labels need not be canonical when a multivector is built.  Whatever the order
  of the symbols and however often they occur, a labelled term contributes the
  product of the axes that it spells (`Multivector.ofTerms_denotes`).
-/
import GeometricAlgebra.Proofs.MultivectorRing

namespace GeometricAlgebra

open Outcome

/-! ## §1. Reading labels. -/

namespace Metric

variable {metric : Metric}

theorem axisOf_lt {c : Char} {axis : Axis} (h : metric.axisOf c = some axis) :
    axis < metric.size :=
  (List.findIdx?_eq_some_iff_findIdx_eq.mp h).1

theorem parseSymbol_eq_ok {label : String} {c : Char} {axis : Axis} :
    metric.parseSymbol label c = .ok axis ↔ metric.axisOf c = some axis := by
  unfold parseSymbol
  split
  next found h =>
    rw [h, Except.ok.injEq, Option.some.injEq]
  next h =>
    rw [h]
    exact ⟨nofun, nofun⟩

/-- **A label is read symbol by symbol.** -/
theorem parse_eq_ok_iff {label : String} {word : Blade} : metric.parse label = .ok word
    ↔ List.Forall₂ (fun c axis => metric.axisOf c = some axis) label.toList word := by
  rw [parse, mapM_eq_ok_iff]
  simp only [parseSymbol_eq_ok]

/-- Labels spell words over the alphabet. -/
theorem inAlphabet_of_parse {label : String} {word : Blade} (h : metric.parse label = .ok word) :
    metric.InAlphabet word := by
  have hsymbols := parse_eq_ok_iff.mp h
  generalize label.toList = symbols at hsymbols
  clear h
  induction hsymbols with
  | nil => exact fun axis haxis => absurd haxis List.not_mem_nil
  | cons hc _ ih => exact List.forall_mem_cons.mpr ⟨axisOf_lt hc, ih⟩

end Metric

/-! ## §2. Labelled terms. -/

namespace Multivector

open SortedTerms

/-- One more labelled term adds the product of its axes, with its coefficient. -/
theorem addLabelled_yields {terms : List (Blade × Polynomial)} {labelled : String × Polynomial}
    {word : Blade} (hterms : IsNormal CanonicalBlade terms)
    (hlabel : metric.parse labelled.1 = .ok word) (hp : labelled.2.Canonical) :
    Yields (addLabelled terms labelled) (fun sum => IsNormal CanonicalBlade sum
      ∧ reading algebraTerm sum
        = reading algebraTerm terms + labelled.2.value • (word.map Clifford.axis).prod) := by
  -- what was read is a word over the alphabet, so its canonical form exists
  have hword : metric.InAlphabet word := Metric.inAlphabet_of_parse hlabel
  have hblade : metric.canonicalizeWord labelled.1 = .ok (metric.normalForm word) := by
    rw [Metric.canonicalizeWord, hlabel]
    exact Metric.canonicalize_of_lt hword
  unfold addLabelled
  rw [hblade]
  apply (signedTerm_yields hword ⟨hp, rfl⟩).bind
  intro term h
  obtain ⟨hterm, hvalue⟩ := h
  rw [← hvalue]
  exact accumulate_reading_yields hterms hterm

/-- **A sum of labelled terms is the sum of the products that they spell.** -/
theorem ofTerms_denotes {terms : List (String × Polynomial)} (word : String → Blade)
    (hterms : ∀ t ∈ terms, metric.parse t.1 = .ok (word t.1) ∧ t.2.Canonical) :
    Yields (ofTerms terms)
      (Denotes (terms.map fun t => t.2.value • ((word t.1).map Clifford.axis).prod).sum) := by
  have hloop : Yields (terms.foldlM addLabelled []) (fun sum => IsNormal CanonicalBlade sum
      ∧ reading algebraTerm sum = reading algebraTerm []
        + (terms.map fun t => t.2.value • ((word t.1).map Clifford.axis).prod).sum) :=
    Yields.foldlM isNormal_nil fun t ht _ hsum =>
      addLabelled_yields hsum (hterms t ht).1 (hterms t ht).2
  apply hloop.bind
  intro sum h
  obtain ⟨hsum, hvalue⟩ := h
  rw [reading_nil, zero_add] at hvalue
  exact yields_pure ⟨canonical_iff.mpr hsum, hvalue⟩

/-- A label with coefficient 1 is the product of its axes. -/
theorem blade_denotes {label : String} {word : Blade} (hlabel : metric.parse label = .ok word) :
    Yields (blade label) (Denotes (word.map Clifford.axis).prod) := by
  have hone := Polynomial.one_denotes
  have hterms : ∀ t ∈ [(label, Polynomial.one)],
      metric.parse t.1 = .ok word ∧ t.2.Canonical := by
    intro t ht
    rw [List.mem_singleton.mp ht]
    exact ⟨hlabel, hone.1⟩
  have h := ofTerms_denotes (fun _ => word) hterms
  rw [List.map_singleton, List.sum_singleton, hone.2, one_smul] at h
  exact h

end Multivector

end GeometricAlgebra
