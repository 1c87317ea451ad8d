/-
  GeometricAlgebra.Proofs.FieldNames
  ────────────────────────────────
  **DISTINCT BLADES HAVE DISTINCT FIELD NAMES.**

  A field is named by the label of its blade, and labels of basis blades are
  words of distinct lower-case letters.  The escapes of reserved words bring in
  the characters `_` and `#`, which are no letters, so they can be taken back
  (`unescape_identifier`).  The one name that is no label, that of the scalar
  blade, repeats a letter.  Hence a field name says which blade it stands for,
  whatever the alphabet is.

  Main results:
    * `Generator.Spelled.fieldName_injective` — the names of basis blades of all
      grades are distinct.
    * `fieldName_notMem_words` — no field name is reserved.
    * `Generator.Spelled.bladeOf?_eq_some` — a name read back is its blade.
-/
import GeometricAlgebra.Proofs.AcceptedSettings
import GeometricAlgebra.Proofs.BasisBlades

namespace GeometricAlgebra

/-! ## §1. Escapes. -/

/-- A text of lower-case letters. -/
def IsLowercase (text : String) : Prop := ∀ c ∈ text.toList, c.isLower

theorem isLowercase_words : ∀ word ∈ pathWords ++ reservedWords, IsLowercase word := by
  intro word hword
  have hall : (pathWords ++ reservedWords).all (·.toList.all Char.isLower) := rfl
  exact List.all_eq_true.mp (List.all_eq_true.mp hall word hword)

/-- The label that an identifier was made from. -/
def unescape (name : String) : String :=
  match name.toList with
  | 'r' :: '#' :: label => String.ofList label
  | cs => String.ofList (cs.filter (· ≠ '_'))

/-- **Escapes can be taken back.** -/
theorem unescape_identifier {label : String} (h : IsLowercase label) :
    unescape (identifier label) = label := by
  unfold identifier
  split_ifs with hpath hreserved
  · exact (by decide : ∀ label ∈ pathWords, unescape (label ++ "_") = label) label hpath
  · rw [unescape, String.toList_append]
    exact String.ofList_toList
  · have hplain : label.toList.filter (· ≠ '_') = label.toList := by
      rw [List.filter_eq_self]
      intro c hc
      have hlower := h c hc
      rw [decide_eq_true_eq]
      rintro rfl
      cases hlower
    unfold unescape
    split
    next rest heq =>
      -- a label has no `#`
      have hlower := h '#' (by rw [heq]; simp)
      cases hlower
    next => rw [hplain, String.ofList_toList]

theorem identifier_injective {label label' : String} (h : IsLowercase label)
    (h' : IsLowercase label') (heq : identifier label = identifier label') : label = label' := by
  rw [← unescape_identifier h, heq, unescape_identifier h']

/-- **An identifier is never a reserved word**: an escaped one is not all letters. -/
theorem identifier_notMem_words (label : String) :
    identifier label ∉ pathWords ++ reservedWords := by
  intro hmem
  have hlower := isLowercase_words _ hmem
  unfold identifier at hmem hlower
  split_ifs at hmem hlower with hpath hreserved
  · exact absurd (hlower '_' (by simp)) (by decide)
  · exact absurd (hlower '#' (by simp)) (by decide)
  · rcases List.mem_append.mp hmem with h | h
    · exact hpath h
    · exact hreserved h

theorem fieldName_notMem_words (metric : Metric) (blade : Blade) :
    metric.fieldName blade ∉ pathWords ++ reservedWords := by
  unfold Metric.fieldName
  split
  · decide
  · exact identifier_notMem_words _

/-! ## §2. Labels. -/

namespace Generator

/-- An accepted generator whose axes are spelled by lower-case letters. -/
structure Spelled (g : Generator) : Prop extends g.Accepted where
  isLower_used : ∀ c ∈ g.settings.usedSymbols, c.isLower

theorem ofSettings_spelled {s : Settings} {g : Generator} (h : ofSettings s = .ok g) :
    g.Spelled := by
  obtain ⟨rfl, haccepted⟩ := ofSettings_accepted h
  obtain ⟨-, hfault, -⟩ := ofSettings_eq_ok h
  exact ⟨haccepted, (Settings.fault?_eq_none_iff.mp hfault).2.2.1⟩

namespace Spelled

variable {g : Generator} (hg : g.Spelled) {k l : Nat} {K L : Blade}
include hg

theorem isLower_symbol {axis : Axis} (h : axis < g.metric.size) :
    (g.metric.symbol axis).isLower := by
  rw [hg.size_eq, ← hg.length_used] at h
  rw [hg.symbol_eq h]
  exact hg.isLower_used _ (List.getElem_mem h)

theorem symbol_inj {i j : Axis} (hi : i < g.metric.size) (hj : j < g.metric.size)
    (h : g.metric.symbol i = g.metric.symbol j) : i = j := by
  rw [hg.size_eq] at hi hj
  exact hg.symbol_injective hi hj h

/-- **There are at most 26 axes**, as many as letters. -/
theorem size_le : g.metric.size ≤ 26 := by
  rw [hg.size_eq, ← hg.length_used]
  exact Metric.length_le_of_isLower hg.nodup_used hg.isLower_used

theorem isLowercase_label (hK : IsBasisBlade g.metric.size k K) :
    IsLowercase (g.metric.label K) := by
  intro c hc
  rw [Metric.label, String.toList_ofList, List.mem_map] at hc
  obtain ⟨axis, haxis, rfl⟩ := hc
  exact hg.isLower_symbol (hK.bounded axis haxis)

theorem nodup_label (hK : IsBasisBlade g.metric.size k K) :
    (g.metric.label K).toList.Nodup := by
  rw [Metric.label, String.toList_ofList]
  refine List.Nodup.map_on ?_ hK.nodup
  intro i hi j hj
  exact hg.symbol_inj (hK.bounded i hi) (hK.bounded j hj)

theorem subset_of_label_eq (hK : IsBasisBlade g.metric.size k K)
    (hL : IsBasisBlade g.metric.size l L) (h : g.metric.label K = g.metric.label L) : K ⊆ L := by
  intro i hi
  have hmem : g.metric.symbol i ∈ L.map g.metric.symbol := by
    rw [← String.ofList_injective h]
    exact List.mem_map_of_mem hi
  obtain ⟨j, hj, heq⟩ := List.mem_map.mp hmem
  rw [← hg.symbol_inj (hL.bounded j hj) (hK.bounded i hi) heq]
  exact hj

theorem label_injective (hK : IsBasisBlade g.metric.size k K)
    (hL : IsBasisBlade g.metric.size l L) (h : g.metric.label K = g.metric.label L) : K = L := by
  refine hK.increasing.eq_of_mem_iff hL.increasing fun i => ⟨?_, ?_⟩
  · exact fun hi => hg.subset_of_label_eq hK hL h hi
  · exact fun hi => hg.subset_of_label_eq hL hK h.symm hi

/-! ## §3. Field names. -/

/-- No label is escaped to the name of the scalar blade, which repeats a letter. -/
theorem identifier_ne_scalar (hK : IsBasisBlade g.metric.size k K) :
    identifier (g.metric.label K) ≠ "scalar" := by
  intro h
  have hlabel : g.metric.label K = "scalar" := by
    rw [← unescape_identifier (hg.isLowercase_label hK), h]
    decide
  have hnodup := hg.nodup_label hK
  rw [hlabel] at hnodup
  revert hnodup
  decide

/-- **Different basis blades have different field names**, also across grades. -/
theorem fieldName_injective (hK : IsBasisBlade g.metric.size k K)
    (hL : IsBasisBlade g.metric.size l L) (h : g.metric.fieldName K = g.metric.fieldName L) :
    K = L := by
  unfold Metric.fieldName at h
  split_ifs at h with hnil hnil' hnil'
  · rw [hnil, hnil']
  · exact absurd h.symm (hg.identifier_ne_scalar hL)
  · exact absurd h (hg.identifier_ne_scalar hK)
  · exact hg.label_injective hK hL
      (identifier_injective (hg.isLowercase_label hK) (hg.isLowercase_label hL) h)

end Spelled

end Generator

/-! ## §4. Reading names back. -/

namespace Metric

variable {metric : Metric}

/-- The basis blade of any grade that has this field name. -/
def bladeOf? (metric : Metric) (field : String) : Option Blade :=
  (Subsets.powerset metric.pseudoscalar).find? fun blade => metric.fieldName blade = field

end Metric

/-- **A field name read back is its blade**, and no other name is. -/
theorem Generator.Spelled.bladeOf?_eq_some {g : Generator} (hg : g.Spelled) {field : String}
    {blade : Blade} : g.metric.bladeOf? field = some blade
      ↔ (∃ grade, IsBasisBlade g.metric.size grade blade) ∧ g.metric.fieldName blade = field := by
  constructor
  · intro h
    refine ⟨Metric.mem_powerset.mp (List.mem_of_find?_eq_some h), ?_⟩
    simpa using List.find?_some h
  · intro h
    obtain ⟨⟨grade, hblade⟩, rfl⟩ := h
    cases hfind : g.metric.bladeOf? (g.metric.fieldName blade) with
    | none =>
      have hmem := Metric.mem_powerset.mpr ⟨grade, hblade⟩
      simpa using List.find?_eq_none.mp hfind blade hmem
    | some found =>
      obtain ⟨grade', hfound⟩ := Metric.mem_powerset.mp (List.mem_of_find?_eq_some hfind)
      have heq : g.metric.fieldName found = g.metric.fieldName blade := by
        simpa using List.find?_some hfind
      rw [hg.fieldName_injective hfound hblade heq]

end GeometricAlgebra
