/-
  GeometricAlgebra.Proofs.AcceptedSettings
  ────────────────────────────────
  **WHAT ACCEPTED SETTINGS PROMISE.**

  A generator exists only for settings without a fault, and then its metric is
  spelled by the used symbols (`Generator.Accepted`).  Everything that is proved
  about kernels rests on these five facts, and none of it looks at the checks
  themselves.

  Main results:
    * `Generator.ofSettings_accepted` — a generator that was given out is
      accepted.
    * `Generator.Accepted.square_eq_negative_iff` — exactly one axis squares to
      −1, and it is the one with the chosen symbol.
-/
import GeometricAlgebra.Kernel.Generator
import Mathlib

namespace GeometricAlgebra

/-! ## §1. Checked alphabets. -/

namespace Metric

theorem firstRepeated_go_eq_none {earlier symbols : List Char} :
    firstRepeated.go earlier symbols = none ↔ symbols.Nodup ∧ ∀ c ∈ symbols, c ∉ earlier := by
  induction symbols generalizing earlier with
  | nil => simp [firstRepeated.go]
  | cons c rest ih =>
    unfold firstRepeated.go
    split
    next hmem =>
      refine ⟨nofun, ?_⟩
      intro h
      obtain ⟨-, hfresh⟩ := h
      exact absurd hmem (hfresh c List.mem_cons_self)
    next hmem =>
      rw [ih, List.nodup_cons, List.forall_mem_cons]
      constructor
      · intro h
        obtain ⟨hnodup, hfresh⟩ := h
        refine ⟨⟨fun hc => hfresh c hc List.mem_cons_self, hnodup⟩, hmem, ?_⟩
        exact fun d hd hd' => hfresh d hd (List.mem_cons_of_mem c hd')
      · intro h
        obtain ⟨⟨hc, hnodup⟩, -, hfresh⟩ := h
        refine ⟨hnodup, ?_⟩
        intro d hd hd'
        rcases List.mem_cons.mp hd' with rfl | hd'
        · exact hc hd
        · exact hfresh d hd hd'

/-- No symbol repeats exactly when they are distinct. -/
theorem firstRepeated_eq_none {symbols : List Char} :
    firstRepeated symbols = none ↔ symbols.Nodup := by
  rw [firstRepeated, firstRepeated_go_eq_none]
  exact and_iff_left fun c _ => List.not_mem_nil

/-- **A metric has exactly the given axes**, which are few and distinct. -/
theorem ofAxes_eq_ok_iff {axes : List (Char × Sign)} {metric : Metric} : ofAxes axes = .ok metric
    ↔ metric.axes = axes ∧ axes.length ≤ maxSize ∧ (axes.map Prod.fst).Nodup := by
  unfold ofAxes
  split
  next hsize => exact ⟨nofun, fun h => absurd hsize (Nat.not_lt_of_le h.2.1)⟩
  next hsize =>
    split
    next c hrepeated =>
      refine ⟨nofun, fun h => ?_⟩
      rw [firstRepeated_eq_none.mpr h.2.2] at hrepeated
      cases hrepeated
    next hnone =>
      have hnodup := firstRepeated_eq_none.mp hnone
      constructor
      · rintro ⟨⟩
        exact ⟨rfl, Nat.le_of_not_lt hsize, hnodup⟩
      · intro h
        rw [← h.1]

/-- The axes of a conformal alphabet. -/
def conformalAxes (symbols : List Char) (negative : Char) : List (Char × Sign) :=
  symbols.map fun c => (c, if c = negative then .negative else .positive)

theorem conformal_eq_ok_iff {symbols : List Char} {negative : Char} {metric : Metric} :
    conformal symbols negative = .ok metric
      ↔ metric.axes = conformalAxes symbols negative ∧ symbols.length ≤ maxSize
        ∧ symbols.Nodup ∧ negative ∈ symbols := by
  have hsymbols : (conformalAxes symbols negative).map Prod.fst = symbols := by
    rw [conformalAxes, List.map_map]
    exact List.map_id symbols
  have hlength : (conformalAxes symbols negative).length = symbols.length := List.length_map _
  unfold conformal
  split
  next hmem =>
    rw [← conformalAxes, ofAxes_eq_ok_iff, hsymbols, hlength]
    simp only [hmem, and_true]
  next hmem => exact ⟨nofun, fun h => absurd h.2.2.2 hmem⟩

/-- Distinct lowercase letters are at most 26. -/
theorem length_le_of_isLower {symbols : List Char} (hnodup : symbols.Nodup)
    (hlower : ∀ c ∈ symbols, c.isLower) : symbols.length ≤ 26 := by
  have hcodes : (symbols.map Char.toNat).Nodup := hnodup.map fun _ _ h => Char.toNat_inj.mp h
  have hsub : symbols.map Char.toNat ⊆ List.range' 97 26 := by
    intro n hn
    obtain ⟨c, hc, rfl⟩ := List.mem_map.mp hn
    have hc' := hlower c hc
    simp only [Char.isLower, ge_iff_le, Bool.and_eq_true, decide_eq_true_eq,
      UInt32.le_iff_toNat_le] at hc'
    rw [List.mem_range'_1]
    show 97 ≤ c.val.toNat ∧ c.val.toNat < 97 + 26
    have h1 : ('a'.val).toNat = 97 := rfl
    have h2 : ('z'.val).toNat = 122 := rfl
    omega
  have hle := (List.subperm_of_subset hcodes hsub).length_le
  rwa [List.length_map, List.length_range'] at hle

end Metric

/-! ## §2. Checked settings. -/

namespace Settings

/-- **Settings without a fault have passed every check.** -/
theorem fault?_eq_none_iff {s : Settings} : s.fault? = none
    ↔ s.dimensions ≠ 0 ∧ s.axisCount ≤ s.symbols.length ∧ (∀ c ∈ s.usedSymbols, c.isLower)
      ∧ s.negativeAxis ∈ s.conformalSymbols
      ∧ isBlank s.scalarType = false ∧ isBlank s.recordStem = false := by
  unfold fault?
  split
  next hzero => exact ⟨nofun, fun h => absurd hzero h.1⟩
  next hzero =>
    split
    next hfew => exact ⟨nofun, fun h => absurd hfew (Nat.not_lt_of_le h.2.1)⟩
    next hfew =>
      split
      next c hfind =>
        refine ⟨nofun, fun h => ?_⟩
        have hlower := h.2.2.1 c (List.mem_of_find?_eq_some hfind)
        have hbad := List.find?_some hfind
        rw [hlower] at hbad
        cases hbad
      next hfind =>
        have hlower : ∀ c ∈ s.usedSymbols, c.isLower := by
          intro c hc
          simpa using List.find?_eq_none.mp hfind c hc
        split
        next hmem => exact ⟨nofun, fun h => absurd h.2.2.2.1 hmem⟩
        next hmem =>
          split
          next hblank =>
            refine ⟨nofun, fun h => ?_⟩
            rw [h.2.2.2.2.1, h.2.2.2.2.2] at hblank
            cases hblank
          next hblank =>
            have hnames := Bool.or_eq_false_iff.mp (Bool.eq_false_iff.mpr hblank)
            exact ⟨fun _ => ⟨hzero, Nat.le_of_not_lt hfew, hlower, not_not.mp hmem, hnames⟩,
              fun _ => rfl⟩

/-- An alphabet that is long enough has a symbol for each axis. -/
theorem length_usedSymbols {s : Settings} (h : s.axisCount ≤ s.symbols.length) :
    s.usedSymbols.length = s.axisCount := by
  rw [usedSymbols, List.length_take, String.length_toList]
  exact Nat.min_eq_left h

end Settings

namespace Generator

/-- Settings and a metric that belong together. -/
structure Accepted (g : Generator) : Prop where
  metric_axes : g.metric.axes = Metric.conformalAxes g.settings.usedSymbols g.settings.negativeAxis
  length_used : g.settings.usedSymbols.length = g.settings.axisCount
  axisCount_le : g.settings.axisCount ≤ Metric.maxSize
  nodup_used : g.settings.usedSymbols.Nodup
  negative_mem : g.settings.negativeAxis ∈ g.settings.conformalSymbols

/-- **What a generator is made of**: settings without a fault, and the metric of their
alphabet. -/
theorem ofSettings_eq_ok {s : Settings} {g : Generator} (h : ofSettings s = .ok g) :
    g.settings = s ∧ s.fault? = none
      ∧ Metric.conformal s.usedSymbols s.negativeAxis = .ok g.metric := by
  unfold ofSettings at h
  cases hmetric : s.metric with
  | error failure =>
    rw [hmetric] at h
    cases h
  | ok metric =>
    rw [hmetric] at h
    cases h
    unfold Settings.metric at hmetric
    split at hmetric
    next => cases hmetric
    next hfault => exact ⟨rfl, hfault, hmetric⟩

/-- **A generator is given out for accepted settings only.** -/
theorem ofSettings_accepted {s : Settings} {g : Generator} (h : ofSettings s = .ok g) :
    g.settings = s ∧ g.Accepted := by
  -- no fault was found, and the alphabet passed its own checks as well
  obtain ⟨rfl, hfault, hmetric⟩ := ofSettings_eq_ok h
  obtain ⟨-, hcount, -, hnegative, -⟩ := Settings.fault?_eq_none_iff.mp hfault
  obtain ⟨haxes, hsize, hnodup, -⟩ := Metric.conformal_eq_ok_iff.mp hmetric
  have hlength := Settings.length_usedSymbols hcount
  exact ⟨rfl, haxes, hlength, hlength ▸ hsize, hnodup, hnegative⟩

/-- The axis that squares to −1. -/
def minus (g : Generator) : Axis := g.settings.usedSymbols.idxOf g.settings.negativeAxis

namespace Accepted

variable {g : Generator} (hg : g.Accepted)
include hg

theorem size_eq : g.metric.size = g.settings.axisCount := by
  rw [Metric.size, hg.metric_axes, Metric.conformalAxes, List.length_map, hg.length_used]

theorem symbol_eq {i : Axis} (hi : i < g.settings.usedSymbols.length) :
    g.metric.symbol i = g.settings.usedSymbols[i] := by
  rw [Metric.symbol, hg.metric_axes, Metric.conformalAxes, List.getElem?_map,
    List.getElem?_eq_getElem hi]
  rfl

theorem square_eq {i : Axis} (hi : i < g.settings.usedSymbols.length) :
    g.metric.square i
      = if g.settings.usedSymbols[i] = g.settings.negativeAxis then .negative else .positive := by
  rw [Metric.square, hg.metric_axes, Metric.conformalAxes, List.getElem?_map,
    List.getElem?_eq_getElem hi]
  rfl

/-- **An axis squares to −1 exactly when it has the chosen symbol.** -/
theorem square_eq_negative_iff {i : Axis} (hi : i < g.settings.axisCount) :
    g.metric.square i = .negative ↔ g.metric.symbol i = g.settings.negativeAxis := by
  have hused : i < g.settings.usedSymbols.length := hi.trans_eq hg.length_used.symm
  rw [hg.square_eq hused, hg.symbol_eq hused]
  split
  next h => exact iff_of_true rfl h
  next h => exact iff_of_false nofun h

/-- Different axes have different symbols. -/
theorem symbol_injective {i j : Axis} (hi : i < g.settings.axisCount)
    (hj : j < g.settings.axisCount) (h : g.metric.symbol i = g.metric.symbol j) : i = j := by
  have hi' : i < g.settings.usedSymbols.length := hi.trans_eq hg.length_used.symm
  have hj' : j < g.settings.usedSymbols.length := hj.trans_eq hg.length_used.symm
  rw [hg.symbol_eq hi', hg.symbol_eq hj'] at h
  exact (hg.nodup_used.getElem_inj_iff).mp h

theorem symbol_eq_negativeAxis_iff {i : Axis} (hi : i < g.settings.axisCount) :
    g.metric.symbol i = g.settings.negativeAxis ↔ i = g.minus := by
  have hused : i < g.settings.usedSymbols.length := hi.trans_eq hg.length_used.symm
  rw [hg.symbol_eq hused]
  constructor
  · intro h
    rw [minus, ← h]
    exact (hg.nodup_used.idxOf_getElem i hused).symm
  · intro h
    subst h
    exact List.getElem_idxOf hused

/-- The conformal symbols are those of the first two axes. -/
theorem symbol_mem_conformalSymbols_iff {i : Axis} (hi : i < g.settings.axisCount) :
    g.metric.symbol i ∈ g.settings.conformalSymbols ↔ i < 2 := by
  have hused : i < g.settings.usedSymbols.length := hi.trans_eq hg.length_used.symm
  rw [hg.symbol_eq hused, Settings.conformalSymbols,
    List.mem_take_iff_idxOf_lt (List.getElem_mem hused), hg.nodup_used.idxOf_getElem i hused]

theorem minus_lt : g.minus < 2 :=
  (List.mem_take_iff_idxOf_lt (List.mem_of_mem_take hg.negative_mem)).mp hg.negative_mem

/-- **One axis squares to −1 and all others to 1**, also outside the alphabet. -/
theorem square_eq_ite (i : Axis) :
    g.metric.square i = if i = g.minus then .negative else .positive := by
  by_cases hi : i < g.settings.axisCount
  · have hiff := (hg.square_eq_negative_iff hi).trans (hg.symbol_eq_negativeAxis_iff hi)
    split
    next h => exact hiff.mpr h
    next h =>
      cases hsquare : g.metric.square i with
      | positive => rfl
      | negative => exact absurd (hiff.mp hsquare) h
  · -- outside the alphabet, and therefore not one of the conformal axes
    have hcount : 2 ≤ g.settings.axisCount := Nat.le_add_left 2 g.settings.dimensions
    have hlt : g.minus < i := (hg.minus_lt.trans_le hcount).trans_le (Nat.le_of_not_lt hi)
    have hnone : g.metric.axes[i]? = none := by
      rw [List.getElem?_eq_none_iff]
      exact (hg.size_eq ▸ Nat.le_of_not_lt hi : g.metric.size ≤ i)
    rw [if_neg (Nat.ne_of_gt hlt), Metric.square, hnone]
    rfl

end Accepted

/-- The generator for three-dimensional conformal space. -/
def space : Generator :=
  ⟨.default, ⟨[('m', .negative), ('p', .positive), ('x', .positive), ('y', .positive),
    ('z', .positive)]⟩⟩

theorem ofSettings_default : ofSettings .default = .ok space := by decide

end Generator

end GeometricAlgebra
