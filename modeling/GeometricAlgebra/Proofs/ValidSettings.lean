/-
  GeometricAlgebra.Proofs.ValidSettings
  ────────────────────────────────
  **SETTINGS ARE ACCEPTED EXACTLY WHEN THEY ARE VALID.**

  The checks of settings are spread over three functions: one looks at the
  settings, one at the negative axis and one at the alphabet of the metric, which
  finds a repeated symbol first.  `Settings.Valid` says in one place what they
  amount to.  The limit on the number of axes does not occur in it, because
  distinct letters stay far below.

  Nothing behind the used symbols is looked at.  Settings that differ there only
  have the same metric, and as the module is written from the metric and the
  names, it is the same text.

  Main result:
    * `Settings.accepted_exactly_when_valid` — which settings make a generator, what
      its metric is, and what the module depends on.
-/
import GeometricAlgebra.Proofs.FieldNames
import GeometricAlgebra.Proofs.KernelInventory

namespace GeometricAlgebra

/-! ## §1. Failures are faults. -/

/-- The outcome is an answer or a fault of the settings. -/
def AnswersOrFaults {α : Type} (x : Outcome α) : Prop :=
  (∃ a, x = .ok a) ∨ ∃ fault, x = .error (.invalidSettings fault)

namespace Metric

theorem ofAxes_answersOrFaults (axes : List (Char × Sign)) : AnswersOrFaults (ofAxes axes) := by
  unfold ofAxes
  split
  · exact .inr ⟨_, rfl⟩
  · split
    · exact .inr ⟨_, rfl⟩
    · exact .inl ⟨_, rfl⟩

theorem conformal_answersOrFaults (symbols : List Char) (negative : Char) :
    AnswersOrFaults (conformal symbols negative) := by
  unfold conformal
  split
  · exact ofAxes_answersOrFaults _
  · exact .inr ⟨_, rfl⟩

end Metric

namespace Settings

variable {s : Settings}

theorem metric_answersOrFaults (s : Settings) : AnswersOrFaults s.metric := by
  unfold metric
  split
  · exact .inr ⟨_, rfl⟩
  · exact Metric.conformal_answersOrFaults _ _

/-! ## §2. Valid settings. -/

/-- What a generator asks of its settings. -/
structure Valid (s : Settings) : Prop where
  /-- There is a Euclidean axis. -/
  pos_dimensions : 1 ≤ s.dimensions
  /-- There is a symbol for each axis. -/
  le_length : s.dimensions + 2 ≤ s.symbols.toList.length
  /-- The used symbols are lower-case letters … -/
  letters : ∀ c ∈ s.symbols.toList.take (s.dimensions + 2), 'a' ≤ c ∧ c ≤ 'z'
  /-- … that differ from each other. -/
  distinct : (s.symbols.toList.take (s.dimensions + 2)).Nodup
  /-- A conformal axis squares to −1. -/
  negative_mem : s.negativeAxis ∈ s.symbols.toList.take 2
  /-- The type of the fields can be seen … -/
  visible_type : ∃ c ∈ s.scalarType.toList, isBlankChar c = false
  /-- … and so can the stem of the record names. -/
  visible_stem : ∃ c ∈ s.recordStem.toList, isBlankChar c = false

theorem isBlank_eq_false_iff {text : String} :
    isBlank text = false ↔ ∃ c ∈ text.toList, isBlankChar c = false := by
  rw [isBlank, List.all_eq_false]
  simp only [Bool.not_eq_true]

theorem isLower_iff {c : Char} : c.isLower ↔ 'a' ≤ c ∧ c ≤ 'z' := by
  simp only [Char.isLower, ge_iff_le, Bool.and_eq_true, decide_eq_true_eq]
  rfl

/-- The conformal axes are among the used ones, however few these are. -/
theorem conformalSymbols_eq (s : Settings) : s.conformalSymbols = s.symbols.toList.take 2 := by
  have hle : 2 ≤ s.axisCount := Nat.le_add_left 2 s.dimensions
  rw [conformalSymbols, usedSymbols, List.take_take, Nat.min_eq_left hle]

/-- **What the checks of the settings leave open** is only whether symbols repeat. -/
theorem valid_iff : s.Valid ↔ s.fault? = none ∧ s.usedSymbols.Nodup := by
  rw [fault?_eq_none_iff, conformalSymbols_eq, isBlank_eq_false_iff, isBlank_eq_false_iff,
    ← String.length_toList]
  simp only [isLower_iff]
  constructor
  · intro h
    exact ⟨⟨Nat.ne_of_gt h.pos_dimensions, h.le_length, h.letters, h.negative_mem, h.visible_type,
      h.visible_stem⟩, h.distinct⟩
  · rintro ⟨⟨hdimensions, hlength, hletters, hnegative, htype, hstem⟩, hdistinct⟩
    exact ⟨Nat.one_le_iff_ne_zero.mpr hdimensions, hlength, hletters, hdistinct, hnegative, htype,
      hstem⟩

instance : Decidable s.Valid :=
  decidable_of_iff (s.fault? = none ∧ s.usedSymbols.Nodup) valid_iff.symm

/-- **Valid settings have one metric, and others have none.** -/
theorem metric_eq_ok_iff {metric : Metric} : s.metric = .ok metric
    ↔ s.Valid ∧ metric.axes = Metric.conformalAxes s.usedSymbols s.negativeAxis := by
  rw [valid_iff]
  unfold Settings.metric
  cases hfault : s.fault? with
  | some fault => exact ⟨nofun, nofun⟩
  | none =>
    show Metric.conformal s.usedSymbols s.negativeAxis = .ok metric ↔ _
    obtain ⟨-, -, hlower, hnegative, -⟩ := fault?_eq_none_iff.mp hfault
    rw [Metric.conformal_eq_ok_iff]
    constructor
    · rintro ⟨haxes, -, hnodup, -⟩
      exact ⟨⟨rfl, hnodup⟩, haxes⟩
    · rintro ⟨⟨-, hnodup⟩, haxes⟩
      -- the two other conditions follow from the checks of the settings
      have hsize := Metric.length_le_of_isLower hnodup hlower
      have hmax : 26 ≤ Metric.maxSize := by decide
      exact ⟨haxes, hsize.trans hmax, hnodup, List.mem_of_mem_take hnegative⟩

theorem exists_metric_iff : (∃ metric, s.metric = .ok metric) ↔ s.Valid :=
  ⟨fun ⟨_, h⟩ => (metric_eq_ok_iff.mp h).1, fun h => ⟨⟨_⟩, metric_eq_ok_iff.mpr ⟨h, rfl⟩⟩⟩

/-! ## §3. Generators. -/

theorem ofSettings_of_metric {metric : Metric} (h : s.metric = .ok metric) :
    Generator.ofSettings s = .ok ⟨s, metric⟩ := by
  unfold Generator.ofSettings
  rw [h]
  rfl

theorem ofSettings_of_fault {fault : SettingsFault}
    (h : s.metric = .error (.invalidSettings fault)) :
    Generator.ofSettings s = .error (.invalidSettings fault) := by
  unfold Generator.ofSettings
  rw [h]
  rfl

/-- **The metric of accepted settings** has the used symbols in order, and exactly the
negative axis squares to −1. -/
theorem metric_promises {metric : Metric} (h : s.metric = .ok metric) :
    metric.symbols = s.symbols.toList.take (s.dimensions + 2) ∧ metric.size ≤ 26
      ∧ ∃ i < metric.size, metric.symbol i = s.negativeAxis
        ∧ ∀ j, metric.square j = if j = i then .negative else .positive := by
  have hg : (⟨s, metric⟩ : Generator).Spelled :=
    Generator.ofSettings_spelled (ofSettings_of_metric h)
  have hminus : (⟨s, metric⟩ : Generator).minus < s.axisCount :=
    hg.minus_lt.trans_le (Nat.le_add_left 2 s.dimensions)
  have hsymbols : metric.symbols = s.usedSymbols := by
    rw [Metric.symbols, (metric_eq_ok_iff.mp h).2, Metric.conformalAxes, List.map_map]
    exact List.map_id s.usedSymbols
  exact ⟨hsymbols, hg.size_le, _, hminus.trans_eq hg.size_eq.symm,
    (hg.symbol_eq_negativeAxis_iff hminus).mpr rfl, hg.square_eq_ite⟩

/-! ## §4. What is used. -/

section Used

variable {symbols : String}
  (hused : symbols.toList.take (s.dimensions + 2) = s.symbols.toList.take (s.dimensions + 2))
include hused

/-- Validity depends on the used symbols only. -/
theorem Valid.of_used (h : s.Valid) : Valid { s with symbols } := by
  have hlength : s.dimensions + 2 ≤ symbols.toList.length := by
    have hle := h.le_length
    have heq := congrArg List.length hused
    rw [List.length_take, List.length_take] at heq
    omega
  have hconformal : symbols.toList.take 2 = s.symbols.toList.take 2 := by
    have heq := congrArg (List.take 2) hused
    have hmin : min 2 (s.dimensions + 2) = 2 := by omega
    rwa [List.take_take, List.take_take, hmin] at heq
  exact
    { h with
      le_length := hlength
      letters := fun c hc => h.letters c (hused ▸ hc)
      distinct := hused ▸ h.distinct
      negative_mem := hconformal ▸ h.negative_mem }

theorem metric_of_used (h : s.Valid) : metric { s with symbols } = s.metric := by
  obtain ⟨metric, hmetric⟩ := exists_metric_iff.mpr h
  rw [hmetric, metric_eq_ok_iff]
  refine ⟨h.of_used hused, ?_⟩
  show metric.axes = Metric.conformalAxes (symbols.toList.take (s.dimensions + 2)) s.negativeAxis
  rw [hused]
  exact (metric_eq_ok_iff.mp hmetric).2

/-- **The module depends on the used symbols only**, and is written for all valid
settings. -/
theorem emit_of_used (h : s.Valid) :
    ∃ text, (do (← Generator.ofSettings s).emit) = .ok text
      ∧ (do (← Generator.ofSettings { s with symbols }).emit) = .ok text := by
  obtain ⟨metric, hmetric⟩ := exists_metric_iff.mpr h
  have hmetric' : Settings.metric { s with symbols } = .ok metric :=
    (metric_of_used hused h).trans hmetric
  have hmax : metric.size ≤ Metric.maxSize := (metric_promises hmetric).2.1.trans (by decide)
  rw [ofSettings_of_metric hmetric, ofSettings_of_metric hmetric']
  show ∃ text, Generator.emit ⟨s, metric⟩ = .ok text
    ∧ Generator.emit ⟨{ s with symbols }, metric⟩ = .ok text
  unfold Generator.emit
  rw [Metric.kernels_eq hmax]
  -- no line of the module is written from the alphabet of the settings
  exact ⟨_, rfl, rfl⟩

end Used

/-- **SETTINGS ARE ACCEPTED EXACTLY WHEN THEY ARE VALID**, and only what is used matters.
Other settings are answered with a fault.  The metric of valid settings has the used
symbols in order, 26 at most, and one negative axis, the chosen one; whatever the
alphabet has behind the used symbols, the metric and the module are the same. -/
theorem accepted_exactly_when_valid (s : Settings) :
    ((∃ metric, s.metric = .ok metric) ↔ s.Valid)
      ∧ ((∃ g, Generator.ofSettings s = .ok g) ↔ s.Valid)
      ∧ (¬ s.Valid → ∃ fault, s.metric = .error (.invalidSettings fault)
        ∧ Generator.ofSettings s = .error (.invalidSettings fault))
      ∧ (∀ metric, s.metric = .ok metric →
        metric.symbols = s.symbols.toList.take (s.dimensions + 2) ∧ metric.size ≤ 26
          ∧ ∃ i < metric.size, metric.symbol i = s.negativeAxis
            ∧ ∀ j, metric.square j = if j = i then .negative else .positive)
      ∧ (s.Valid → ∀ symbols : String,
        symbols.toList.take (s.dimensions + 2) = s.symbols.toList.take (s.dimensions + 2) →
        metric { s with symbols } = s.metric
          ∧ ∃ text, (do (← Generator.ofSettings s).emit) = .ok text
            ∧ (do (← Generator.ofSettings { s with symbols }).emit) = .ok text) := by
  refine ⟨exists_metric_iff, ⟨?_, ?_⟩, ?_, fun _ h => metric_promises h, ?_⟩
  · rintro ⟨g, hg⟩
    obtain ⟨rfl, hfault, -⟩ := Generator.ofSettings_eq_ok hg
    exact valid_iff.mpr ⟨hfault, (Generator.ofSettings_accepted hg).2.nodup_used⟩
  · intro h
    obtain ⟨metric, hmetric⟩ := exists_metric_iff.mpr h
    exact ⟨_, ofSettings_of_metric hmetric⟩
  · intro h
    rcases s.metric_answersOrFaults with hanswer | ⟨fault, hfault⟩
    · exact absurd (exists_metric_iff.mp hanswer) h
    · exact ⟨fault, hfault, ofSettings_of_fault hfault⟩
  · exact fun h symbols hused => ⟨metric_of_used hused h, emit_of_used hused h⟩

/-- An alphabet with more symbols than are used, of which some are no letters and one
repeats. -/
def tailed : Settings := { Settings.default with symbols := "mpxyzM m" }

/-- An alphabet that repeats a used symbol. -/
def repeating : Settings := { Settings.default with symbols := "mpxyy" }

/-- What stands behind the used symbols does not matter, and a repetition among them is a
fault. -/
theorem accepted_exactly_when_valid_tailed :
    ((∃ g, Generator.ofSettings tailed = .ok g) ∧ tailed.metric = Settings.default.metric
        ∧ ∃ text, (do (← Generator.ofSettings .default).emit) = .ok text
          ∧ (do (← Generator.ofSettings tailed).emit) = .ok text)
      ∧ ∃ fault, Generator.ofSettings repeating = .error (.invalidSettings fault) := by
  have htailed : tailed.Valid := by decide
  have hdefault : Settings.default.Valid := by decide
  have hrepeating : ¬ repeating.Valid := by decide
  obtain ⟨-, hgenerator, -⟩ := accepted_exactly_when_valid tailed
  obtain ⟨-, -, -, -, hused⟩ := accepted_exactly_when_valid Settings.default
  obtain ⟨-, -, hfault, -⟩ := accepted_exactly_when_valid repeating
  obtain ⟨fault, -, hrejected⟩ := hfault hrepeating
  obtain ⟨hmetric, hemit⟩ := hused hdefault "mpxyzM m" (by decide)
  exact ⟨⟨hgenerator.mpr htailed, hmetric, hemit⟩, fault, hrejected⟩

end Settings

end GeometricAlgebra
