/-
  GeometricAlgebra.Proofs.CommandReport
  ────────────────────────────────
  **WHAT THE COMMAND LINE REPORTS.**

  A run passes three checks: the file is text, the text holds settings, and the
  settings describe a generator.  Behind the last one nothing can fail any more,
  because every kernel of an accepted generator exists; so the module is either
  printed as a whole or not at all, and the error is that of the first check that
  failed (`Command.FirstFault`).  The log is cut down at the very end and decides
  nothing.

  Main result:
    * `Command.report_of_run` — exit code, output, error and log of every input at
      every level.
-/
import GeometricAlgebra.Command
import GeometricAlgebra.Proofs.FieldNames
import GeometricAlgebra.Proofs.KernelInventory

namespace GeometricAlgebra

/-! ## §1. The attempts of a metric. -/

namespace Metric

/-- The attempts of a small metric all answer, and their kernels are its inventory. -/
theorem attempts_eq_ok {metric : Metric} (hsize : metric.size ≤ maxSize) :
    ∃ attempts, metric.attempts = .ok attempts
      ∧ metric.kernels = .ok (attempts.filterMap Prod.snd) := by
  -- the inventory is read off the attempts, so it could not exist without them
  have hkernels := kernels_eq hsize
  unfold kernels at hkernels ⊢
  obtain ⟨attempts, hattempts, -⟩ := Outcome.bind_eq_ok_iff.mp hkernels
  refine ⟨attempts, hattempts, ?_⟩
  rw [hattempts]
  rfl

end Metric

namespace Command

/-! ## §2. Accepted and faulty inputs. -/

/-- The settings that an input holds: the defaults, or what the text of a file says. -/
inductive Input.Holds : Input → Settings → Prop where
  | default : Input.Holds .default Settings.default
  | file {path : String} {bytes : ByteArray} {text : String} {settings : Settings}
      (htext : String.fromUTF8? bytes = some text) (hsettings : Settings.ofJson text = .ok settings) :
      Input.Holds (.file path (some bytes)) settings

/-- **The first check that an input fails**, with its error. -/
inductive FirstFault : Input → Error → Prop where
  /-- The file is missing, or no text. -/
  | read {path : String} {content : Option ByteArray}
      (h : content.bind String.fromUTF8? = none) :
      FirstFault (.file path content) (.unreadable path)
  /-- The text holds no settings. -/
  | parse {path : String} {bytes : ByteArray} {text : String} {fault : Json.Fault}
      (htext : String.fromUTF8? bytes = some text) (h : Settings.ofJson text = .error fault) :
      FirstFault (.file path (some bytes)) (.unparsable path fault)
  /-- The settings describe no generator. -/
  | validate {input : Input} {settings : Settings} {failure : Failure}
      (hsettings : input.Holds settings) (h : Generator.ofSettings settings = .error failure) :
      FirstFault input (.invalid failure)

/-- An input holds settings, or it fails a check before there are any. -/
theorem load_cases (input : Input) :
    (∃ settings line, load input = .ok (settings, line) ∧ input.Holds settings)
      ∨ ∃ error, load input = .error error ∧ FirstFault input error := by
  cases input with
  | default => exact Or.inl ⟨_, _, rfl, .default⟩
  | file path content =>
    cases htext : content.bind String.fromUTF8? with
    | none => exact Or.inr ⟨_, by simp only [load, htext], .read htext⟩
    | some text =>
      obtain ⟨bytes, rfl, hbytes⟩ := Option.bind_eq_some_iff.mp htext
      cases hsettings : Settings.ofJson text with
      | error fault =>
        exact Or.inr ⟨_, by simp only [load, htext, hsettings], .parse hbytes hsettings⟩
      | ok settings =>
        refine Or.inl ⟨settings, note s!"Configuration loaded from '{path}'.", ?_,
          .file hbytes hsettings⟩
        simp only [load, htext, hsettings]

/-- An input holds one set of settings at most. -/
theorem Input.Holds.unique {input : Input} {s t : Settings} (hs : input.Holds s)
    (ht : input.Holds t) : s = t := by
  cases hs with
  | default =>
    cases ht
    rfl
  | file htext hsettings =>
    cases ht with
    | file htext' hsettings' =>
      rw [htext] at htext'
      cases htext'
      rw [hsettings] at hsettings'
      exact Except.ok.inj hsettings'

/-- **Accepted inputs fail no check.** -/
theorem FirstFault.not_accepted {input : Input} {error : Error} (h : FirstFault input error)
    {s : Settings} {g : Generator} (hs : input.Holds s) : Generator.ofSettings s ≠ .ok g := by
  intro hg
  -- each fault denies the check that acceptance passed
  cases h with
  | read h =>
    cases hs with
    | file htext _ =>
      rw [Option.bind_some, htext] at h
      cases h
  | parse htext h =>
    cases hs with
    | file htext' hsettings =>
      rw [htext] at htext'
      cases htext'
      rw [h] at hsettings
      cases hsettings
  | validate hsettings h =>
    rw [hsettings.unique hs, hg] at h
    cases h

/-! ## §3. Reports. -/

/-- **The report on settings without a generator.** -/
theorem generate_of_error {settings : Settings} {failure : Failure} (log : List LogLine)
    (h : Generator.ofSettings settings = .error failure) :
    generate settings log = ⟨"", log, some (.invalid failure)⟩ := by
  unfold generate
  rw [h]

/-- **The report on accepted settings**: the whole module, whatever was logged. -/
theorem generate_of_ok {settings : Settings} {g : Generator} (log : List LogLine)
    (h : Generator.ofSettings settings = .ok g) :
    g.emit = .ok (generate settings log).output ∧ (generate settings log).error = none := by
  obtain ⟨-, hg⟩ := Generator.ofSettings_accepted h
  obtain ⟨attempts, hattempts, hkernels⟩ :=
    Metric.attempts_eq_ok (hg.size_eq.trans_le hg.axisCount_le)
  -- both go through the same attempts; the report logs them and the module does not
  unfold generate Generator.emit
  rw [h, hkernels]
  simp only [hattempts]
  exact ⟨rfl, trivial⟩

/-- Every run prints the module of an accepted input, or nothing and the error of the
first check that failed. -/
theorem run_cases (input : Input) :
    (∃ s g, input.Holds s ∧ Generator.ofSettings s = .ok g
        ∧ g.emit = .ok (run input).output ∧ (run input).error = none)
      ∨ ∃ error, FirstFault input error ∧ (run input).output = "" ∧ (run input).error = some error
    := by
  unfold run
  rcases load_cases input with ⟨s, line, hload, hs⟩ | ⟨error, hload, herror⟩
  · rw [hload]
    cases hg : Generator.ofSettings s with
    | error failure =>
      refine Or.inr ⟨.invalid failure, .validate hs hg, ?_⟩
      show (generate s [line]).output = "" ∧ (generate s [line]).error = _
      rw [generate_of_error [line] hg]
      exact ⟨rfl, rfl⟩
    | ok g => exact Or.inl ⟨s, g, hs, hg, generate_of_ok [line] hg⟩
  · rw [hload]
    exact Or.inr ⟨error, herror, rfl, rfl⟩

section Run

variable {input : Input} {s : Settings} {g : Generator} {error : Error}

/-- **An accepted input prints the module of its generator**, without an error. -/
theorem run_of_accepted (hs : input.Holds s) (hg : Generator.ofSettings s = .ok g) :
    g.emit = .ok (run input).output ∧ (run input).error = none := by
  rcases run_cases input with ⟨s', g', hs', hg', hemit, hnone⟩ | ⟨error, hfault, -, -⟩
  · rw [hs'.unique hs, hg] at hg'
    obtain rfl := Except.ok.inj hg'
    exact ⟨hemit, hnone⟩
  · exact absurd hg (hfault.not_accepted hs)

/-- **A run with an error prints nothing**, and the error is the first fault. -/
theorem run_of_error (h : (run input).error = some error) :
    FirstFault input error ∧ (run input).output = "" := by
  rcases run_cases input with ⟨s, g, -, -, -, hnone⟩ | ⟨error', hfault, houtput, herror⟩
  · rw [hnone] at h
    cases h
  · rw [herror] at h
    obtain rfl := Option.some.inj h
    exact ⟨hfault, houtput⟩

/-- Runs without an error are those of accepted inputs. -/
theorem run_error_eq_none_iff :
    (run input).error = none ↔ ∃ s g, input.Holds s ∧ Generator.ofSettings s = .ok g := by
  constructor
  · intro h
    rcases run_cases input with ⟨s, g, hs, hg, -, -⟩ | ⟨error, -, -, herror⟩
    · exact ⟨s, g, hs, hg⟩
    · rw [h] at herror
      cases herror
  · intro h
    obtain ⟨s, g, hs, hg⟩ := h
    exact (run_of_accepted hs hg).2

end Run

/-- The number of basis blades of a generator is far from overflowing. -/
theorem bladeCount_lt {s : Settings} {g : Generator} (hg : Generator.ofSettings s = .ok g) :
    g.metric.size ≤ 26 ∧ Nat.pow 2 g.metric.size < Word.bound := by
  -- the axes are lowercase letters, and no two of them are the same
  have hsize : g.metric.size ≤ 26 := (Generator.ofSettings_spelled hg).size_le
  have hbound : Nat.pow 2 26 < Word.bound := by decide
  exact ⟨hsize, (Nat.pow_le_pow_right Nat.two_pos hsize).trans_lt hbound⟩

theorem exitCode_eq_zero_iff {report : Report} : report.exitCode = 0 ↔ report.error = none := by
  unfold Report.exitCode
  cases report.error <;> simp

/-- A less talkative level keeps some of the lines that a more talkative one keeps. -/
theorem log_atLevel (report : Report) {level level' : Level} (h : level.rank ≤ level'.rank) :
    (report.atLevel level).log
      = (report.atLevel level').log.filter (fun line => line.level.rank ≤ level.rank) := by
  unfold Report.atLevel
  rw [List.filter_filter]
  refine List.filter_congr fun line _ => ?_
  by_cases hline : line.level.rank ≤ level.rank
  · simp [hline, hline.trans h]
  · simp [hline]

/-! ## §4. The command line. -/

/-- **THE COMMAND LINE SUCCEEDS EXACTLY ON VALID SETTINGS, AND PRINTS ALL OR
NOTHING**, for every input and every wanted level of the log.

The exit code is 0 iff the input holds settings that a generator accepts; then the
output is the module of that generator, there is no error, and the number of basis
blades that is logged, `2ⁿ` for at most 26 axes, is that of all grades and far from
overflowing a word.  Otherwise the exit code is 1, nothing is printed, and the error
is that of the first check that failed; the generation itself never fails.  The level
changes the log and nothing else, and a less talkative one keeps the sublist of the
lines that it wants. -/
theorem report_of_run (input : Input) (level : Level) :
    (((run input).atLevel level).exitCode = 0
        ↔ ∃ s g, input.Holds s ∧ Generator.ofSettings s = .ok g)
      ∧ (∀ s g, input.Holds s → Generator.ofSettings s = .ok g →
        g.emit = .ok ((run input).atLevel level).output
          ∧ ((run input).atLevel level).error = none
          ∧ g.metric.size ≤ 26 ∧ Nat.pow 2 g.metric.size < Word.bound
          ∧ Nat.pow 2 g.metric.size
            = (g.grades.map fun grade => (g.metric.basis grade).length).sum)
      ∧ (((run input).atLevel level).exitCode ≠ 0 →
        ((run input).atLevel level).exitCode = 1
          ∧ ((run input).atLevel level).output = ""
          ∧ ∃ error, FirstFault input error ∧ ((run input).atLevel level).error = some error)
      ∧ (∀ failure, ((run input).atLevel level).error ≠ some (.emission failure))
      ∧ ∀ level' : Level,
        ((run input).atLevel level').exitCode = ((run input).atLevel level).exitCode
          ∧ ((run input).atLevel level').output = ((run input).atLevel level).output
          ∧ ((run input).atLevel level').error = ((run input).atLevel level).error
          ∧ (level.rank ≤ level'.rank →
            ((run input).atLevel level).log.Sublist ((run input).atLevel level').log
              ∧ ((run input).atLevel level).log
                = ((run input).atLevel level').log.filter
                    (fun line => line.level.rank ≤ level.rank)) := by
  have hzero : ((run input).atLevel level).exitCode = 0 ↔ (run input).error = none :=
    exitCode_eq_zero_iff
  refine ⟨?_, ?_, ?_, ?_, ?_⟩
  · -- the exit code
    rw [hzero]
    exact run_error_eq_none_iff
  · -- success
    intro s g hs hg
    obtain ⟨hemit, hnone⟩ := run_of_accepted hs hg
    obtain ⟨hsize, hbound⟩ := bladeCount_lt hg
    exact ⟨hemit, hnone, hsize, hbound, g.metric.sum_length_basis.symm⟩
  · -- failure
    intro hexit
    rw [Ne, hzero] at hexit
    obtain ⟨error, herror⟩ := Option.ne_none_iff_exists'.mp hexit
    obtain ⟨hfault, houtput⟩ := run_of_error herror
    refine ⟨?_, houtput, error, hfault, herror⟩
    show (if (run input).error.isSome then 1 else 0) = 1
    rw [herror]
    rfl
  · -- the generation never fails, since no check has its error
    intro failure h
    obtain ⟨hfault, -⟩ := run_of_error h
    cases hfault
  · -- the log
    intro level'
    refine ⟨rfl, rfl, rfl, fun hle => ?_⟩
    have hlog := log_atLevel (run input) hle
    refine ⟨?_, hlog⟩
    rw [hlog]
    exact List.filter_sublist

end Command

end GeometricAlgebra
