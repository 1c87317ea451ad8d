/-
  GeometricAlgebra.Proofs.EmittedModule
  ────────────────────────────────
  **THE GENERATED MODULE SAYS WHAT THE KERNELS SAY.**

  The text of a module is read back line by line.  Every name in it is a single
  word, so each line says what it was written for; the lines of a declaration
  take the reader through that declaration, and the declarations of the module
  follow one another.  What was read is compared with the kernels: names stand
  for basis blades, and a step read back is the step of the kernel.

  Main results:
    * `Generator.Plain.read_moduleText` — what is read is what was declared.
    * `Generator.Spelled.closed_declared` — names are declared, and once only.
    * `Generator.emitted_module` — the module of an accepted generator is closed
      and says exactly what the kernels say.
-/
import GeometricAlgebra.Proofs.FieldNames
import GeometricAlgebra.Proofs.KernelInventory
import GeometricAlgebra.Proofs.ModuleReader

namespace GeometricAlgebra

open Source

/-! ## §1. Names are words. -/

theorem isWord_repr (n : Nat) : IsWord (Nat.repr n) := by
  refine isWord_of_isAlphanum ?_ ?_
  · rw [Ne, ← String.toList_eq_nil_iff, Nat.toList_repr]
    exact Nat.toDigits_ne_nil
  · intro c hc
    rw [Nat.toList_repr] at hc
    have hdigit := Nat.isDigit_of_mem_toDigits (by decide) (by decide) hc
    exact Or.inl (by simp [Char.isAlphanum, hdigit])

theorem newline_notMem_repr (n : Nat) : '\n' ∉ Nat.toDigits 10 n :=
  Nat.toList_repr ▸ (isWord_repr n).newline_notMem

theorem Signature.isWord_name (s : Signature) : IsWord s.name := by
  have hstem : IsWord s.product.name := by
    cases s.product <;> simp [GradedProduct.name, IsWord, isBreak, marks]
  have hline : IsWord "_" := by simp [IsWord, isBreak, marks]
  exact (((hstem.append hline).append (isWord_repr s.lhs)).append hline).append (isWord_repr s.rhs)

theorem isWord_identifier {label : String} (hne : label ≠ "") (h : IsLowercase label) :
    IsWord (identifier label) := by
  have hlabel : IsWord label := by
    refine isWord_of_isAlphanum hne fun c hc => Or.inl ?_
    simp [Char.isAlphanum, Char.isAlpha, h c hc]
  unfold identifier
  split_ifs
  · exact hlabel.append (by simp [IsWord, isBreak, marks])
  · exact IsWord.append (by simp [IsWord, isBreak, marks]) hlabel
  · exact hlabel

namespace Generator

theorem Spelled.isWord_fieldName {g : Generator} (hg : g.Spelled) {grade : Nat} {blade : Blade}
    (h : IsBasisBlade g.metric.size grade blade) : IsWord (g.metric.fieldName blade) := by
  unfold Metric.fieldName
  split
  next => simp [IsWord, isBreak, marks]
  next hne =>
    refine isWord_identifier ?_ (hg.isLowercase_label h)
    simpa [Metric.label, ← String.toList_eq_nil_iff] using hne

/-- An accepted generator that writes single words into its module. -/
structure Plain (g : Generator) : Prop extends g.Spelled where
  isWord_stem : IsWord g.settings.recordStem
  isWord_type : IsWord g.settings.scalarType

/-! ## §2. What is declared. -/

/-- The field of a blade. -/
def fieldOf (g : Generator) (blade : Blade) : Field :=
  ⟨g.metric.fieldName blade, g.settings.scalarType⟩

/-- The record of a grade. -/
def recordOf (g : Generator) (grade : Nat) : Record :=
  ⟨g.recordName grade, (g.metric.basis grade).map g.fieldOf⟩

/-- A step of a kernel, written with field names. -/
def stepOf (g : Generator) (t : KernelTerm) : Step :=
  ⟨t.sign, g.metric.fieldName t.out, g.metric.fieldName t.lhs, g.metric.fieldName t.rhs⟩

/-- The function of a kernel. -/
def functionOf (g : Generator) (kernel : Kernel) : Function :=
  ⟨kernel.signature.name, g.recordName kernel.signature.lhs, g.recordName kernel.signature.rhs,
    g.recordName kernel.outGrade, kernel.terms.map g.stepOf⟩

/-- The declarations of the module with these kernels. -/
def declared (g : Generator) (kernels : List Kernel) : Module :=
  ⟨g.grades.map g.recordOf, kernels.map g.functionOf⟩

/-! ## §3. Lines. -/

variable {g : Generator} {grade : Nat} {K : Blade} {t : KernelTerm} {kernel : Kernel}
  {kernels : List Kernel} {m : Module}

theorem saysNothing_grade (grade : Nat) :
    SaysNothing ("/// Grade-" ++ Nat.repr grade ++ " blade coefficients.") := by
  refine ⟨?_, ?_⟩
  · simp [newline_notMem_repr]
  · simp [isRemark, List.isPrefixOf]

theorem saysNothing_derive : SaysNothing "#[derive(Debug, Default, Copy, Clone, PartialEq)]" :=
  ⟨by simp, by simp [isRemark, List.isPrefixOf]⟩

theorem saysNothing_product (s : Signature) : SaysNothing ("/// " ++ describe s.product
    ++ " of grade-" ++ Nat.repr s.lhs ++ " and grade-" ++ Nat.repr s.rhs ++ " blades.") := by
  refine ⟨?_, ?_⟩
  · cases s.product <;> simp [describe, newline_notMem_repr]
  · simp [isRemark, List.isPrefixOf]

theorem says_close : Says "\x7d" .close := by
  refine ⟨?_, ?_, ?_⟩
  · simp
  · simp [isRemark, List.isPrefixOf]
  · simp [tokens, Line.tokens, Cut.extend, Cut.close, marks]

theorem says_answer : Says "    out" .answer := by
  refine ⟨?_, ?_, ?_⟩
  · simp
  · simp [isRemark, List.isPrefixOf]
  · simp [tokens, Line.tokens, Cut.extend, Cut.close, marks]

namespace Plain

variable (hg : g.Plain)
include hg

theorem isWord_recordName (grade : Nat) : IsWord (g.recordName grade) :=
  hg.isWord_stem.append (isWord_repr grade)

theorem says_record (grade : Nat) :
    Says ("pub struct " ++ g.recordName grade ++ " \x7b") (.record (g.recordName grade)) := by
  have hname := hg.isWord_recordName grade
  refine ⟨?_, ?_, ?_⟩
  · simp [hname]
  · simp [isRemark, List.isPrefixOf]
  · simp [tokens, Line.tokens, Cut.extend, Cut.close, marks, hname]

theorem says_field (hK : IsBasisBlade g.metric.size grade K) :
    Says (g.fieldLine K) (.field (g.metric.fieldName K) g.settings.scalarType) := by
  have hname := hg.isWord_fieldName hK
  have htype := hg.isWord_type
  refine ⟨?_, ?_, ?_⟩
  · simp [fieldLine, hname, htype]
  · simp [isRemark, fieldLine, List.isPrefixOf]
  · simp [tokens, Line.tokens, fieldLine, Cut.extend, Cut.close, marks, hname, htype]

theorem says_function (s : Signature) (out : Nat) :
    Says ("pub fn " ++ s.name ++ "(lhs: &" ++ g.recordName s.lhs ++ ", rhs: &"
        ++ g.recordName s.rhs ++ ") -> " ++ g.recordName out ++ " \x7b")
      (.function s.name (g.recordName s.lhs) (g.recordName s.rhs) (g.recordName out)) := by
  have hname := s.isWord_name
  have hlhs := hg.isWord_recordName s.lhs
  have hrhs := hg.isWord_recordName s.rhs
  have hout := hg.isWord_recordName out
  refine ⟨?_, ?_, ?_⟩
  · simp [hname, hlhs, hrhs, hout]
  · simp [isRemark, List.isPrefixOf]
  · simp [tokens, Line.tokens, Cut.extend, Cut.close, marks, hname, hlhs, hrhs, hout]

theorem says_start (out : Nat) : Says ("    let mut out = " ++ g.recordName out ++ "::default();")
    (.start (g.recordName out)) := by
  have hout := hg.isWord_recordName out
  refine ⟨?_, ?_, ?_⟩
  · simp [hout]
  · simp [isRemark, List.isPrefixOf]
  · simp [tokens, Line.tokens, Cut.extend, Cut.close, marks, hout]

theorem says_step (hkernel : g.metric.IsGraded kernel) (ht : t ∈ kernel.terms) :
    Says (g.termLine t) (.step (g.stepOf t)) := by
  obtain ⟨hlhs, hrhs, hout⟩ := hkernel.terms t ht
  replace hlhs := hg.isWord_fieldName hlhs
  replace hrhs := hg.isWord_fieldName hrhs
  replace hout := hg.isWord_fieldName hout
  refine ⟨?_, ?_, ?_⟩
  · cases hsign : t.sign <;> simp [termLine, accumulation, hsign, hlhs, hrhs, hout]
  · simp [isRemark, termLine, List.isPrefixOf]
  · cases hsign : t.sign <;> simp [tokens, Line.tokens, stepOf, termLine, accumulation, hsign,
      Cut.extend, Cut.close, marks, hlhs, hrhs, hout]

theorem isLower_alphabet {c : Char} (hc : c ∈ g.metric.alphabet.toList) : c.isLower := by
  rw [Metric.alphabet, String.toList_ofList, Metric.symbols, hg.metric_axes,
    Metric.conformalAxes, List.map_map] at hc
  exact hg.isLower_used c (List.map_id g.settings.usedSymbols ▸ hc)

theorem saysNothing_head : ∀ line ∈ g.headLines, SaysNothing line := by
  -- neither the alphabet nor the negative axis breaks its line
  have halphabet : '\n' ∉ g.metric.alphabet.toList := by
    intro hmem
    cases hg.isLower_alphabet hmem
  have hnegative : g.settings.negativeAxis ≠ '\n' := by
    intro heq
    have hlower := hg.isLower_used _ (List.mem_of_mem_take hg.negative_mem)
    rw [heq] at hlower
    cases hlower
  intro line hline
  simp only [headLines, List.mem_cons, List.not_mem_nil, or_false] at hline
  rcases hline with rfl | rfl | rfl | rfl
  all_goals
    refine ⟨?_, ?_⟩
    · simp [newline_notMem_repr, halphabet, hnegative.symm]
    · simp [isRemark, List.isPrefixOf]

/-! ## §4. Declarations. -/

/-- The lines of a record take the reader through it. -/
theorem leads_record (grade : Nat) : Leads ⟨m, .outside⟩ ("" :: g.recordLines grade)
    ⟨{ m with records := m.records ++ [g.recordOf grade] }, .outside⟩ := by
  have hfields : Leads ⟨m, .fields ⟨g.recordName grade, []⟩⟩
      ((g.metric.basis grade).map g.fieldLine) ⟨m, .fields (g.recordOf grade)⟩ := by
    rw [List.map_eq_flatMap]
    refine Leads.row (fun Ks => ⟨m, .fields ⟨g.recordName grade, Ks.map g.fieldOf⟩⟩) ?_ []
    intro before K hK
    refine Leads.line (hg.says_field (Metric.mem_basis.mp hK)) rfl ?_
    rw [List.map_append]
    exact Leads.nil
  refine Leads.skip saysNothing_empty ?_
  refine Leads.skip (saysNothing_grade grade) ?_
  refine Leads.skip saysNothing_derive ?_
  refine Leads.line (hg.says_record grade) rfl ?_
  refine Leads.append hfields ?_
  exact Leads.line says_close rfl Leads.nil

/-- The lines of a function take the reader through it. -/
theorem leads_function (hkernel : g.metric.IsGraded kernel) :
    Leads ⟨m, .outside⟩ ("" :: g.kernelLines kernel)
      ⟨{ m with functions := m.functions ++ [g.functionOf kernel] }, .outside⟩ := by
  have hsteps : Leads ⟨m, .steps { g.functionOf kernel with steps := [] }⟩
      (kernel.terms.map g.termLine) ⟨m, .steps (g.functionOf kernel)⟩ := by
    rw [List.map_eq_flatMap]
    refine Leads.row
      (fun ts => ⟨m, .steps { g.functionOf kernel with steps := ts.map g.stepOf }⟩) ?_ []
    intro before t ht
    refine Leads.line (hg.says_step hkernel ht) rfl ?_
    rw [List.map_append]
    exact Leads.nil
  refine Leads.skip saysNothing_empty ?_
  refine Leads.skip (saysNothing_product kernel.signature) ?_
  refine Leads.line (hg.says_function kernel.signature kernel.outGrade) rfl ?_
  refine Leads.line (hg.says_start kernel.outGrade) (if_pos rfl) ?_
  refine Leads.append hsteps ?_
  refine Leads.line says_answer rfl ?_
  exact Leads.line says_close rfl Leads.nil

/-- **What is read is what was declared.** -/
theorem read_moduleText (hkernels : ∀ kernel ∈ kernels, g.metric.IsGraded kernel) :
    Module.read (g.moduleText kernels) = some (g.declared kernels) := by
  refine Leads.read_eq ?_
  have hrecords : Leads ⟨⟨[], []⟩, .outside⟩
      (g.grades.flatMap fun grade => "" :: g.recordLines grade)
      ⟨⟨g.grades.map g.recordOf, []⟩, .outside⟩ := by
    refine Leads.row (fun grades => ⟨⟨grades.map g.recordOf, []⟩, .outside⟩) ?_ []
    intro before grade _
    rw [List.map_append]
    exact hg.leads_record grade
  have hfunctions : Leads ⟨⟨g.grades.map g.recordOf, []⟩, .outside⟩
      (kernels.flatMap fun kernel => "" :: g.kernelLines kernel)
      ⟨g.declared kernels, .outside⟩ := by
    refine Leads.row
      (fun ks => ⟨⟨g.grades.map g.recordOf, ks.map g.functionOf⟩, .outside⟩) ?_ []
    intro before kernel hkernel
    rw [List.map_append]
    exact hg.leads_function (hkernels kernel hkernel)
  exact ((Leads.remarks hg.saysNothing_head).append hrecords).append hfunctions

end Plain

/-! ## §5. What the module says. -/

theorem recordName_injective {k l : Nat} (h : g.recordName k = g.recordName l) : k = l := by
  rw [recordName, recordName, ← String.toList_inj, String.toList_append, String.toList_append,
    List.append_cancel_left_eq, String.toList_inj] at h
  exact Nat.repr_inj.mp h

theorem fieldNames_recordOf (g : Generator) (grade : Nat) :
    (g.recordOf grade).fields.map Field.name = (g.metric.basis grade).map g.metric.fieldName := by
  rw [recordOf, List.map_map]
  rfl

/-- A step with its field names read back as blades. -/
def termOf? (g : Generator) (step : Step) : Option KernelTerm := do
  let out ← g.metric.bladeOf? step.out
  let lhs ← g.metric.bladeOf? step.lhs
  let rhs ← g.metric.bladeOf? step.rhs
  return ⟨step.sign, lhs, rhs, out⟩

/-- A record with one field for each basis blade of a grade. -/
structure DeclaresGrade (g : Generator) (grade : Nat) (r : Record) : Prop where
  name_eq : r.name = g.recordName grade
  mem_fields : ∀ field, field ∈ r.fields.map Field.name
    ↔ ∃ K, IsBasisBlade g.metric.size grade K ∧ g.metric.fieldName K = field
  type_eq : ∀ field ∈ r.fields, field.type = g.settings.scalarType

/-- A function with the name, the records and the steps of a kernel. -/
structure SaysKernel (g : Generator) (kernel : Kernel) (f : Function) : Prop where
  name_eq : f.name = kernel.signature.name
  lhs_eq : f.lhs = g.recordName kernel.signature.lhs
  rhs_eq : f.rhs = g.recordName kernel.signature.rhs
  out_eq : f.out = g.recordName kernel.outGrade
  steps_eq : f.steps.mapM g.termOf? = some kernel.terms

theorem declaresGrade (g : Generator) (grade : Nat) :
    g.DeclaresGrade grade (g.recordOf grade) := by
  refine ⟨rfl, ?_, ?_⟩
  · intro field
    rw [fieldNames_recordOf, List.mem_map]
    simp only [Metric.mem_basis]
  · intro field hfield
    obtain ⟨K, -, rfl⟩ := List.mem_map.mp hfield
    rfl

theorem recordOf_mem (hgrade : grade ≤ g.metric.size) :
    g.recordOf grade ∈ (g.declared kernels).records :=
  List.mem_map_of_mem (List.mem_range.mpr (Nat.lt_succ_of_le hgrade))

theorem mem_recordNames (hgrade : grade ≤ g.metric.size) :
    g.recordName grade ∈ (g.declared kernels).records.map Record.name :=
  List.mem_map.mpr ⟨g.recordOf grade, recordOf_mem hgrade, rfl⟩

/-- A basis blade has its field in the record of its grade. -/
theorem declares_fieldName (hgrade : grade ≤ g.metric.size)
    (hK : IsBasisBlade g.metric.size grade K) :
    (g.declared kernels).Declares (g.recordName grade) (g.metric.fieldName K) := by
  refine ⟨g.recordOf grade, recordOf_mem hgrade, rfl, ?_⟩
  exact ((g.declaresGrade grade).mem_fields _).mpr ⟨K, hK, rfl⟩

namespace Spelled

variable (hg : g.Spelled)
include hg

/-- **The declared module is closed.** -/
theorem closed_declared (hkernels : ∀ kernel ∈ kernels, g.metric.IsGraded kernel)
    (hnames : (kernels.map fun k => k.signature.name).Nodup) : (g.declared kernels).Closed where
  nodup_records := by
    rw [declared, List.map_map]
    exact List.nodup_range.map fun _ _ => recordName_injective
  nodup_fields := by
    intro r hr
    obtain ⟨grade, -, rfl⟩ := List.mem_map.mp hr
    rw [fieldNames_recordOf]
    refine List.Nodup.map_on ?_ (g.metric.basis_nodup grade)
    intro K hK L hL
    exact hg.fieldName_injective (Metric.mem_basis.mp hK) (Metric.mem_basis.mp hL)
  nodup_functions := by
    rw [declared, List.map_map]
    exact hnames
  signatures := by
    intro f hf record hrecord
    obtain ⟨kernel, hkernel, rfl⟩ := List.mem_map.mp hf
    have hgraded := hkernels kernel hkernel
    simp only [List.mem_cons, List.not_mem_nil, or_false] at hrecord
    rcases hrecord with rfl | rfl | rfl
    · exact mem_recordNames hgraded.lhs_le
    · exact mem_recordNames hgraded.rhs_le
    · exact mem_recordNames hgraded.out_le
  steps := by
    intro f hf step hstep
    obtain ⟨kernel, hkernel, rfl⟩ := List.mem_map.mp hf
    obtain ⟨t, ht, rfl⟩ := List.mem_map.mp hstep
    have hgraded := hkernels kernel hkernel
    obtain ⟨hlhs, hrhs, hout⟩ := hgraded.terms t ht
    exact ⟨declares_fieldName hgraded.out_le hout, declares_fieldName hgraded.lhs_le hlhs,
      declares_fieldName hgraded.rhs_le hrhs⟩

/-- **A step read back is the step of the kernel.** -/
theorem termOf?_stepOf (hkernel : g.metric.IsGraded kernel) (ht : t ∈ kernel.terms) :
    g.termOf? (g.stepOf t) = some t := by
  obtain ⟨hlhs, hrhs, hout⟩ := hkernel.terms t ht
  rw [termOf?, stepOf, hg.bladeOf?_eq_some.mpr ⟨⟨_, hlhs⟩, rfl⟩,
    hg.bladeOf?_eq_some.mpr ⟨⟨_, hrhs⟩, rfl⟩, hg.bladeOf?_eq_some.mpr ⟨⟨_, hout⟩, rfl⟩]
  rfl

theorem saysKernel (hkernel : g.metric.IsGraded kernel) :
    g.SaysKernel kernel (g.functionOf kernel) := by
  refine ⟨rfl, rfl, rfl, rfl, ?_⟩
  rw [functionOf]
  have hterms : ∀ t ∈ kernel.terms, g.termOf? (g.stepOf t) = some t :=
    fun t ht => hg.termOf?_stepOf hkernel ht
  generalize kernel.terms = terms at hterms
  induction terms with
  | nil => rfl
  | cons t terms ih =>
    obtain ⟨ht, hterms⟩ := List.forall_mem_cons.mp hterms
    rw [List.map_cons, List.mapM_cons, ht, ih hterms]
    rfl

end Spelled

/-- **The module of an accepted generator is closed and says what the kernels say.**
Different basis blades have different field names, none of them reserved.  The text of
the module can be read; it declares one record for each grade, with one field for each
basis blade, and one function for each kernel, whose steps read back are its steps. -/
theorem emitted_module {s : Settings} (h : ofSettings s = .ok g) (hstem : IsWord s.recordStem)
    (htype : IsWord s.scalarType) :
    (∀ k l K L, IsBasisBlade s.axisCount k K → IsBasisBlade s.axisCount l L →
      g.metric.fieldName K = g.metric.fieldName L → K = L)
    ∧ (∀ K, g.metric.fieldName K ∉ pathWords ++ reservedWords)
    ∧ ∃ text kernels m, g.emit = .ok text ∧ g.metric.kernels = .ok kernels
      ∧ Module.read text = some m ∧ m.Closed
      ∧ List.Forall₂ g.DeclaresGrade (List.range (s.axisCount + 1)) m.records
      ∧ List.Forall₂ g.SaysKernel kernels m.functions := by
  have hspelled := ofSettings_spelled h
  obtain ⟨rfl, -⟩ := ofSettings_accepted h
  have hg : g.Plain := ⟨hspelled, hstem, htype⟩
  have hsize := hg.size_eq
  have hkernels := Metric.kernels_eq (hsize.trans_le hg.axisCount_le)
  have hgraded : ∀ kernel ∈ g.metric.signatures.filterMap g.metric.listed?,
      g.metric.IsGraded kernel := by
    intro kernel hkernel
    obtain ⟨signature, hsignature, hlisted⟩ := List.mem_filterMap.mp hkernel
    exact Metric.isGraded_of_listed hsignature hlisted
  refine ⟨?_, fieldName_notMem_words g.metric, _, _, _, ?_, hkernels, hg.read_moduleText hgraded,
    hg.closed_declared hgraded g.metric.nodup_kernel_names, ?_, ?_⟩
  · intro k l K L hK hL
    rw [← hsize] at hK hL
    exact hg.fieldName_injective hK hL
  · rw [emit, hkernels]
    rfl
  · rw [declared, List.forall₂_map_right_iff, grades, maxGrade, hsize, List.forall₂_same]
    exact fun grade _ => g.declaresGrade grade
  · rw [declared, List.forall₂_map_right_iff, List.forall₂_same]
    exact fun kernel hkernel => hg.saysKernel (hgraded kernel hkernel)

/-- A generator with labels that are reserved. -/
def escaped : Generator :=
  ⟨{ Settings.default with symbols := "iself", negativeAxis := 'i' },
    ⟨[('i', .negative), ('s', .positive), ('e', .positive), ('l', .positive),
      ('f', .positive)]⟩⟩

/-- A module in which `if` and `self` are labels of blades. -/
theorem emitted_module_escaped : ofSettings escaped.settings = .ok escaped
    ∧ IsWord escaped.settings.recordStem ∧ IsWord escaped.settings.scalarType
    ∧ escaped.metric.fieldName [0, 4] = "r#if" ∧ escaped.metric.fieldName [1, 2, 3, 4] = "self_"
    ∧ ∃ text m, escaped.emit = .ok text ∧ Module.read text = some m ∧ m.Closed := by
  have hsettings : ofSettings escaped.settings = .ok escaped := by decide
  have hstem : IsWord escaped.settings.recordStem := by
    simp [escaped, Settings.default, IsWord, isBreak, marks]
  have htype : IsWord escaped.settings.scalarType := by
    simp [escaped, Settings.default, IsWord, isBreak, marks]
  obtain ⟨-, -, text, -, m, hemit, -, hread, hclosed, -⟩ := emitted_module hsettings hstem htype
  exact ⟨hsettings, hstem, htype, by decide, by decide, text, m, hemit, hread, hclosed⟩

end Generator

end GeometricAlgebra
