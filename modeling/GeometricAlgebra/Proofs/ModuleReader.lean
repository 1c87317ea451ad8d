/-
  GeometricAlgebra.Proofs.ModuleReader
  ────────────────────────────────
  **READING A MODULE LINE BY LINE.**

  What a generated module says can be told from its text alone.  A line is cut
  into words and marks (`tokens`), a line of the few known shapes says one thing
  (`lineOf`), and a machine that knows inside which declaration it stands puts
  the lines together (`Reader`).  Blank lines, comments and the derived classes
  of a record mean nothing; any other line that does not belong where it stands
  makes the module unreadable.

  Main results:
    * `linesOf_textOfLines` — lines that are put into a text can be taken out.
    * `lineOf_eq_some` — a line says what it was written for, and nothing else.
    * `Leads.row`, `Leads.read_eq` — how the lines of a module take the reader through it.
-/
import GeometricAlgebra.Kernel.Generator
import Mathlib

namespace GeometricAlgebra.Source

/-! ## §1. Words and marks. -/

/-- A piece of a line. -/
inductive Token where
  /-- Characters that belong together. -/
  | word (text : String)
  /-- A punctuation mark or an operator sign. -/
  | mark (c : Char)
  deriving DecidableEq, Repr

/-- The characters that stand for themselves. -/
def marks : List Char :=
  ['\x7b', '\x7d', '(', ')', ':', ';', ',', '.', '&', '*', '+', '-', '=', '>']

/-- A character that ends a word. -/
def isBreak (c : Char) : Bool := c.isWhitespace || marks.contains c

/-- A text that is a single word. -/
def IsWord (text : String) : Prop := text ≠ "" ∧ ∀ c ∈ text.toList, isBreak c = false

instance (text : String) : Decidable (IsWord text) := inferInstanceAs (Decidable (_ ∧ _))

/-- A line read from its end: a word that may still grow to the left, and the
tokens behind it. -/
structure Cut where
  word : List Char
  tokens : List Token

namespace Cut

/-- The tokens once the word does not grow any more. -/
def close (cut : Cut) : List Token :=
  if cut.word = [] then cut.tokens else .word (String.ofList cut.word) :: cut.tokens

/-- One more character on the left. -/
def extend (c : Char) (cut : Cut) : Cut :=
  if c.isWhitespace then ⟨[], cut.close⟩
  else if marks.contains c then ⟨[], .mark c :: cut.close⟩
  else ⟨c :: cut.word, cut.tokens⟩

end Cut

/-- The words and marks of a line. -/
def tokens (line : String) : List Token := (line.toList.foldr Cut.extend ⟨[], []⟩).close

/-! ## §2. Lines. -/

/-- An accumulation `out.X += lhs.Y * rhs.Z`, or one with `-=`. -/
structure Step where
  sign : Sign
  out : String
  lhs : String
  rhs : String
  deriving DecidableEq, Repr

/-- What a line says. -/
inductive Line where
  /-- A record begins. -/
  | record (name : String)
  /-- A field, with its type. -/
  | field (name type : String)
  /-- A function begins; it takes two records and gives a third. -/
  | function (name lhs rhs out : String)
  /-- The result starts out with the default of its type. -/
  | start (type : String)
  /-- A step. -/
  | step (step : Step)
  /-- The result is given back. -/
  | answer
  /-- A declaration ends. -/
  | close
  deriving DecidableEq, Repr

/-- The sign that an operator sign applies. -/
def operator : Char → Option Sign
  | '+' => some .positive
  | '-' => some .negative
  | _ => none

/-- What the tokens of a line say. -/
def lineOf : List Token → Option Line
  | [.word "pub", .word "struct", .word name, .mark '\x7b'] => some (.record name)
  | [.word "pub", .word name, .mark ':', .word type, .mark ','] => some (.field name type)
  | [.word "pub", .word "fn", .word name, .mark '(',
      .word "lhs", .mark ':', .mark '&', .word lhs, .mark ',',
      .word "rhs", .mark ':', .mark '&', .word rhs, .mark ')',
      .mark '-', .mark '>', .word out, .mark '\x7b'] => some (.function name lhs rhs out)
  | [.word "let", .word "mut", .word "out", .mark '=', .word type, .mark ':', .mark ':',
      .word "default", .mark '(', .mark ')', .mark ';'] => some (.start type)
  | [.word "out", .mark '.', .word out, .mark op, .mark '=', .word "lhs", .mark '.', .word lhs,
      .mark '*', .word "rhs", .mark '.', .word rhs, .mark ';'] => do
    let sign ← operator op
    return .step ⟨sign, out, lhs, rhs⟩
  | [.word "out"] => some .answer
  | [.mark '\x7d'] => some .close
  | _ => none

/-- How a line is written. -/
def Line.tokens : Line → List Token
  | .record name => [.word "pub", .word "struct", .word name, .mark '\x7b']
  | .field name type => [.word "pub", .word name, .mark ':', .word type, .mark ',']
  | .function name lhs rhs out => [.word "pub", .word "fn", .word name, .mark '(',
      .word "lhs", .mark ':', .mark '&', .word lhs, .mark ',',
      .word "rhs", .mark ':', .mark '&', .word rhs, .mark ')',
      .mark '-', .mark '>', .word out, .mark '\x7b']
  | .start type => [.word "let", .word "mut", .word "out", .mark '=', .word type, .mark ':',
      .mark ':', .word "default", .mark '(', .mark ')', .mark ';']
  | .step ⟨sign, out, lhs, rhs⟩ => [.word "out", .mark '.', .word out,
      .mark (match sign with | .positive => '+' | .negative => '-'), .mark '=',
      .word "lhs", .mark '.', .word lhs, .mark '*', .word "rhs", .mark '.', .word rhs, .mark ';']
  | .answer => [.word "out"]
  | .close => [.mark '\x7d']

/-- A line that means nothing: an empty one, a comment or the derived classes
of a record. -/
def isRemark (line : String) : Bool :=
  line.toList.isEmpty || "//".toList.isPrefixOf line.toList
    || "#[derive(".toList.isPrefixOf line.toList

/-! ## §3. Modules. -/

/-- A field of a record. -/
structure Field where
  name : String
  type : String
  deriving DecidableEq, Repr

/-- A record. -/
structure Record where
  name : String
  fields : List Field
  deriving DecidableEq, Repr

/-- A function that adds products of fields up. -/
structure Function where
  name : String
  lhs : String
  rhs : String
  out : String
  steps : List Step
  deriving DecidableEq, Repr

/-- What a module declares. -/
structure Module where
  records : List Record
  functions : List Function
  deriving DecidableEq, Repr

/-- Where a line stands. -/
inductive Place where
  /-- Between two declarations. -/
  | outside
  /-- Among the fields of a record. -/
  | fields (record : Record)
  /-- Right behind the first line of a function. -/
  | header (function : Function)
  /-- Among the steps of a function. -/
  | steps (function : Function)
  /-- Behind the answer of a function. -/
  | answered (function : Function)
  deriving DecidableEq, Repr

/-- A reader of a module: what was declared before, and the place where it
stands. -/
structure Reader where
  declared : Module
  place : Place
  deriving DecidableEq, Repr

namespace Reader

/-- The reader behind a line that belongs to its place. -/
def enter (reader : Reader) (line : Line) : Option Reader :=
  match reader.place, line with
  | .outside, .record name => some { reader with place := .fields ⟨name, []⟩ }
  | .fields record, .field name type =>
      some { reader with
        place := .fields { record with fields := record.fields ++ [⟨name, type⟩] } }
  | .fields record, .close =>
      some ⟨{ reader.declared with records := reader.declared.records ++ [record] }, .outside⟩
  | .outside, .function name lhs rhs out =>
      some { reader with place := .header ⟨name, lhs, rhs, out, []⟩ }
  | .header function, .start type =>
      if type = function.out then some { reader with place := .steps function } else none
  | .steps function, .step step =>
      some { reader with
        place := .steps { function with steps := function.steps ++ [step] } }
  | .steps function, .answer => some { reader with place := .answered function }
  | .answered function, .close =>
      some ⟨{ reader.declared with functions := reader.declared.functions ++ [function] },
        .outside⟩
  | _, _ => none

/-- The reader behind a line of text. -/
def next (reader : Reader) (line : String) : Option Reader :=
  if isRemark line then some reader else (lineOf (tokens line)).bind reader.enter

/-- The reader behind lines of text. -/
def run (reader : Reader) (lines : List String) : Option Reader := lines.foldlM next reader

end Reader

/-- The lines of a text. -/
def linesOf (text : String) : List String :=
  (text.toList.splitOn '\n').map String.ofList

/-- What a text declares, if it is a module. -/
def Module.read (text : String) : Option Module :=
  match Reader.run ⟨⟨[], []⟩, .outside⟩ (linesOf text) with
  | some ⟨declared, .outside⟩ => some declared
  | _ => none

/-! ## §4. Closed modules. -/

/-- A field with this name is declared in the record with that name. -/
def Module.Declares (m : Module) (record field : String) : Prop :=
  ∃ r ∈ m.records, r.name = record ∧ field ∈ r.fields.map Field.name

/-- Nothing is declared twice, and everything that is named is declared. -/
structure Module.Closed (m : Module) : Prop where
  nodup_records : (m.records.map Record.name).Nodup
  nodup_fields : ∀ r ∈ m.records, (r.fields.map Field.name).Nodup
  nodup_functions : (m.functions.map Function.name).Nodup
  signatures : ∀ f ∈ m.functions, ∀ record ∈ [f.lhs, f.rhs, f.out],
    record ∈ m.records.map Record.name
  steps : ∀ f ∈ m.functions, ∀ step ∈ f.steps,
    m.Declares f.out step.out ∧ m.Declares f.lhs step.lhs ∧ m.Declares f.rhs step.rhs

/-! ## §5. Laws of reading. -/

/-- **Lines that are put into a text can be taken out again**; the last newline
leaves an empty line behind. -/
theorem linesOf_textOfLines {lines : List String} (h : ∀ line ∈ lines, '\n' ∉ line.toList) :
    linesOf (Generator.textOfLines lines) = lines ++ [""] := by
  unfold linesOf Generator.textOfLines
  induction lines with
  | nil => rfl
  | cons line lines ih =>
    obtain ⟨hline, hlines⟩ := List.forall_mem_cons.mp h
    have hbreak : ∀ c ∈ line.toList, (c == '\n') = false := by
      intro c hc
      rw [beq_eq_false_iff_ne]
      rintro rfl
      exact hline hc
    have htext : (String.join ((line :: lines).map (· ++ "\n"))).toList
        = line.toList ++ '\n' :: (String.join (lines.map (· ++ "\n"))).toList := by
      simp
    rw [htext, List.splitOn, List.splitOnP_append_cons_of_forall_mem hbreak '\n' rfl,
      List.map_cons, String.ofList_toList, List.cons_append]
    exact congrArg (line :: ·) (ih hlines)

/-- **Identifiers are words.** -/
theorem isWord_of_isAlphanum {text : String} (hne : text ≠ "")
    (h : ∀ c ∈ text.toList, c.isAlphanum ∨ c = '_') : IsWord text := by
  refine ⟨hne, fun c hc => ?_⟩
  rw [← Bool.not_eq_true, isBreak, Bool.or_eq_true]
  intro hbreak
  rcases hbreak with hblank | hmark
  · simp only [Char.isWhitespace, Bool.or_eq_true, decide_eq_true_eq] at hblank
    rcases hblank with ((rfl | rfl) | rfl) | rfl <;> simpa using h _ hc
  · have hmarks : ∀ c ∈ marks, ¬ (c.isAlphanum ∨ c = '_') := by simp [marks]
    exact hmarks c (List.contains_iff_mem.mp hmark) (h c hc)

namespace IsWord

variable {w v : String}

@[simp] theorem ne_empty (h : IsWord w) : w ≠ "" := h.1

@[simp] theorem newline_notMem (h : IsWord w) : '\n' ∉ w.toList := by
  intro hmem
  have hbreak := h.2 '\n' hmem
  cases hbreak

theorem append (hw : IsWord w) (hv : IsWord v) : IsWord (w ++ v) := by
  refine ⟨?_, ?_⟩
  · simpa [String.append_eq_empty_iff] using fun h => absurd h hw.1
  · intro c hc
    rw [String.toList_append, List.mem_append] at hc
    exact hc.elim (hw.2 c) (hv.2 c)

end IsWord

/-- **A word stays in one piece.** -/
@[simp] theorem Cut.foldr_word {w : String} (h : IsWord w) (behind : List Token) :
    w.toList.foldr extend ⟨[], behind⟩ = ⟨w.toList, behind⟩ := by
  obtain ⟨-, h⟩ := h
  generalize w.toList = cs at h
  induction cs with
  | nil => rfl
  | cons c cs ih =>
    obtain ⟨hc, hcs⟩ := List.forall_mem_cons.mp h
    rw [isBreak, Bool.or_eq_false_iff] at hc
    rw [List.foldr_cons, ih hcs, extend, hc.1, hc.2]
    rfl

/-- **A line says what it was written for, and nothing else.** -/
theorem lineOf_eq_some {ts : List Token} {line : Line} :
    lineOf ts = some line ↔ ts = line.tokens := by
  constructor
  · intro h
    unfold lineOf at h
    split at h
    case h_5 op _ _ =>
      -- a step, if the operator is one of the two
      unfold operator at h
      split at h <;> cases h <;> rfl
    case h_8 => cases h
    all_goals
      cases h
      rfl
  · rintro rfl
    cases line with
    | step step =>
      obtain ⟨sign, out, lhs, rhs⟩ := step
      cases sign <;> rw [Line.tokens, lineOf] <;> rfl
    | _ => rw [Line.tokens, lineOf]

example : lineOf (tokens "    out.mp -= lhs.p * rhs.m;")
    = some (.step ⟨.negative, "mp", "p", "m"⟩) := by
  decide

/-- A line of text that says this. -/
structure Says (text : String) (line : Line) : Prop where
  newline_notMem : '\n' ∉ text.toList
  isRemark_eq : isRemark text = false
  tokens_eq : tokens text = line.tokens

/-- A line of text that says nothing. -/
structure SaysNothing (text : String) : Prop where
  newline_notMem : '\n' ∉ text.toList
  isRemark_eq : isRemark text = true

theorem saysNothing_empty : SaysNothing "" := ⟨by simp, by simp [isRemark]⟩

/-- Lines of text that take a reader from one place to another. -/
structure Leads (reader : Reader) (lines : List String) (reader' : Reader) : Prop where
  newline_notMem : ∀ line ∈ lines, '\n' ∉ line.toList
  run_eq : reader.run lines = some reader'

namespace Leads

variable {reader reader₁ reader₂ : Reader} {text : String} {lines lines' : List String}

theorem nil : Leads reader [] reader := ⟨by simp, rfl⟩

/-- A line that says nothing leaves the reader where it is. -/
theorem skip (h : SaysNothing text) (hrest : Leads reader lines reader₂) :
    Leads reader (text :: lines) reader₂ := by
  refine ⟨List.forall_mem_cons.mpr ⟨h.newline_notMem, hrest.newline_notMem⟩, ?_⟩
  have hnext : reader.next text = some reader := if_pos h.isRemark_eq
  rw [Reader.run, List.foldlM_cons, hnext]
  exact hrest.run_eq

/-- A line that says something takes the reader to its next place. -/
theorem line {said : Line} (h : Says text said) (henter : reader.enter said = some reader₁)
    (hrest : Leads reader₁ lines reader₂) : Leads reader (text :: lines) reader₂ := by
  refine ⟨List.forall_mem_cons.mpr ⟨h.newline_notMem, hrest.newline_notMem⟩, ?_⟩
  have hnext : reader.next text = some reader₁ := by
    rw [Reader.next, h.isRemark_eq, lineOf_eq_some.mpr h.tokens_eq]
    exact henter
  rw [Reader.run, List.foldlM_cons, hnext]
  exact hrest.run_eq

theorem append (h : Leads reader lines reader₁) (hrest : Leads reader₁ lines' reader₂) :
    Leads reader (lines ++ lines') reader₂ := by
  refine ⟨List.forall_mem_append.mpr ⟨h.newline_notMem, hrest.newline_notMem⟩, ?_⟩
  have hrun := h.run_eq
  rw [Reader.run] at hrun
  rw [Reader.run, List.foldlM_append, hrun]
  exact hrest.run_eq

theorem remarks (h : ∀ text ∈ lines, SaysNothing text) : Leads reader lines reader := by
  induction lines with
  | nil => exact nil
  | cons text lines ih =>
    obtain ⟨htext, hlines⟩ := List.forall_mem_cons.mp h
    exact skip htext (ih hlines)

/-- **A row of items**: if the lines of one item take the reader one place further,
the lines of all items take it past all of them. -/
theorem row {α : Type} (place : List α → Reader) {f : α → List String} {items : List α}
    (h : ∀ before, ∀ x ∈ items, Leads (place before) (f x) (place (before ++ [x])))
    (before : List α) : Leads (place before) (items.flatMap f) (place (before ++ items)) := by
  induction items generalizing before with
  | nil =>
    rw [List.flatMap_nil, List.append_nil]
    exact nil
  | cons x items ih =>
    rw [List.flatMap_cons, List.append_cons]
    refine (h before x List.mem_cons_self).append (ih ?_ (before ++ [x]))
    exact fun before y hy => h before y (List.mem_cons_of_mem x hy)

/-- **Lines that lead past all declarations are those of a module.** -/
theorem read_eq {m : Module} (h : Leads ⟨⟨[], []⟩, .outside⟩ lines ⟨m, .outside⟩) :
    Module.read (Generator.textOfLines lines) = some m := by
  have hrun := (h.append (skip saysNothing_empty nil)).run_eq
  rw [Module.read, linesOf_textOfLines h.newline_notMem, hrun]

end Leads

end GeometricAlgebra.Source
