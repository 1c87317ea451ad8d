/-
  GeometricAlgebra.Proofs.JsonGrammar
  ────────────────────────────────
  **THE GRAMMAR OF JSON, AND THE TOKENS OF WHAT IT DERIVES.**

  A document is a tree of values (`Value`), written down by the rules of the
  grammar (`Written`): white space stands between any two tokens, a character of a
  text is itself, a short escape, four hexadecimal digits or a pair of surrogates,
  and the members of an object come in any order and under any names.  Nothing
  here knows how a document is scanned.

  The tokens of a tree are then a matter of the tree alone (`Value.tokens`), and
  the scanner finds them in whatever way the tree is written.  The proof goes along
  the derivation.  What a piece of a number or of a text does to the scanner is
  stated for any continuation (`Scanner.Reaches`), so that the pieces compose; the
  end of a number is the one place where the continuation matters
  (`Scanner.Scans`), and what the grammar puts behind a value always ends it.

  Main result:
    * `Written.scans`, `Written.tokens_eq` — whatever the grammar derives is scanned
      as the tokens of what is written.
-/
import GeometricAlgebra.Proofs.TokenStream

namespace GeometricAlgebra.Json

/-! ## §1. Values. -/

/-- A value of JSON.  A number is kept as it is spelled, since only its reader knows
which range it needs; the members of an object are kept in the order of writing,
with all repetitions. -/
inductive Value where
  | text (content : String)
  | number (spelling : List Char)
  | bool (value : Bool)
  | null
  | array (items : List Value)
  | object (members : List (String × Value))

namespace Value

theorem sizeOf_snd_lt {members : List (String × Value)} {m : String × Value}
    (hm : m ∈ members) : sizeOf m.2 < 1 + sizeOf members := by
  have hlt := List.sizeOf_lt_of_mem hm
  have hpair : sizeOf m = 1 + sizeOf m.1 + sizeOf m.2 := rfl
  omega

/-- The tokens of a value. -/
def tokens : Value → List Token
  | .text content => [.text (some content)]
  | .number spelling => [.number (Number.ofLexeme spelling)]
  | .bool value => [.bool value]
  | .null => [.null]
  | .array items =>
      .openArray :: ([Token.comma].intercalate (items.map tokens) ++ [.closeArray])
  | .object members =>
      .openObject :: ([Token.comma].intercalate
        (members.map fun m => .text (some m.1) :: .colon :: m.2.tokens) ++ [.closeObject])
decreasing_by
  · have hlt := List.sizeOf_lt_of_mem ‹_ ∈ items›
    simp only [Value.array.sizeOf_spec]
    omega
  · exact Value.object.sizeOf_spec members ▸ sizeOf_snd_lt ‹_ ∈ members›

/-- Induction on a value: what holds of the items of an array and of the values of the
members of an object holds of the whole. -/
@[elab_as_elim]
theorem induction {P : Value → Prop} (text : ∀ content, P (.text content))
    (number : ∀ spelling, P (.number spelling)) (bool : ∀ value, P (.bool value))
    (null : P .null) (array : ∀ items, (∀ v ∈ items, P v) → P (.array items))
    (object : ∀ members, (∀ m ∈ members, P m.2) → P (.object members)) : ∀ v, P v
  | .text content => text content
  | .number spelling => number spelling
  | .bool value => bool value
  | .null => null
  | .array items => array items fun v _ => induction text number bool null array object v
  | .object members =>
      object members fun m _ => induction text number bool null array object m.2
decreasing_by
  · have hlt := List.sizeOf_lt_of_mem ‹_ ∈ items›
    simp only [Value.array.sizeOf_spec]
    omega
  · exact Value.object.sizeOf_spec members ▸ sizeOf_snd_lt ‹_ ∈ members›

end Value

/-! ## §2. The spelling of numbers. -/

/-- One digit or more. -/
def IsDigits (digits : List Char) : Prop := digits ≠ [] ∧ ∀ c ∈ digits, c.isDigit = true

/-- The part of a number in front of the decimal point.  Only zero starts with a zero. -/
def IsWhole (digits : List Char) : Prop :=
  IsDigits digits ∧ (digits.head? = some '0' → digits = ['0'])

/-- The decimal point and the digits behind it, or nothing. -/
inductive IsFraction : List Char → Prop where
  | none : IsFraction []
  | digits {digits : List Char} (h : IsDigits digits) : IsFraction ('.' :: digits)

/-- The exponent, with or without a sign, or nothing. -/
inductive IsExponent : List Char → Prop where
  | none : IsExponent []
  | digits {mark : Char} {sign digits : List Char} (hmark : mark ∈ ['e', 'E'])
      (hsign : sign ∈ [[], ['+'], ['-']]) (h : IsDigits digits) :
      IsExponent (mark :: (sign ++ digits))

/-- The spelling of a number. -/
inductive IsNumber : List Char → Prop where
  | parts {sign whole fraction exponent : List Char} (hsign : sign ∈ [[], ['-']])
      (hwhole : IsWhole whole) (hfraction : IsFraction fraction)
      (hexponent : IsExponent exponent) : IsNumber (sign ++ whole ++ fraction ++ exponent)

/-! ## §3. The spelling of texts. -/

/-- The letters that a backslash turns into a character, with that character. -/
def shortEscapes : List (Char × Char) :=
  [('"', '"'), ('\\', '\\'), ('/', '/'), ('b', '\x08'), ('f', '\x0c'), ('n', '\n'),
    ('r', '\r'), ('t', '\t')]

/-- The hexadecimal digits with their values; letters of both cases are digits. -/
def hexDigits : List (Char × Nat) :=
  [('0', 0), ('1', 1), ('2', 2), ('3', 3), ('4', 4), ('5', 5), ('6', 6), ('7', 7),
    ('8', 8), ('9', 9), ('a', 10), ('b', 11), ('c', 12), ('d', 13), ('e', 14), ('f', 15),
    ('A', 10), ('B', 11), ('C', 12), ('D', 13), ('E', 14), ('F', 15)]

/-- A code unit is spelled by a backslash, a `u` and its four hexadecimal digits. -/
inductive UnitSpelled : Nat → List Char → Prop where
  | digits {a b c d : Char} {a' b' c' d' : Nat} (ha : (a, a') ∈ hexDigits)
      (hb : (b, b') ∈ hexDigits) (hc : (c, c') ∈ hexDigits) (hd : (d, d') ∈ hexDigits) :
      UnitSpelled (((a' * 16 + b') * 16 + c') * 16 + d') ['\\', 'u', a, b, c, d]

/-- The spellings of a character. -/
inductive CharSpelled : Char → List Char → Prop where
  /-- A character may stand for itself, if it is not a quotation mark, a backslash or
  a control character. -/
  | itself {c : Char} (hquote : c ≠ '"') (hbackslash : c ≠ '\\')
      (hcontrol : ¬ c.toNat < 0x20) : CharSpelled c [c]
  /-- Some characters have a short escape. -/
  | letter {c letter : Char} (h : (letter, c) ∈ shortEscapes) : CharSpelled c ['\\', letter]
  /-- A character of the first plane is a code unit. -/
  | unit {c : Char} {cs : List Char} (h : UnitSpelled c.toNat cs) : CharSpelled c cs
  /-- A character beyond the first plane is a pair of surrogates. -/
  | pair {c : Char} {high low : Nat} {cs ds : List Char} (hhigh : high < 0x400)
      (hlow : low < 0x400) (hc : c.toNat = 0x10000 + high * 0x400 + low)
      (hcs : UnitSpelled (0xD800 + high) cs) (hds : UnitSpelled (0xDC00 + low) ds) :
      CharSpelled c (cs ++ ds)

/-- The spellings of a text: those of its characters, in quotation marks. -/
inductive TextSpelled : String → List Char → Prop where
  | quoted {content : String} {spellings : List (List Char)}
      (h : List.Forall₂ CharSpelled content.toList spellings) :
      TextSpelled content ('"' :: (spellings.flatten ++ ['"']))

/-! ## §4. The grammar. -/

/-- White space. -/
def Gap (cs : List Char) : Prop := ∀ c ∈ cs, c ∈ [' ', '\t', '\n', '\r']

/-- A part of a document. -/
inductive Phrase where
  /-- A value. -/
  | value (v : Value)
  /-- A value with white space around it. -/
  | element (v : Value)
  /-- What is between the brackets of an array. -/
  | items (vs : List Value)
  /-- A member of an object, with white space around it. -/
  | member (m : String × Value)
  /-- What is between the brackets of an object. -/
  | members (ms : List (String × Value))

/-- The grammar: the ways to write a part of a document. -/
inductive Written : Phrase → List Char → Prop where
  | text {content : String} {cs : List Char} (h : TextSpelled content cs) :
      Written (.value (.text content)) cs
  | number {cs : List Char} (h : IsNumber cs) : Written (.value (.number cs)) cs
  | trueName : Written (.value (.bool true)) ['t', 'r', 'u', 'e']
  | falseName : Written (.value (.bool false)) ['f', 'a', 'l', 's', 'e']
  | nullName : Written (.value .null) ['n', 'u', 'l', 'l']
  | array {vs : List Value} {cs : List Char} (h : Written (.items vs) cs) :
      Written (.value (.array vs)) ('[' :: (cs ++ [']']))
  | object {ms : List (String × Value)} {cs : List Char} (h : Written (.members ms) cs) :
      Written (.value (.object ms)) ('\x7b' :: (cs ++ ['\x7d']))
  | element {v : Value} {before cs after : List Char} (hbefore : Gap before)
      (h : Written (.value v) cs) (hafter : Gap after) :
      Written (.element v) (before ++ cs ++ after)
  | noItems {cs : List Char} (h : Gap cs) : Written (.items []) cs
  | lastItem {v : Value} {cs : List Char} (h : Written (.element v) cs) :
      Written (.items [v]) cs
  | moreItems {v w : Value} {vs : List Value} {cs ds : List Char}
      (h : Written (.element v) cs) (hrest : Written (.items (w :: vs)) ds) :
      Written (.items (v :: w :: vs)) (cs ++ ',' :: ds)
  | member {name : String} {v : Value} {before cs after ds : List Char}
      (hbefore : Gap before) (hname : TextSpelled name cs) (hafter : Gap after)
      (h : Written (.element v) ds) :
      Written (.member (name, v)) (before ++ cs ++ after ++ ':' :: ds)
  | noMembers {cs : List Char} (h : Gap cs) : Written (.members []) cs
  | lastMember {m : String × Value} {cs : List Char} (h : Written (.member m) cs) :
      Written (.members [m]) cs
  | moreMembers {m n : String × Value} {ms : List (String × Value)} {cs ds : List Char}
      (h : Written (.member m) cs) (hrest : Written (.members (n :: ms)) ds) :
      Written (.members (m :: n :: ms)) (cs ++ ',' :: ds)

namespace Scanner

/-! ## §5. Scanning numbers. -/

/-- Characters that take the scanner from one state to another and complete nothing,
whatever follows them. -/
def Reaches (scanner : Scanner) (cs : List Char) (next : Scanner) : Prop :=
  ∀ rest, scanner.tokens (cs ++ rest) = next.tokens rest

theorem Reaches.nil (scanner : Scanner) : scanner.Reaches [] scanner := fun _ => rfl

theorem Reaches.append {scanner middle next : Scanner} {cs ds : List Char}
    (h : scanner.Reaches cs middle) (h' : middle.Reaches ds next) :
    scanner.Reaches (cs ++ ds) next := by
  intro rest
  rw [List.append_assoc, h, h']

theorem Reaches.cons {scanner middle next : Scanner} {c : Char} {cs : List Char}
    (h : scanner.step c = (middle, [])) (h' : middle.Reaches cs next) :
    scanner.Reaches (c :: cs) next := by
  intro rest
  rw [List.cons_append, tokens_skip h, h']

/-- Characters that are scanned as these tokens between two others, if nothing behind
them can continue a number. -/
def Scans (cs : List Char) (tokens : List Token) : Prop :=
  ∀ rest, Ends rest → between.tokens (cs ++ rest) = tokens ++ between.tokens rest

/-- A digit behind which a number goes on, whatever the digits are. -/
theorem reaches_digits {phase next : NumberPhase}
    (hphase : ∀ c : Char, c.isDigit = true → nextPhase phase c = some next)
    (hnext : ∀ c : Char, c.isDigit = true → nextPhase next c = some next)
    {digits : List Char} (h : IsDigits digits) (lexeme : List Char) :
    (number phase lexeme).Reaches digits (number next (digits.reverse ++ lexeme)) := by
  obtain ⟨hne, hdigits⟩ := h
  cases digits with
  | nil => exact absurd rfl hne
  | cons c digits =>
    have hfirst := hphase c (hdigits c List.mem_cons_self)
    have hstep : step (.number phase lexeme) c = (.number next (c :: lexeme), []) := by
      simp only [step, stepNumber, hfirst]
    have hothers : (number next (c :: lexeme)).Reaches digits
        (number next (digits.reverse ++ c :: lexeme)) :=
      tokens_digits hnext (c :: lexeme) fun c' hc' => hdigits c' (List.mem_cons_of_mem c hc')
    rw [List.reverse_cons, List.append_assoc]
    exact Reaches.cons hstep hothers

/-- The whole part of a number, behind its sign. -/
theorem reaches_whole {sign whole : List Char} (hsign : sign ∈ [[], ['-']])
    (h : IsWhole whole) : ∃ phase ∈ [NumberPhase.zero, .whole],
      between.Reaches (sign ++ whole) (number phase (sign ++ whole).reverse) := by
  obtain ⟨⟨hne, hdigits⟩, hleading⟩ := h
  cases whole with
  | nil => exact absurd rfl hne
  | cons c digits =>
    -- the sign only decides about the state in front of the first digit
    have hfirst : ∀ phase, step .between c = (.number phase [c], [])
        → step (.number .minus ['-']) c = (.number phase [c, '-'], [])
        → between.Reaches (sign ++ [c]) (number phase (sign ++ [c]).reverse) := by
      intro phase hplain hsigned
      rcases List.mem_pair.mp hsign with rfl | rfl
      · exact Reaches.cons hplain (Reaches.nil _)
      · exact Reaches.cons rfl (Reaches.cons hsigned (Reaches.nil _))
    by_cases hzero : c = '0'
    · obtain ⟨rfl, rfl⟩ := List.cons.inj (hleading (congrArg some hzero))
      exact ⟨.zero, by simp, hfirst .zero rfl rfl⟩
    · have hdigit := hdigits c List.mem_cons_self
      have hsigned : step (.number .minus ['-']) c = (.number .whole [c, '-'], []) := by
        simp [step, stepNumber, nextPhase, hzero, hdigit]
      have hothers : (number .whole (sign ++ [c]).reverse).Reaches digits
          (number .whole (digits.reverse ++ (sign ++ [c]).reverse)) :=
        tokens_digits (fun _ => nextPhase_whole) _ fun c' hc' =>
          hdigits c' (List.mem_cons_of_mem c hc')
      have hall := (hfirst .whole (step_digit hdigit hzero) hsigned).append hothers
      rw [← List.reverse_append, List.append_assoc, List.singleton_append] at hall
      exact ⟨.whole, by simp, hall⟩

/-- The fraction of a number. -/
theorem reaches_fraction {phase : NumberPhase} (hphase : phase ∈ [NumberPhase.zero, .whole])
    {fraction : List Char} (h : IsFraction fraction) (lexeme : List Char) :
    ∃ next ∈ [NumberPhase.zero, .whole, .fraction],
      (number phase lexeme).Reaches fraction (number next (fraction.reverse ++ lexeme)) := by
  cases h with
  | none => exact ⟨phase, List.mem_append_left [NumberPhase.fraction] hphase, Reaches.nil _⟩
  | @digits digits h =>
    have hpoint : step (.number phase lexeme) '.' = (.number .point ('.' :: lexeme), []) := by
      rcases List.mem_pair.mp hphase with rfl | rfl
      · rfl
      · rfl
    have hfirst : ∀ c : Char, c.isDigit = true → nextPhase .point c = some .fraction :=
      fun _ hc => if_pos hc
    have hloop : ∀ c : Char, c.isDigit = true → nextPhase .fraction c = some .fraction :=
      fun _ hc => if_pos hc
    have hdigits := reaches_digits hfirst hloop h ('.' :: lexeme)
    refine ⟨.fraction, by simp, ?_⟩
    rw [List.reverse_cons, List.append_assoc]
    exact Reaches.cons hpoint hdigits

/-- What is behind the mark of an exponent. -/
theorem reaches_exponentDigits {sign digits : List Char} (hsign : sign ∈ [[], ['+'], ['-']])
    (h : IsDigits digits) (lexeme : List Char) :
    (number .exponentMark lexeme).Reaches (sign ++ digits)
      (number .exponent ((sign ++ digits).reverse ++ lexeme)) := by
  -- a digit is no sign
  have hmark : ∀ c : Char, c.isDigit = true → nextPhase .exponentMark c = some .exponent := by
    intro c hc
    have hplus : c ≠ '+' := fun h => by cases h ▸ hc
    have hminus : c ≠ '-' := fun h => by cases h ▸ hc
    simp [nextPhase, hplus, hminus, hc]
  have hbehind : ∀ c : Char, c.isDigit = true → nextPhase .exponentSign c = some .exponent :=
    fun _ hc => if_pos hc
  have hloop : ∀ c : Char, c.isDigit = true → nextPhase .exponent c = some .exponent :=
    fun _ hc => if_pos hc
  have hsigned : ∀ c, (number .exponentSign (c :: lexeme)).Reaches digits
      (number .exponent ((c :: digits).reverse ++ lexeme)) := by
    intro c
    rw [List.reverse_cons, List.append_assoc]
    exact reaches_digits hbehind hloop h (c :: lexeme)
  simp only [List.mem_cons, List.not_mem_nil, or_false] at hsign
  rcases hsign with rfl | rfl | rfl
  · exact reaches_digits hmark hloop h lexeme
  · exact Reaches.cons rfl (hsigned '+')
  · exact Reaches.cons rfl (hsigned '-')

/-- The exponent of a number, behind which it is complete. -/
theorem reaches_exponent {phase : NumberPhase}
    (hphase : phase ∈ [NumberPhase.zero, .whole, .fraction]) {exponent : List Char}
    (h : IsExponent exponent) (lexeme : List Char) :
    ∃ next, isComplete next = true
      ∧ (number phase lexeme).Reaches exponent (number next (exponent.reverse ++ lexeme)) := by
  cases h with
  | none =>
    have hcomplete : ∀ phase ∈ [NumberPhase.zero, .whole, .fraction], isComplete phase = true := by
      decide
    exact ⟨phase, hcomplete phase hphase, Reaches.nil _⟩
  | @digits mark sign digits hmark hsign h =>
    have hstep : step (.number phase lexeme) mark
        = (.number .exponentMark (mark :: lexeme), []) := by
      simp only [List.mem_cons, List.not_mem_nil, or_false] at hphase hmark
      rcases hphase with rfl | rfl | rfl <;> rcases hmark with rfl | rfl <;> rfl
    refine ⟨.exponent, rfl, ?_⟩
    rw [List.reverse_cons, List.append_assoc]
    exact Reaches.cons hstep (reaches_exponentDigits hsign h (mark :: lexeme))

/-- **A number is one token**, which its spelling decides. -/
theorem scans_number {cs : List Char} (h : IsNumber cs) :
    Scans cs [.number (Number.ofLexeme cs)] := by
  intro rest hrest
  obtain @⟨sign, whole, fraction, exponent, hsign, hwhole, hfraction, hexponent⟩ := h
  obtain ⟨phase, hphase, hreach⟩ := reaches_whole hsign hwhole
  obtain ⟨phase', hphase', hreach'⟩ := reaches_fraction hphase hfraction (sign ++ whole).reverse
  obtain ⟨phase'', hcomplete, hreach''⟩ :=
    reaches_exponent hphase' hexponent (fraction.reverse ++ (sign ++ whole).reverse)
  rw [((hreach.append hreach').append hreach'') rest, tokens_endNumber _ hcomplete hrest]
  simp only [List.reverse_append, List.reverse_reverse, List.append_assoc, List.singleton_append]

/-! ## §6. Scanning texts. -/

theorem hexValue_of_mem : ∀ d ∈ hexDigits, hexValue d.1 = some d.2 := by decide

theorem escaped_of_mem : ∀ e ∈ shortEscapes, e.1 ≠ 'u' ∧ escaped e.1 = some e.2 := by decide

/-- A code unit is read from its four digits. -/
theorem reaches_unit {unit : Nat} {cs : List Char} (h : UnitSpelled unit cs)
    (units : List Nat) : (text units).Reaches cs (text (pushUnit units unit)) := by
  obtain ⟨ha, hb, hc, hd⟩ := h
  intro rest
  exact tokens_fourDigits units (hexValue_of_mem _ ha) (hexValue_of_mem _ hb)
    (hexValue_of_mem _ hc) (hexValue_of_mem _ hd) rest

/-- The second half of a surrogate pair joins the first half. -/
theorem pushUnit_pair (units : List Nat) {high low : Nat} (hhigh : high < 0x400)
    (hlow : low < 0x400) :
    pushUnit (pushUnit units (0xD800 + high)) (0xDC00 + low)
      = (0x10000 + high * 0x400 + low) :: units := by
  have hfirst : isLowSurrogate (0xD800 + high) = false := by
    unfold isLowSurrogate
    simp only [Bool.and_eq_false_iff, decide_eq_false_iff_not]
    omega
  have hboth : (isHighSurrogate (0xD800 + high) && isLowSurrogate (0xDC00 + low)) = true := by
    unfold isHighSurrogate isLowSurrogate
    simp only [Bool.and_eq_true, decide_eq_true_eq]
    omega
  rw [pushUnit_of_not_low units hfirst]
  show (if _ then _ else _) = _
  rw [if_pos hboth, Nat.add_sub_cancel_left, Nat.add_sub_cancel_left]

/-- **A character is read from each of its spellings.** -/
theorem reaches_char {c : Char} {cs : List Char} (h : CharSpelled c cs) (units : List Nat) :
    (text units).Reaches cs (text (c.toNat :: units)) := by
  cases h with
  | itself hquote hbackslash hcontrol => exact tokens_itself units hquote hbackslash hcontrol
  | letter h =>
    obtain ⟨hu, hescaped⟩ := escaped_of_mem _ h
    exact tokens_letter units hu hescaped
  | unit h => exact pushUnit_toNat units c ▸ reaches_unit h units
  | pair hhigh hlow hc hcs hds =>
    rw [hc, ← pushUnit_pair units hhigh hlow]
    exact (reaches_unit hcs units).append (reaches_unit hds _)

/-- The characters of a text join what has been read of it. -/
theorem reaches_chars {characters : List Char} {spellings : List (List Char)}
    (h : List.Forall₂ CharSpelled characters spellings) (units : List Nat) :
    (text units).Reaches spellings.flatten
      (text ((characters.map Char.toNat).reverse ++ units)) := by
  induction h generalizing units with
  | nil => exact Reaches.nil _
  | @cons c cs characters spellings hc hrest ih =>
    rw [List.map_cons, List.reverse_cons, List.append_assoc]
    exact (reaches_char hc units).append (ih (c.toNat :: units))

/-- **A text is one token, whichever way it is spelled.** -/
theorem tokens_text {content : String} {cs : List Char} (h : TextSpelled content cs)
    (rest : List Char) :
    between.tokens (cs ++ rest) = .text (some content) :: between.tokens rest := by
  obtain ⟨h⟩ := h
  rw [List.cons_append, tokens_skip rfl, List.append_assoc, reaches_chars h [] _,
    List.append_nil]
  exact tokens_endText content rest

theorem scans_text {content : String} {cs : List Char} (h : TextSpelled content cs) :
    Scans cs [.text (some content)] := fun rest _ => tokens_text h rest

/-! ## §7. Scanning structures. -/

theorem step_space {c : Char} (hc : c ∈ [' ', '\t', '\n', '\r']) :
    step .between c = (.between, []) ∧ EndsNumber c := by
  simp only [List.mem_cons, List.not_mem_nil, or_false] at hc
  rcases hc with rfl | rfl | rfl | rfl
  all_goals exact ⟨rfl, by decide⟩

/-- White space is skipped. -/
theorem reaches_gap {cs : List Char} (h : Gap cs) : between.Reaches cs between := by
  induction cs with
  | nil => exact Reaches.nil _
  | cons c cs ih =>
    exact Reaches.cons (step_space (h c List.mem_cons_self)).1
      (ih fun c' hc' => h c' (List.mem_cons_of_mem c hc'))

/-- It ends a number. -/
theorem ends_gap {cs rest : List Char} (h : Gap cs) (hrest : Ends rest) : Ends (cs ++ rest) := by
  cases cs with
  | nil => exact hrest
  | cons c cs => exact ends_cons (step_space (h c List.mem_cons_self)).2 (cs ++ rest)

theorem Scans.gaps {before cs after : List Char} {tokens : List Token} (hbefore : Gap before)
    (h : Scans cs tokens) (hafter : Gap after) : Scans (before ++ cs ++ after) tokens := by
  intro rest hrest
  rw [List.append_assoc, List.append_assoc, reaches_gap hbefore, h _ (ends_gap hafter hrest),
    reaches_gap hafter]

/-- Punctuation between two parts is one more token. -/
theorem Scans.punctuated {c : Char} {token : Token} (hc : EndsNumber c)
    (hstep : step .between c = (.between, [token])) {cs ds : List Char}
    {front back : List Token} (hcs : Scans cs front) (hds : Scans ds back) :
    Scans (cs ++ c :: ds) (front ++ token :: back) := by
  intro rest hrest
  rw [List.append_assoc, List.cons_append, hcs _ (ends_cons hc _), tokens_cons hstep,
    hds rest hrest, List.append_assoc]
  rfl

/-- Brackets are one token each. -/
theorem Scans.bracketed {c d : Char} {opening closing : Token} (hd : EndsNumber d)
    (hopen : step .between c = (.between, [opening]))
    (hclose : step .between d = (.between, [closing])) {cs : List Char} {tokens : List Token}
    (h : Scans cs tokens) : Scans (c :: (cs ++ [d])) (opening :: (tokens ++ [closing])) := by
  intro rest _
  have hshape : c :: (cs ++ [d]) ++ rest = c :: (cs ++ d :: rest) := by
    rw [List.cons_append, List.append_assoc, List.singleton_append]
  rw [hshape, tokens_cons hopen, h _ (ends_cons hd rest), tokens_cons hclose]
  simp only [List.nil_append, List.cons_append, List.append_assoc]

end Scanner

/-! ## §8. Scanning what is written. -/

/-- The tokens of a member of an object. -/
def Value.memberTokens (m : String × Value) : List Token :=
  .text (some m.1) :: .colon :: m.2.tokens

theorem Value.tokens_object (members : List (String × Value)) :
    (Value.object members).tokens
      = .openObject
        :: ([Token.comma].intercalate (members.map memberTokens) ++ [.closeObject]) := by
  rw [tokens]
  rfl

/-- The tokens of a part of a document. -/
def Phrase.tokens : Phrase → List Token
  | .value v | .element v => v.tokens
  | .items vs => [Token.comma].intercalate (vs.map Value.tokens)
  | .member m => Value.memberTokens m
  | .members ms => [Token.comma].intercalate (ms.map Value.memberTokens)

open Scanner in
/-- **WHAT THE GRAMMAR DERIVES IS SCANNED AS ITS TOKENS**, in front of whatever cannot
continue a number. -/
theorem Written.scans {phrase : Phrase} {cs : List Char} (h : Written phrase cs) :
    Scans cs phrase.tokens := by
  have hcomma : step .between ',' = (.between, [.comma]) := rfl
  have hends : EndsNumber ',' := by decide
  induction h with
  | text h =>
    rw [Phrase.tokens, Value.tokens]
    exact scans_text h
  | number h =>
    rw [Phrase.tokens, Value.tokens]
    exact scans_number h
  | trueName | falseName | nullName =>
    rw [Phrase.tokens, Value.tokens]
    exact fun _ _ => rfl
  | array h ih =>
    rw [Phrase.tokens, Value.tokens]
    exact ih.bracketed (by decide) rfl rfl
  | object h ih =>
    rw [Phrase.tokens, Value.tokens_object]
    exact ih.bracketed (by decide) rfl rfl
  | element hbefore h hafter ih => exact ih.gaps hbefore hafter
  | noItems h | noMembers h => exact fun rest _ => reaches_gap h rest
  | lastItem h ih | lastMember h ih =>
    rw [Phrase.tokens, List.map_singleton, List.intercalate_singleton]
    exact ih
  | moreItems h hmore ih ihmore | moreMembers h hmore ih ihmore =>
    rw [Phrase.tokens, List.map_cons, List.map_cons, List.intercalate_cons_cons,
      List.append_assoc]
    exact ih.punctuated hends hcomma ihmore
  | member hbefore hname hafter h ih =>
    exact ((scans_text hname).gaps hbefore hafter).punctuated (by decide) rfl ih

/-- **The tokens of a whole document** are those of its value. -/
theorem Written.tokens_eq {v : Value} {cs : List Char} (h : Written (.element v) cs) :
    Scanner.between.tokens cs = v.tokens := by
  have hscans := h.scans [] Scanner.ends_nil
  rwa [List.append_nil, show Scanner.between.tokens [] = [] from rfl, List.append_nil] at hscans

end GeometricAlgebra.Json
