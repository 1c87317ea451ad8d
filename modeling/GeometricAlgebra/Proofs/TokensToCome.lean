/-
  GeometricAlgebra.Proofs.TokensToCome
  ────────────────────────────────
  **WHAT HAS BEGUN COMES TO A TOKEN.**

  Inside a token the scanner has promised one: whatever the characters to come are, the
  token turns out to be malformed, goes on, or is complete (`Scanner.Continues`).  So
  characters without a token are white space (`Scanner.isSpace_of_tokens_eq_nil`).

  A number is the one token that may end anywhere.  The number that has begun comes to a
  longer one (`Scanner.tokens_number`); and as a natural number is written with digits
  only, its beginning is a natural number as well, and no greater
  (`Scanner.ofLexeme_front`).
-/
import GeometricAlgebra.Proofs.TokenStream

namespace GeometricAlgebra.Json.Scanner

/-! ## §1. One character. -/

/-- Inside a token. -/
def Within : Scanner → Prop
  | .between | .stopped => False
  | _ => True

theorem eq_between_or_within {scanner : Scanner} (h : scanner ≠ .stopped) :
    scanner = .between ∨ scanner.Within := by
  cases scanner with
  | between => exact .inl rfl
  | stopped => exact absurd rfl h
  | _ => exact .inr trivial

/-- What becomes of a token: it turns out to be malformed, it goes on, or it is
complete. -/
inductive Continues (next : Scanner × List Token) : Prop where
  | failed (hscanner : next.1 = .stopped) (htokens : .malformed ∈ next.2)
  | within (hscanner : next.1.Within)
  | completed (hscanner : next.1 = .between) (htokens : next.2 ≠ [])

theorem continues_fail : Continues fail := .failed rfl List.mem_cons_self

/-- Without a malformed token the scanner has not stopped. -/
theorem Continues.ne_stopped {next : Scanner × List Token} (h : Continues next)
    (hmem : Token.malformed ∉ next.2) : next.1 ≠ .stopped := by
  intro hstopped
  cases h with
  | failed _ htokens => exact hmem htokens
  | within hscanner =>
    rw [hstopped] at hscanner
    exact hscanner
  | completed hscanner _ => cases hscanner.symm.trans hstopped

/-- Between two tokens a character is white space, or it belongs to a token. -/
theorem begin_cases (c : Char) :
    begin c = (.between, []) ∧ isSpace c = true ∨ Continues (begin c) := by
  unfold begin
  split
  -- punctuation is complete at once, and six characters begin longer tokens
  iterate 6 · exact .inr (.completed rfl (List.cons_ne_nil _ _))
  iterate 6 · exact .inr (.within trivial)
  · split_ifs with hspace hdigit
    · exact .inl ⟨rfl, hspace⟩
    · exact .inr (.within trivial)
    · exact .inr continues_fail

theorem stepNumber_continues (phase : NumberPhase) (lexeme : List Char) (c : Char) :
    Continues (stepNumber phase lexeme c) := by
  unfold stepNumber
  split
  · exact .within trivial
  · split
    · -- the number is complete, and the character is read anew
      rcases begin_cases c with ⟨hbegin, -⟩ | hfailed | hwithin | hcompleted
      · rw [hbegin]
        exact .completed rfl (List.cons_ne_nil _ _)
      · exact .failed ‹_› (List.mem_cons_of_mem _ ‹_›)
      · exact .within hwithin
      · exact .completed ‹_› (List.cons_ne_nil _ _)
    · exact continues_fail

/-- **A token goes on, or something is completed.** -/
theorem step_continues {scanner : Scanner} (h : scanner.Within) (c : Char) :
    Continues (scanner.step c) := by
  cases scanner with
  | between => exact h.elim
  | stopped => exact h.elim
  | number phase lexeme => exact stepNumber_continues phase lexeme c
  | text units =>
    show Continues (stepText units c)
    unfold stepText
    split_ifs
    · exact .completed rfl (List.cons_ne_nil _ _)
    · exact .within trivial
    · exact continues_fail
    · exact .within trivial
  | escape units =>
    show Continues (stepEscape units c)
    unfold stepEscape
    split
    · exact .within trivial
    · split
      · exact .within trivial
      · exact continues_fail
  | hex units missing value =>
    show Continues (stepHex units missing value c)
    unfold stepHex
    split
    · exact continues_fail
    · dsimp only
      split
      · exact .within trivial
      · exact .within trivial
  | name missing token =>
    show Continues (stepName missing token c)
    unfold stepName
    split
    · exact continues_fail
    · split
      · exact .completed rfl (List.cons_ne_nil _ _)
      · exact continues_fail
    · split
      · exact .within trivial
      · exact continues_fail

/-! ## §2. The characters to come. -/

/-- **What has begun comes to a token**, if only to a malformed one. -/
theorem tokens_ne_nil {scanner : Scanner} (h : scanner.Within) (characters : List Char) :
    scanner.tokens characters ≠ [] := by
  induction characters generalizing scanner with
  | nil =>
    show scanner.finish ≠ []
    cases scanner with
    | between => exact h.elim
    | stopped => exact h.elim
    | _ => exact List.cons_ne_nil _ _
  | cons c rest ih =>
    unfold tokens
    cases step_continues h c with
    | failed _ htokens => exact List.append_ne_nil_of_left_ne_nil (List.ne_nil_of_mem htokens) _
    | within hscanner => exact List.append_ne_nil_of_right_ne_nil _ (ih hscanner)
    | completed _ htokens => exact List.append_ne_nil_of_left_ne_nil htokens _

/-- **Only white space holds no token.** -/
theorem isSpace_of_tokens_eq_nil {characters : List Char} (h : between.tokens characters = []) :
    ∀ c ∈ characters, isSpace c = true := by
  induction characters with
  | nil => exact fun c hc => absurd hc List.not_mem_nil
  | cons c rest ih =>
    unfold tokens at h
    obtain ⟨hstep, hrest⟩ := List.append_eq_nil_iff.mp h
    rcases begin_cases c with ⟨hbegin, hspace⟩ | hcontinues
    · have hscanner : (between.step c).1 = .between := congrArg Prod.fst hbegin
      rw [hscanner] at hrest
      exact List.forall_mem_cons.mpr ⟨hspace, ih hrest⟩
    · cases hcontinues with
      | failed _ htokens => exact absurd hstep (List.ne_nil_of_mem htokens)
      | within hscanner => exact absurd hrest (tokens_ne_nil hscanner rest)
      | completed _ htokens => exact absurd hstep htokens

/-! ## §3. Numbers that have begun. -/

/-- A number that has begun comes to a longer number, or to a malformed token. -/
theorem tokens_number (phase : NumberPhase) (lexeme characters : List Char) : ∃ rest,
    (number phase lexeme).tokens characters = .malformed :: rest
      ∨ ∃ more, (number phase lexeme).tokens characters
          = .number (Number.ofLexeme (lexeme.reverse ++ more)) :: rest := by
  induction characters generalizing phase lexeme with
  | nil =>
    refine ⟨[], ?_⟩
    show [endNumber phase lexeme] = _ ∨ ∃ more, [endNumber phase lexeme] = _
    unfold endNumber
    split
    · exact .inr ⟨[], by rw [List.append_nil]⟩
    · exact .inl rfl
  | cons c characters ih =>
    cases hnext : nextPhase phase c with
    | some phase' =>
      -- the character belongs to the number
      have hstep : step (.number phase lexeme) c = (.number phase' (c :: lexeme), []) := by
        simp only [step, stepNumber, hnext]
      rw [tokens_skip hstep]
      obtain ⟨rest, hmalformed | ⟨more, hmore⟩⟩ := ih phase' (c :: lexeme)
      · exact ⟨rest, .inl hmalformed⟩
      · refine ⟨rest, .inr ⟨c :: more, ?_⟩⟩
        rw [hmore, List.reverse_cons, List.append_assoc, List.singleton_append]
    | none =>
      by_cases hend : (isComplete phase && !(phase == .zero && c.isDigit)) = true
      · -- the number ends in front of the character
        have hstep : step (.number phase lexeme) c
            = ((begin c).1, endNumber phase lexeme :: (begin c).2) := by
          simp only [step, stepNumber, hnext, hend, if_true]
        have hcomplete : isComplete phase = true := (Bool.and_eq_true_iff.mp hend).1
        have htoken : endNumber phase lexeme = .number (Number.ofLexeme lexeme.reverse) :=
          if_pos hcomplete
        rw [tokens_cons hstep, htoken]
        exact ⟨_, .inr ⟨[], by rw [List.append_nil, List.cons_append]⟩⟩
      · have hstep : step (.number phase lexeme) c = fail := by
          simp only [step, stepNumber, hnext, hend]
          rfl
        rw [tokens_cons hstep]
        exact ⟨_, .inl rfl⟩

theorem le_decimalValue_append (front back : List Char) :
    decimalValue front ≤ decimalValue (front ++ back) := by
  unfold decimalValue
  rw [List.foldl_append]
  generalize front.foldl (fun value c => value * 10 + digitValue c) 0 = value
  induction back generalizing value with
  | nil => exact Nat.le_refl value
  | cons c back ih =>
    have hstep : value ≤ value * 10 + digitValue c := by omega
    exact hstep.trans (ih _)

/-- A natural number is written with digits only. -/
theorem ofLexeme_eq_natural {lexeme : List Char} {n : Nat}
    (h : Number.ofLexeme lexeme = .natural n) :
    (∀ c ∈ lexeme, c.isDigit = true) ∧ decimalValue lexeme < Word.bound := by
  have hother : ∀ excessive : Bool,
      (if excessive = true then Number.excessive else .other) ≠ .natural n := by
    intro excessive
    cases excessive <;> simp
  unfold Number.ofLexeme at h
  cases hsign : lexeme.head? == some '-' with
  | true =>
    simp only [hsign, Bool.true_eq_false, false_and, and_false, if_false] at h
    exact absurd h (hother _)
  | false =>
    simp only [hsign, Bool.false_eq_true, if_false, true_and] at h
    by_cases hnatural : lexeme.dropWhile Char.isDigit = []
        ∧ decimalValue (lexeme.takeWhile Char.isDigit) < Word.bound
    · obtain ⟨hrest, hlt⟩ := hnatural
      have hdigits : ∀ c ∈ lexeme, c.isDigit = true := List.dropWhile_eq_nil_iff.mp hrest
      rw [List.takeWhile_eq_self_iff.mpr hdigits] at hlt
      exact ⟨hdigits, hlt⟩
    · rw [if_neg hnatural] at h
      exact absurd h (hother _)

/-- **The beginning of a natural number is one.** -/
theorem ofLexeme_front {front back : List Char} {n : Nat}
    (h : Number.ofLexeme (front ++ back) = .natural n) :
    ∃ m, Number.ofLexeme front = .natural m := by
  obtain ⟨hdigits, hlt⟩ := ofLexeme_eq_natural h
  have hfront : ∀ c ∈ front, c.isDigit = true := fun c hc => hdigits c (List.mem_append_left _ hc)
  exact ⟨_, ofLexeme_digits hfront ((le_decimalValue_append front back).trans_lt hlt)⟩

end GeometricAlgebra.Json.Scanner
