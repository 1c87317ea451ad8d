/-
  GeometricAlgebra.Proofs.CutDocuments
  ────────────────────────────────
  **A DOCUMENT THAT WAS CUT OFF IS NEVER TAKEN FOR A DOCUMENT.**

  Cut a document that is read in two, with more than white space behind the cut:

      text = front ++ back .

  Scanner and reader come to the cut in the same state in which they pass it when they
  read the whole, so the tokens of the front that are complete have been accepted.  What
  is left at the end of the front is one of three things:

    * nothing: then the reader still waits for a token, for else it would have refused
      the one that `back` begins or completes;
    * the beginning of a text or of a name: it is malformed when the document ends there,
      and a malformed token is nowhere taken for a value of the wrong kind
      (`Reader.step_malformed`);
    * the beginning of a number: it is malformed, or it is a number itself.  The reader
      accepts it since it accepts the whole number (`Reader.step_cut_number`), and then
      waits for the end of a bracket, for a number is never the whole document.

  Two invariants carry this over a run: the scanner has not stopped, and the reader is
  inside a bracket unless it is in front of the document or behind it
  (`Document.Sound`).

  Main result:
    * `Settings.cut_documents_malformed` — every proper front of a text that is read is
      malformed, unless the text ends in white space.
-/
import GeometricAlgebra.Proofs.TokensToCome
import GeometricAlgebra.Proofs.ValueReader

namespace GeometricAlgebra

open Json

/-- Numbers and malformed tokens: what the end of a document may complete. -/
def Json.Token.Atom : Token → Prop
  | .number _ | .malformed => True
  | _ => False

namespace Settings

/-! ## §1. Numbers and malformed tokens. -/

theorem exists_of_bind_eq_ok {α β : Type} {x : Except Fault α} {f : α → Except Fault β} {b : β}
    (h : x.bind f = .ok b) : ∃ a, x = .ok a ∧ f a = .ok b := by
  cases x with
  | error fault => cases h
  | ok a => exact ⟨a, rfl, h⟩

namespace Reader

/-- Runs over an accepted token go on behind it. -/
theorem run_cons_eq_ok {r final : Reader} {token : Token} {tokens : List Token}
    (h : r.run (token :: tokens) = .ok final) :
    ∃ next, r.step token = .ok next ∧ next.run tokens = .ok final := by
  unfold run at h
  rw [List.foldlM_cons] at h
  cases hstep : r.step token with
  | error fault =>
    rw [hstep] at h
    cases h
  | ok next =>
    rw [hstep] at h
    exact ⟨next, rfl, h⟩

/-- The next place of the innermost array, with the reader that has moved there. -/
def itemSlot (r : Reader) : Option (Reader × Place) :=
  match r.frames with
  | .listed (place :: upcoming) :: outer =>
      some ({ r with frames := .listed upcoming :: outer }, place)
  | .skipped :: _ => some (r, .ignored)
  | _ => none

/-- The place for which the next token would be read as a value, with the reader that has
moved there. -/
def slot (r : Reader) : Option (Reader × Place) :=
  match r.expected with
  | .value place => some (r, place)
  | .firstItem | .item => r.itemSlot
  | _ => none

/-- Read a token for a slot, if there is one. -/
def readSlot (token : Token) : Option (Reader × Place) → Except Fault Reader
  | some (r, place) => r.readValue place token
  | none => .error .malformed

theorem readItem_eq (r : Reader) (token : Token) : r.readItem token = readSlot token r.itemSlot := by
  obtain ⟨settings, named, frames, expected⟩ := r
  cases frames with
  | nil => rfl
  | cons frame outer =>
    cases frame with
    | listed upcoming => cases upcoming <;> rfl
    | _ => rfl

/-- **Numbers and malformed tokens only matter to the slot.**  They are no names, no
brackets and no punctuation. -/
theorem step_atom (r : Reader) {token : Token} (h : token.Atom) :
    r.step token = readSlot token r.slot := by
  have hname : ∀ r : Reader, r.readName token = .error .malformed := by
    intro r
    unfold readName
    split
    · exact h.elim
    · exact h.elim
    · rfl
  have hseparator : ∀ r : Reader, r.readSeparator token = .error .malformed := by
    intro r
    unfold readSeparator
    split
    iterate 6 · exact h.elim
    rfl
  have hne : ∀ other : Token, ¬ other.Atom → token ≠ other := by
    intro other hother heq
    exact hother (heq ▸ h)
  obtain ⟨settings, named, frames, expected⟩ := r
  cases expected with
  | value place => rfl
  | firstItem => exact (if_neg (hne .closeArray id)).trans (readItem_eq _ token)
  | item => exact readItem_eq _ token
  | firstMember => exact (if_neg (hne .closeObject id)).trans (hname _)
  | member => exact hname _
  | colon place => exact if_neg (hne .colon id)
  | separator => exact hseparator _
  | nothing => rfl

/-- **A malformed token is refused as malformed**, whatever is expected. -/
theorem step_malformed (r : Reader) : r.step .malformed = .error .malformed := by
  rw [step_atom r (show Token.malformed.Atom from trivial)]
  cases r.slot with
  | none => rfl
  | some s =>
    show s.1.readValue s.2 .malformed = _
    cases s.2 with
    | field field => cases field <;> rfl
    | _ => rfl

/-- A malformed token is never passed. -/
theorem malformed_notMem_of_run {r final : Reader} {tokens : List Token}
    (h : r.run tokens = .ok final) : Token.malformed ∉ tokens := by
  induction tokens generalizing r with
  | nil => exact List.not_mem_nil
  | cons token tokens ih =>
    obtain ⟨next, hstep, hrest⟩ := run_cons_eq_ok h
    intro hmem
    rcases List.mem_cons.mp hmem with rfl | hmem
    · rw [step_malformed] at hstep
      cases hstep
    · exact ih hrest hmem

/-! ## §2. Brackets. -/

/-- Inside a bracket, unless the reader is in front of the document or behind it. -/
def Framed (r : Reader) : Prop :=
  r.frames = [] → r.expected = .nothing ∨ r.expected = .value .document

theorem framed_start : start.Framed := fun _ => .inr rfl

theorem framed_of_frames {r : Reader} {frame : Frame} {outer : List Frame}
    (h : r.frames = frame :: outer) : r.Framed := by
  intro hempty
  rw [h] at hempty
  cases hempty

theorem afterValue_framed (r : Reader) : r.afterValue.Framed :=
  fun h => .inl (if_pos h)

theorem readValue_framed {r next : Reader} {place : Place} {token : Token}
    (h : r.readValue place token = .ok next) : next.Framed := by
  unfold readValue at h
  split at h
  · -- a setting is behind its token
    obtain ⟨settings, -, hnext⟩ := exists_of_bind_eq_ok h
    cases hnext
    exact afterValue_framed _
  · split at h
    all_goals cases h
    · exact framed_of_frames rfl
    · exact framed_of_frames rfl
    all_goals exact afterValue_framed _
  · split at h
    all_goals cases h
    · exact framed_of_frames rfl
    · exact framed_of_frames rfl

theorem readItem_framed {r next : Reader} {token : Token} (h : r.readItem token = .ok next) :
    next.Framed := by
  unfold readItem at h
  split at h
  · exact readValue_framed h
  · exact readValue_framed h
  · cases h

theorem readName_framed {r next : Reader} {token : Token} (h : r.readName token = .ok next) :
    next.Framed := by
  unfold readName at h
  split at h
  next hframes =>
    cases h
    exact framed_of_frames hframes
  next hframes =>
    dsimp only at h
    split_ifs at h
    · cases h
      exact framed_of_frames hframes
    · cases h
      exact framed_of_frames hframes
  next => cases h

theorem readSeparator_framed {r next : Reader} {token : Token}
    (h : r.readSeparator token = .ok next) : next.Framed := by
  unfold readSeparator at h
  split at h
  all_goals cases h
  · exact framed_of_frames ‹_›
  · exact afterValue_framed _
  · exact framed_of_frames ‹_›
  · exact framed_of_frames ‹_›
  · exact afterValue_framed _
  · exact afterValue_framed _

/-- **A token keeps the reader inside its brackets.** -/
theorem step_framed {r next : Reader} {token : Token} (hr : r.Framed)
    (h : r.step token = .ok next) : next.Framed := by
  unfold step at h
  split at h
  · exact readValue_framed h
  · split_ifs at h
    · cases h
      exact afterValue_framed _
    · exact readItem_framed h
  · exact readItem_framed h
  · split_ifs at h
    · cases h
      exact afterValue_framed _
    · exact readName_framed h
  · exact readName_framed h
  next hcolon =>
    split_ifs at h
    cases h
    intro hempty
    rcases hr hempty with hexpected | hexpected
    · cases hcolon.symm.trans hexpected
    · cases hcolon.symm.trans hexpected
  · exact readSeparator_framed h
  · cases h

theorem run_framed {r final : Reader} {tokens : List Token} (hr : r.Framed)
    (h : r.run tokens = .ok final) : final.Framed := by
  induction tokens generalizing r with
  | nil =>
    cases h
    exact hr
  | cons token tokens ih =>
    obtain ⟨next, hstep, hrest⟩ := run_cons_eq_ok h
    exact ih (step_framed hr hstep) hrest

/-! ## §3. Numbers that were cut off. -/

/-- A value is only read inside a bracket, unless it is the whole document. -/
theorem Framed.slot {r inner : Reader} {place : Place} (hr : r.Framed)
    (h : r.slot = some (inner, place)) : inner.frames ≠ [] ∨ place = .document := by
  have hitem : r.itemSlot = some (inner, place) → inner.frames ≠ [] := by
    intro hslot
    unfold itemSlot at hslot
    split at hslot
    · cases hslot
      exact List.cons_ne_nil _ _
    next hframes =>
      cases hslot
      rw [hframes]
      exact List.cons_ne_nil _ _
    · cases hslot
  unfold Reader.slot at h
  split at h
  next hexpected =>
    cases h
    by_cases hempty : r.frames = []
    · rcases hr hempty with hdone | hstart
      · cases hexpected.symm.trans hdone
      · cases hexpected.symm.trans hstart
        exact .inr rfl
    · exact .inl hempty
  · exact .inl (hitem h)
  · exact .inl (hitem h)
  · cases h

/-- The settings that can be read from a number are read from its beginning, too. -/
theorem readValue_cut_number {r next : Reader} {place : Place} {whole cut : Number}
    (hcut : ∀ n, whole = .natural n → ∃ m, cut = .natural m)
    (h : r.readValue place (.number whole) = .ok next) :
    ∃ s : Settings, r.readValue place (.number cut) = .ok (afterValue { r with settings := s }) := by
  cases place with
  | document =>
    cases h
  | settings =>
    cases h
  | ignored =>
    exact ⟨r.settings, rfl⟩
  | field field =>
    cases field with
    | dimensions =>
      cases whole with
      | natural n =>
        obtain ⟨m, rfl⟩ := hcut n rfl
        exact ⟨{ r.settings with dimensions := m }, rfl⟩
      | _ => cases h
    | _ => cases h

/-- **Where a number is read its beginning is read as well**, and then the end of a bracket
is missing. -/
theorem step_cut_number {r next : Reader} {whole cut : Number} (hr : r.Framed)
    (hcut : ∀ n, whole = .natural n → ∃ m, cut = .natural m)
    (h : r.step (.number whole) = .ok next) :
    ∃ next', r.step (.number cut) = .ok next' ∧ next'.expected = .separator := by
  have hatom : ∀ n : Number, (Token.number n).Atom := fun _ => trivial
  rw [step_atom r (hatom _)] at h ⊢
  cases hslot : r.slot with
  | none =>
    rw [hslot] at h
    cases h
  | some s =>
    rw [hslot] at h
    obtain ⟨settings, hread⟩ := readValue_cut_number hcut h
    refine ⟨_, hread, if_neg ?_⟩
    rcases hr.slot hslot with hframes | hplace
    · exact hframes
    · -- the whole document is no number
      change s.1.readValue s.2 (.number whole) = .ok next at h
      rw [hplace] at h
      cases h

end Reader

/-! ## §4. Documents. -/

namespace Document

/-- What every run keeps: the scanner has met no malformed token, and the reader is inside
its brackets. -/
structure Sound (d : Document) : Prop where
  scanner_ne : d.scanner ≠ .stopped
  framed : d.reader.Framed

theorem sound_start : start.Sound := ⟨nofun, Reader.framed_start⟩

/-- **One character keeps the state sound.** -/
theorem step_sound {d next : Document} {c : Char} (hd : d.Sound) (h : d.step c = .ok next) :
    next.Sound := by
  obtain ⟨reader, hrun, hnext⟩ := exists_of_bind_eq_ok h
  cases hnext
  refine ⟨?_, Reader.run_framed hd.framed hrun⟩
  -- the scanner only stops behind a malformed token, which the reader does not pass
  have hmem := Reader.malformed_notMem_of_run hrun
  rcases Scanner.eq_between_or_within hd.scanner_ne with hbetween | hwithin
  · rw [hbetween] at hmem ⊢
    rcases Scanner.begin_cases c with ⟨hbegin, -⟩ | hbegin
    · show (Scanner.begin c).1 ≠ .stopped
      rw [hbegin]
      exact nofun
    · exact hbegin.ne_stopped hmem
  · exact (Scanner.step_continues hwithin c).ne_stopped hmem

/-- **A run keeps the state sound.** -/
theorem foldlM_sound {d final : Document} {characters : List Char} (hd : d.Sound)
    (h : characters.foldlM step d = .ok final) : final.Sound := by
  induction characters generalizing d with
  | nil =>
    cases h
    exact hd
  | cons c characters ih =>
    rw [List.foldlM_cons] at h
    obtain ⟨next, hstep, hrest⟩ := exists_of_bind_eq_ok h
    exact ih (step_sound hd hstep) hrest

/-- The end of the document finds a malformed token. -/
theorem finish_malformed (r : Reader) :
    (r.run [.malformed]).bind Reader.finish = .error .malformed := by
  rw [run_cons_error (Reader.step_malformed r)]
  rfl

/-- Between two tokens, a reader that takes one more is not at its end. -/
theorem finish_between {r final : Reader} {token : Token} {tokens : List Token}
    (h : r.run (token :: tokens) = .ok final) : r.finish = .error .malformed := by
  obtain ⟨next, hstep, -⟩ := Reader.run_cons_eq_ok h
  refine if_neg fun hexpected => ?_
  unfold Reader.step at hstep
  rw [hexpected] at hstep
  cases hstep

/-- Within a number, the reader takes the number that was cut off for the whole one, and
misses the end of a bracket. -/
theorem finish_number {r final : Reader} (hr : r.Framed) {phase : NumberPhase}
    {lexeme back : List Char} (h : r.run ((Scanner.number phase lexeme).tokens back) = .ok final) :
    (r.run [Scanner.endNumber phase lexeme]).bind Reader.finish = .error .malformed := by
  unfold Scanner.endNumber
  by_cases hcomplete : Scanner.isComplete phase = true
  · rw [if_pos hcomplete]
    obtain ⟨rest, htokens | ⟨more, htokens⟩⟩ := Scanner.tokens_number phase lexeme back
    · -- a number that turns out to be malformed would have been refused
      rw [htokens] at h
      exact absurd List.mem_cons_self (Reader.malformed_notMem_of_run h)
    · rw [htokens] at h
      obtain ⟨next, hstep, -⟩ := Reader.run_cons_eq_ok h
      have hcut : ∀ n, Number.ofLexeme (lexeme.reverse ++ more) = .natural n →
          ∃ m, Number.ofLexeme lexeme.reverse = .natural m :=
        fun _ => Scanner.ofLexeme_front
      obtain ⟨next', hstep', hexpected⟩ := Reader.step_cut_number hr hcut hstep
      rw [Reader.run_cons hstep']
      refine if_neg ?_
      rw [hexpected]
      exact nofun
  · rw [if_neg hcomplete]
    exact finish_malformed r

/-- **The end of the document finds a fault where a part of it is missing**: if the
characters to come lead to settings and are not all white space, the document is malformed
without them. -/
theorem finish_of_cut {d : Document} (hd : d.Sound) {back : List Char} {s : Settings}
    (h : (back.foldlM step d).bind finish = .ok s)
    (hback : ∃ c ∈ back, Scanner.isSpace c = false) : d.finish = .error .malformed := by
  obtain ⟨scanner, reader⟩ := d
  rw [run_eq] at h
  obtain ⟨final, hrun, -⟩ := exists_of_bind_eq_ok h
  cases scanner with
  | stopped => exact absurd rfl hd.scanner_ne
  | between =>
    show reader.finish = .error .malformed
    change reader.run (Scanner.between.tokens back) = .ok final at hrun
    cases htokens : Scanner.between.tokens back with
    | nil =>
      obtain ⟨c, hc, hspace⟩ := hback
      rw [Scanner.isSpace_of_tokens_eq_nil htokens c hc] at hspace
      cases hspace
    | cons token tokens =>
      rw [htokens] at hrun
      exact finish_between hrun
  | number phase lexeme => exact finish_number hd.framed hrun
  | text units => exact finish_malformed reader
  | escape units => exact finish_malformed reader
  | hex units missing value => exact finish_malformed reader
  | name missing token => exact finish_malformed reader

end Document

/-- A document that was cut off in front of more than white space is malformed. -/
theorem ofJson_of_cut {text : String} {s : Settings} (h : ofJson text = .ok s)
    {front back : List Char} (htext : text.toList = front ++ back)
    (hback : ∃ c ∈ back, Scanner.isSpace c = false) :
    ofJson (String.ofList front) = .error .malformed := by
  have hread : ((front ++ back).foldlM Document.step Document.start).bind Document.finish
      = .ok s := htext ▸ h
  rw [List.foldlM_append] at hread
  obtain ⟨final, hfinal, hfinish⟩ := exists_of_bind_eq_ok hread
  obtain ⟨d, hfront, hrest⟩ := exists_of_bind_eq_ok hfinal
  have hd : d.Sound := Document.foldlM_sound Document.sound_start hfront
  have hrest' : (back.foldlM Document.step d).bind Document.finish = .ok s := by
    rw [hrest]
    exact hfinish
  have hcut : d.finish = .error .malformed := Document.finish_of_cut hd hrest' hback
  show ((String.ofList front).toList.foldlM Document.step Document.start).bind Document.finish = _
  rw [String.toList_ofList, hfront]
  exact hcut

/-- **A DOCUMENT THAT WAS CUT OFF IS MALFORMED.**  Of a text that holds settings and does
not end in white space, no proper front holds settings, be they others or the same, and
none is taken for a document with a value of the wrong kind. -/
theorem cut_documents_malformed {text : String} {s : Settings} (h : ofJson text = .ok s)
    (hend : ∀ c ∈ text.toList.getLast?, Scanner.isSpace c = false) :
    ∀ front : String, front.toList <+: text.toList → front ≠ text →
      ofJson front = .error .malformed := by
  intro front hprefix hne
  obtain ⟨back, hback⟩ := hprefix
  have hcut := ofJson_of_cut h hback.symm
  rw [String.ofList_toList] at hcut
  apply hcut
  -- the last character is behind the cut
  cases hlast : back.getLast? with
  | none =>
    rw [List.getLast?_eq_none_iff.mp hlast, List.append_nil] at hback
    exact absurd (String.toList_injective hback) hne
  | some c =>
    refine ⟨c, List.mem_of_getLast? hlast, hend c ?_⟩
    rw [← hback, List.getLast?_append, hlast]
    rfl

/-- A document in which a value is skipped and a setting is a number of two digits. -/
def numberedText : String := "\x7b\"x\":[-1.5e3],\"codegen\":[12]\x7d"

/-- It holds settings; cut off within the number that is skipped, or between the two
digits of the setting, it is malformed. -/
theorem cut_documents_malformed_numbered :
    (ofJson numberedText = .ok { default with dimensions := 12 }
        ∧ ∀ c ∈ numberedText.toList.getLast?, Scanner.isSpace c = false)
      ∧ ofJson "\x7b\"x\":[-1.5e" = .error .malformed
      ∧ ofJson "\x7b\"x\":[-1.5e3],\"codegen\":[1" = .error .malformed := by
  have h : ofJson numberedText = .ok { default with dimensions := 12 } := by decide
  have hlast : numberedText.toList.getLast? = some '\x7d' := by decide
  have hend : ∀ c ∈ numberedText.toList.getLast?, Scanner.isSpace c = false := by
    intro c hc
    cases hlast.symm.trans hc
    rfl
  refine ⟨⟨h, hend⟩, ?_, ?_⟩
  · exact cut_documents_malformed h hend _ (by decide) (by decide)
  · exact cut_documents_malformed h hend _ (by decide) (by decide)

/-- White space at the end may be missing. -/
example : ofJson "\x7b\x7d " = .ok default ∧ ofJson "\x7b\x7d" = .ok default := by decide

end Settings

end GeometricAlgebra
