/-
  GeometricAlgebra.Proofs.Delimiters
  ────────────────────────────────
  **SIGNED SUMS CAN BE CUT IN ONE WAY ONLY.**

  A text of the library is a sum of products of words.  Words are free of blanks
  and products are free of signs, so the first blank ends a word and the first
  mark ends a product (`Text.solid_delimited`).  Only the gap in front of a mark could
  belong to either side: a product does not end with one.

  A kind of text is *delimited* if, in front of anything that may follow, it tells
  where it stops.  Sums of delimited pieces are delimited again, up to a closing
  parenthesis, so sums can be nested.

  Main results:
    * `Text.solid_delimited` — products are delimited.
    * `SignedText.sum_delimited` — sums of delimited pieces are.
    * `Text.intercalate_injective` — a product tells its words.
-/
import GeometricAlgebra.SignedText
import Mathlib

namespace GeometricAlgebra

namespace Text

/-! ## §1. Products. -/

/-- The characters that stand between products and inside of none. -/
def marks : List Char := ['\n', '(', ')', '+', '-']

/-- The characters that may stand between a product and a mark. -/
def gaps : List Char := [' ', '\\']

/-- A text without marks that does not end with a gap. -/
structure Solid (u : List Char) : Prop where
  /-- No mark occurs. -/
  free : ∀ c ∈ u, c ∉ marks
  /-- The last character is no gap. -/
  ended : ∀ c ∈ u.getLast?, c ∉ gaps

/-- What may stand behind a piece: nothing, or a mark behind some gaps. -/
def Stop (s : List Char) : Prop :=
  s = [] ∨ ∃ g m r, s = g ++ m :: r ∧ (∀ c ∈ g, c ∈ gaps) ∧ m ∈ marks

/-- In front of a stop, a text of this kind tells where it ends. -/
def Delimited (S : List Char → Prop) : Prop :=
  ∀ ⦃u v s t⦄, S u → S v → Stop s → Stop t → u ++ s = v ++ t → u = v ∧ s = t

/-- What stands in front only has to be free of marks. -/
theorem Solid.prepend {u v : List Char} (hv : Solid v) (hu : ∀ c ∈ u, c ∉ marks) (hne : v ≠ []) :
    Solid (u ++ v) := by
  refine ⟨?_, ?_⟩
  · intro c hc
    rcases List.mem_append.mp hc with hc | hc
    · exact hu c hc
    · exact hv.free c hc
  · rw [List.getLast?_append_of_ne_nil _ hne]
    exact hv.ended

/-- A solid text does not go on into a stop. -/
theorem Solid.eq_nil_of_stop {u z t : List Char} (h : Solid (u ++ z)) (hstop : Stop (z ++ t)) :
    z = [] := by
  by_contra hz
  obtain ⟨z', c, rfl⟩ := List.eq_nil_or_concat z |>.resolve_left hz
  have hlast : c ∉ gaps := h.ended c (by simp [← List.append_assoc])
  rcases hstop with hnil | ⟨g, m, r, heq, hg, hm⟩
  · simp at hnil
  rcases List.append_eq_append_iff.mp heq with ⟨g', rfl, -⟩ | ⟨z'', hz'', hr⟩
  · -- the whole of `z` lies among the gaps
    exact hlast (hg c (by simp))
  · cases z'' with
    | nil =>
      rw [List.append_nil] at hz''
      exact hlast (hg c (hz'' ▸ by simp))
    | cons d z'' =>
      -- the mark lies in `z`
      obtain rfl : m = d := (List.cons.inj hr).1
      exact h.free m (by rw [hz'']; simp) hm

/-- **Products are delimited.** -/
theorem solid_delimited : Delimited Solid := by
  intro u v s t hu hv hs ht h
  -- the longer one goes on by some `z` into the stop behind the shorter one
  rcases List.append_eq_append_iff.mp h with ⟨z, rfl, rfl⟩ | ⟨z, rfl, rfl⟩
  · obtain rfl := hv.eq_nil_of_stop hs
    simp
  · obtain rfl := hu.eq_nil_of_stop ht
    simp

/-- A solid text that is not empty. -/
def IsPiece (u : List Char) : Prop := u ≠ [] ∧ Solid u

theorem isPiece_delimited : Delimited IsPiece :=
  fun _ _ _ _ hu hv hs ht h => solid_delimited hu.2 hv.2 hs ht h

theorem IsPiece.head {u : List Char} (h : IsPiece u) : ∃ c u', u = c :: u' ∧ c ∉ marks := by
  obtain ⟨c, u', rfl⟩ := List.exists_cons_of_ne_nil h.1
  exact ⟨c, u', rfl, h.2.free c List.mem_cons_self⟩

theorem IsPiece.unsigned {u : List Char} (h : IsPiece u) : ∃ c u', u = c :: u' ∧ c ≠ '-' := by
  obtain ⟨c, u', hu, hc⟩ := h.head
  exact ⟨c, u', hu, fun hminus => hc (by simp [hminus, marks])⟩

/-- A closing parenthesis or the end. -/
def Closed (s : List Char) : Prop := s = [] ∨ ∃ r, s = ')' :: r

theorem Closed.stop {s : List Char} (h : Closed s) : Stop s := by
  rcases h with h | ⟨r, rfl⟩
  · exact Or.inl h
  · exact Or.inr ⟨[], ')', r, rfl, by simp, by simp [marks]⟩

/-! ## §2. Signed sums. -/

/-- Two joiners for sums: they stop what stands before them and can be told from each
other, from the end and from a parenthesis. -/
structure Joiners (plus minus : String) : Prop where
  /-- Both stop what stands before. -/
  stop : ∀ joiner ∈ [plus, minus], ∀ r, Stop (joiner.toList ++ r)
  /-- Neither closes a sum. -/
  opened : ∀ joiner ∈ [plus, minus], ∀ r, ¬ Closed (joiner.toList ++ r)
  /-- They differ, and not because one goes on. -/
  ne : plus ≠ minus
  length_eq : plus.length = minus.length

end Text

open Text

namespace SignedText

variable {S : List Char → Prop} {plus minus : String} {ps qs : List SignedText} {r s : List Char}

/-- The joiner of a piece. -/
def joiner (plus minus : String) (piece : SignedText) : String :=
  if piece.negative then minus else plus

theorem joiner_mem (plus minus : String) (piece : SignedText) :
    piece.joiner plus minus ∈ [plus, minus] := by
  unfold joiner
  split <;> simp

/-- The pieces behind the first one, as characters. -/
def rest (plus minus : String) (ps : List SignedText) : List Char :=
  ps.flatMap fun piece => (piece.joiner plus minus).toList ++ piece.body.toList

theorem rest_cons (piece : SignedText) : rest plus minus (piece :: ps)
    = (piece.joiner plus minus).toList ++ (piece.body.toList ++ rest plus minus ps) := by
  rw [rest, List.flatMap_cons, List.append_assoc]
  rfl

theorem toList_join_continuing (ps : List SignedText) :
    (String.join (ps.map (continuing plus minus))).toList = rest plus minus ps := by
  rw [String.toList_join, List.flatMap_map]
  simp only [continuing, String.toList_append]
  rfl

theorem ext_body {p q : SignedText} (hsign : p.negative = q.negative)
    (hbody : p.body.toList = q.body.toList) : p = q := by
  cases p
  cases q
  cases hsign
  cases String.toList_inj.mp hbody
  rfl

section Sums

variable (hJ : Joiners plus minus)
include hJ

theorem stop_rest (hr : Closed r) : Stop (rest plus minus ps ++ r) := by
  cases ps with
  | nil => exact hr.stop
  | cons piece ps =>
    rw [rest_cons, List.append_assoc]
    exact hJ.stop _ (piece.joiner_mem plus minus) _

theorem not_closed_rest {piece : SignedText} : ¬ Closed (rest plus minus (piece :: ps) ++ r) := by
  rw [rest_cons, List.append_assoc]
  exact hJ.opened _ (piece.joiner_mem plus minus) _

theorem joiner_inj {p q : SignedText} (h : (p.joiner plus minus).toList ++ r
    = (q.joiner plus minus).toList ++ s) : p.negative = q.negative ∧ r = s := by
  have hlength : (p.joiner plus minus).toList.length = (q.joiner plus minus).toList.length := by
    simp only [String.length_toList]
    unfold joiner
    split <;> split <;> simp [hJ.length_eq]
  obtain ⟨hjoiner, hrest⟩ := List.append_inj h hlength
  have hne := hJ.ne
  refine ⟨?_, hrest⟩
  -- different signs would make the two joiners equal
  rw [String.toList_inj] at hjoiner
  unfold joiner at hjoiner
  cases hp : p.negative <;> cases hq : q.negative <;> simp_all

variable (hS : Delimited S) (hr : Closed r) (hs : Closed s)
include hS hr hs

/-- **The later pieces of a sum can be told from their text.** -/
theorem rest_delimited (hps : ∀ p ∈ ps, S p.body.toList) (hqs : ∀ q ∈ qs, S q.body.toList)
    (h : rest plus minus ps ++ r = rest plus minus qs ++ s) : ps = qs ∧ r = s := by
  -- piece by piece: the joiner, the body up to the next stop, then the others
  induction ps generalizing qs with
  | nil =>
    cases qs with
    | nil => exact ⟨rfl, h⟩
    | cons q qs =>
      have hr' : r = _ := h
      rw [hr'] at hr
      exact absurd hr (not_closed_rest hJ)
  | cons p ps ih =>
    cases qs with
    | nil =>
      have hs' : s = _ := h.symm
      rw [hs'] at hs
      exact absurd hs (not_closed_rest hJ)
    | cons q qs =>
      simp only [rest_cons, List.append_assoc] at h
      obtain ⟨hsign, h⟩ := joiner_inj hJ h
      obtain ⟨hp, hps⟩ := List.forall_mem_cons.mp hps
      obtain ⟨hq, hqs⟩ := List.forall_mem_cons.mp hqs
      obtain ⟨hbody, h⟩ := hS hp hq (stop_rest hJ hr) (stop_rest hJ hs) h
      obtain ⟨rfl, hend⟩ := ih hps hqs h
      exact ⟨by rw [ext_body hsign hbody], hend⟩

/-- **Sums of delimited pieces are delimited**, up to a closing parenthesis. -/
theorem sum_delimited {lead : String} {p q : SignedText}
    (hminus : ∀ u, S u → ∃ c u', u = c :: u' ∧ c ≠ '-')
    (hps : ∀ p' ∈ p :: ps, S p'.body.toList) (hqs : ∀ q' ∈ q :: qs, S q'.body.toList)
    (h : (sum lead plus minus (p :: ps)).toList ++ r = (sum lead plus minus (q :: qs)).toList ++ s) :
    p :: ps = q :: qs ∧ r = s := by
  obtain ⟨hp, hps⟩ := List.forall_mem_cons.mp hps
  obtain ⟨hq, hqs⟩ := List.forall_mem_cons.mp hqs
  simp only [sum, String.toList_append, toList_join_continuing, List.append_assoc,
    List.append_cancel_left_eq] at h
  -- a body does not begin with the sign that a negative first piece shows
  have hopening : p.negative = q.negative ∧ p.body.toList ++ (rest plus minus ps ++ r)
      = q.body.toList ++ (rest plus minus qs ++ s) := by
    obtain ⟨c, u, hu, hc⟩ := hminus _ hp
    obtain ⟨d, v, hv, hd⟩ := hminus _ hq
    unfold opening at h
    cases hpn : p.negative <;> cases hqn : q.negative <;>
      simp only [hpn, hqn, hu, hv, if_true, if_false, String.toList_append, Bool.false_eq_true] at h ⊢
    · exact ⟨trivial, h⟩
    · exact absurd (List.cons.inj h).1 hc
    · exact absurd (List.cons.inj h).1.symm hd
    · exact ⟨trivial, (List.cons.inj h).2⟩
  obtain ⟨hsign, h⟩ := hopening
  obtain ⟨hbody, h⟩ := hS hp hq (stop_rest hJ hr) (stop_rest hJ hs) h
  obtain ⟨rfl, hend⟩ := rest_delimited hJ hS hr hs hps hqs h
  exact ⟨by rw [ext_body hsign hbody], hend⟩

end Sums

end SignedText

namespace Text

/-! ## §3. Words of a product. -/

/-- At the end of the text, or in front of the character `c`. -/
def Ends (c : Char) (s : List Char) : Prop := s = [] ∨ ∃ s', s = c :: s'

/-- The first `c` ends what is free of it. -/
theorem free_inj {c : Char} {w v s t : List Char} (hw : c ∉ w) (hv : c ∉ v) (hs : Ends c s)
    (ht : Ends c t) (h : w ++ s = v ++ t) : w = v ∧ s = t := by
  rcases hs with rfl | ⟨s', rfl⟩ <;> rcases ht with rfl | ⟨t', rfl⟩
  · exact ⟨by simpa using h, rfl⟩
  · rw [List.append_nil] at h
    exact absurd (h ▸ by simp) hw
  · rw [List.append_nil] at h
    exact absurd (h ▸ by simp) hv
  · rcases List.append_eq_append_iff.mp h with ⟨z, rfl, hz⟩ | ⟨z, rfl, hz⟩ <;> cases z <;> simp_all

/-- A product is its first word and what the separator continues. -/
theorem intercalate_cons (sep : List Char) (w : List Char) (ws : List (List Char)) :
    sep.intercalate (w :: ws) = w ++ ws.flatMap (sep ++ ·) := by
  induction ws generalizing w with
  | nil => simp
  | cons v ws ih => rw [List.intercalate_cons_cons, ih, List.flatMap_cons, List.append_assoc, List.append_assoc]

/-- Two products in a row. -/
theorem intercalate_append {sep : List Char} {ws vs : List (List Char)} (hws : ws ≠ [])
    (hvs : vs ≠ []) :
    sep.intercalate (ws ++ vs) = sep.intercalate ws ++ (sep ++ sep.intercalate vs) := by
  obtain ⟨w, ws, rfl⟩ := List.exists_cons_of_ne_nil hws
  obtain ⟨v, vs, rfl⟩ := List.exists_cons_of_ne_nil hvs
  simp only [List.cons_append, intercalate_cons, List.flatMap_append, List.flatMap_cons,
    List.append_assoc]

/-- What continues a product begins with a blank. -/
theorem ends_continued (sep : List Char) (ws : List (List Char)) :
    Ends ' ' (ws.flatMap ((' ' :: sep) ++ ·)) := by
  cases ws with
  | nil => exact Or.inl rfl
  | cons w ws => exact Or.inr ⟨_, rfl⟩

theorem continued_inj {sep : List Char} {ws vs : List (List Char)} (hws : ∀ w ∈ ws, ' ' ∉ w)
    (hvs : ∀ v ∈ vs, ' ' ∉ v)
    (h : ws.flatMap ((' ' :: sep) ++ ·) = vs.flatMap ((' ' :: sep) ++ ·)) : ws = vs := by
  induction ws generalizing vs with
  | nil =>
    cases vs with
    | nil => rfl
    | cons v vs => cases h
  | cons w ws ih =>
    cases vs with
    | nil => cases h
    | cons v vs =>
      obtain ⟨hw, hws⟩ := List.forall_mem_cons.mp hws
      obtain ⟨hv, hvs⟩ := List.forall_mem_cons.mp hvs
      simp only [List.flatMap_cons, List.append_assoc, List.append_cancel_left_eq] at h
      obtain ⟨hword, hrest⟩ := free_inj hw hv (ends_continued sep ws) (ends_continued sep vs) h
      rw [hword, ih hws hvs hrest]

/-- **A product of words tells its words**, if words are free of blanks and the
separator begins with one. -/
theorem intercalate_injective {sep : List Char} {ws vs : List (List Char)}
    (hws : ∀ w ∈ ws, ' ' ∉ w) (hvs : ∀ v ∈ vs, ' ' ∉ v) (hws0 : ws ≠ []) (hvs0 : vs ≠ [])
    (h : (' ' :: sep).intercalate ws = (' ' :: sep).intercalate vs) : ws = vs := by
  cases ws with
  | nil => exact absurd rfl hws0
  | cons w ws =>
    cases vs with
    | nil => exact absurd rfl hvs0
    | cons v vs =>
      obtain ⟨hw, hws⟩ := List.forall_mem_cons.mp hws
      obtain ⟨hv, hvs⟩ := List.forall_mem_cons.mp hvs
      rw [intercalate_cons, intercalate_cons] at h
      obtain ⟨hword, hrest⟩ := free_inj hw hv (ends_continued sep ws) (ends_continued sep vs) h
      rw [hword, continued_inj hws hvs hrest]

/-- Two kinds of words, one behind the other, can be told apart. -/
theorem kinds_inj {α : Type} {P Q : α → Prop} (hPQ : ∀ a, P a → ¬ Q a) {as as' bs bs' : List α}
    (has : ∀ a ∈ as, P a) (has' : ∀ a ∈ as', P a) (hbs : ∀ b ∈ bs, Q b) (hbs' : ∀ b ∈ bs', Q b)
    (h : as ++ bs = as' ++ bs') : as = as' ∧ bs = bs' := by
  rcases List.append_eq_append_iff.mp h with ⟨zs, rfl, rfl⟩ | ⟨zs, rfl, rfl⟩
  · cases zs with
    | nil => simp
    | cons z zs => exact absurd (hbs z (by simp)) (hPQ z (has' z (by simp)))
  · cases zs with
    | nil => simp
    | cons z zs => exact absurd (hbs' z (by simp)) (hPQ z (has z (by simp)))

/-- Words of one kind can be told apart if each of them can. -/
theorem map_inj_of_forall {α β : Type} {P : α → Prop} {f : α → β}
    (hf : ∀ a b, P a → P b → f a = f b → a = b) {as bs : List α} (has : ∀ a ∈ as, P a)
    (hbs : ∀ b ∈ bs, P b) (h : as.map f = bs.map f) : as = bs := by
  induction as generalizing bs with
  | nil => exact (List.map_eq_nil_iff.mp h.symm).symm
  | cons a as ih =>
    cases bs with
    | nil => cases h
    | cons b bs =>
      obtain ⟨ha, has⟩ := List.forall_mem_cons.mp has
      obtain ⟨hb, hbs⟩ := List.forall_mem_cons.mp hbs
      obtain ⟨hhead, htail⟩ := List.cons.inj h
      rw [hf a b ha hb hhead, ih has hbs htail]

end Text

end GeometricAlgebra
