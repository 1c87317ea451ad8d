/-
  GeometricAlgebra.Proofs.MultivectorText
  ────────────────────────────────
  **A MULTIVECTOR CAN BE READ OFF ITS TEXT.**

  The text is a signed sum of delimited pieces, so it tells them
  (`Multivector.sum_injective`), and a piece tells its place and its coefficient
  there.  A place without a piece has the coefficient zero.  So equal texts have
  equal coefficients at every place (`Multivector.layOut_injective`).  In plain text
  the places are the blades; in LaTeX they are the parts of the null basis, whose
  coefficients determine the multivector too.

  Main result:
    * `Multivector.text_unambiguous` — multivectors with the same text are equal.
-/
import GeometricAlgebra.Proofs.TextPieces

namespace GeometricAlgebra

open Outcome Text

namespace Multivector

/-! ## §1. The text tells the coefficients. -/

section Coefficients

variable {form : TextForm} {ι : Type} {name : ι → String} {places : List ι}
  {f g : ι → Outcome Polynomial} {pieces : List SignedText}

/-- What is listed shows a legible coefficient under a name. -/
theorem showsTerm_of_listing (hplaces : places.map name = bladeNames form)
    (hf : ∀ i ∈ places, ∃ p, f i = .ok p ∧ p.Legible (IsVariable form))
    (h : List.Forall₂ (Shows form name f) (places.filter (occurs f)) pieces) :
    List.Forall₂ (fun i piece => i ∈ places ∧ ∃ p, f i = .ok p ∧ ShowsTerm form (name i) p piece)
      (places.filter (occurs f)) pieces := by
  have hmem : ∀ i ∈ places.filter (occurs f), i ∈ places := fun i hi => List.mem_of_mem_filter hi
  refine ((List.forall₂_and_left _ _).mpr ⟨hmem, h⟩).imp ?_
  rintro i piece ⟨hi, p, hp, htext⟩
  obtain ⟨q, hq, hlegible⟩ := hf i hi
  obtain rfl := Except.ok.inj (hp.symm.trans hq)
  exact ⟨hi, p, hp, hlegible, hplaces ▸ List.mem_map_of_mem hi, htext⟩

/-- Two listings of the same things. -/
theorem listings_eq {α β : Type} {R S : α → β → Prop} {Q : α → Prop}
    (hRS : ∀ a b c, R a c → S b c → a = b ∧ Q a) {as bs : List α} {cs : List β}
    (has : List.Forall₂ R as cs) (hbs : List.Forall₂ S bs cs) : as = bs ∧ ∀ a ∈ as, Q a := by
  induction has generalizing bs with
  | nil =>
    cases hbs
    exact ⟨rfl, by simp⟩
  | cons ha _ ih =>
    cases hbs with
    | cons hb hbs =>
      obtain ⟨rfl, hQ⟩ := hRS _ _ _ ha hb
      obtain ⟨rfl, hall⟩ := ih hbs
      exact ⟨rfl, List.forall_mem_cons.mpr ⟨hQ, hall⟩⟩

/-- **Equal listings come from equal coefficients.** -/
theorem coefficients_eq (hplaces : places.map name = bladeNames form)
    (hf : ∀ i ∈ places, ∃ p, f i = .ok p ∧ p.Legible (IsVariable form))
    (hg : ∀ i ∈ places, ∃ p, g i = .ok p ∧ p.Legible (IsVariable form))
    (h : List.Forall₂ (Shows form name f) (places.filter (occurs f)) pieces)
    (h' : List.Forall₂ (Shows form name g) (places.filter (occurs g)) pieces) :
    ∀ i ∈ places, f i = g i := by
  -- a piece tells its name, and different places have different names
  have hnodup : (places.map name).Nodup := hplaces ▸ nodup_bladeNames form
  obtain ⟨hlisted, heq⟩ := listings_eq (Q := fun i => f i = g i) (fun i j piece hi hj => by
    obtain ⟨hi, p, hp, hpiece⟩ := hi
    obtain ⟨hj, q, hq, hpiece'⟩ := hj
    obtain ⟨rfl, hij⟩ := hpiece.injective hpiece'
    obtain rfl := List.inj_on_of_nodup_map hnodup hi hj hij
    exact ⟨rfl, hp.trans hq.symm⟩)
    (showsTerm_of_listing hplaces hf h) (showsTerm_of_listing hplaces hg h')
  intro i hi
  by_cases hlist : i ∈ places.filter (occurs f)
  · exact heq i hlist
  · -- what is not listed is zero
    have hlist' : i ∉ places.filter (occurs g) := hlisted ▸ hlist
    obtain ⟨p, hp, -⟩ := hf i hi
    obtain ⟨q, hq, -⟩ := hg i hi
    have hp0 : p.isZero = true := by simpa [hi, occurs, hp] using hlist
    have hq0 : q.isZero = true := by simpa [hi, occurs, hq] using hlist'
    rw [hp, hq, Polynomial.isZero_iff.mp hp0, Polynomial.isZero_iff.mp hq0]

end Coefficients

/-! ## §2. The text tells the pieces. -/

/-- What stands in front of the first piece. -/
def lead : TextForm → String
  | .plain => ""
  | .latex => "&= "

/-- What stands in front of a later piece that is added. -/
def plus : TextForm → String
  | .plain => " + "
  | .latex => "\\\\\n&+ "

/-- What stands in front of a later piece that is subtracted. -/
def minus : TextForm → String
  | .plain => " - "
  | .latex => "\\\\\n&- "

theorem joiners (form : TextForm) : Joiners (plus form) (minus form) := by
  cases form with
  | plain => exact Polynomial.joiners
  | latex =>
    refine ⟨?_, ?_, by decide, by decide⟩
    · intro joiner hjoiner r
      rcases List.mem_pair.mp hjoiner with rfl | rfl
      · exact Or.inr ⟨['\\', '\\'], '\n', '&' :: '+' :: ' ' :: r, rfl, by simp [gaps], by simp [marks]⟩
      · exact Or.inr ⟨['\\', '\\'], '\n', '&' :: '-' :: ' ' :: r, rfl, by simp [gaps], by simp [marks]⟩
    · intro joiner hjoiner r hclosed
      rcases List.mem_pair.mp hjoiner with rfl | rfl <;> simp [Closed, plus, minus] at hclosed

section Sums

variable {form : TextForm} {ps qs : List SignedText}

/-- Each piece shows a term. -/
def AllShow (form : TextForm) (ps : List SignedText) : Prop :=
  ∀ piece ∈ ps, ∃ name p, ShowsTerm form name p piece

theorem AllShow.isBody (h : AllShow form ps) : ∀ piece ∈ ps, IsBody form piece.body.toList := by
  intro piece hpiece
  obtain ⟨name, p, hshows⟩ := h piece hpiece
  exact hshows.isBody

/-- **A sum of pieces is not the text of zero.** -/
theorem sum_ne_zero {piece : SignedText} (h : AllShow form (piece :: ps)) :
    SignedText.sum (lead form) (plus form) (minus form) (piece :: ps) ≠ "0" := by
  intro hzero
  cases form with
  | latex =>
    have hletters := congrArg String.toList hzero
    simp [SignedText.sum, lead] at hletters
  | plain =>
    -- "0" is itself a piece, and pieces are told by the text: so it would be shown by a term
    have hpiece : IsBody .plain "0".toList := Or.inl ⟨by decide, ⟨by simp [marks], by simp [gaps]⟩⟩
    have hbody : ∀ q ∈ [(⟨false, "0"⟩ : SignedText)], IsBody .plain q.body.toList := by
      simpa using hpiece
    have htext : SignedText.sum (lead .plain) (plus .plain) (minus .plain) [⟨false, "0"⟩] = "0" := by
      decide
    obtain ⟨hsame, -⟩ := SignedText.sum_delimited (joiners .plain) isBody_delimited (r := [])
      (s := []) (Or.inl rfl) (Or.inl rfl) (fun _ hu => hu.unsigned) h.isBody hbody
      (by rw [hzero, htext])
    obtain ⟨name, p, hshows⟩ := h piece List.mem_cons_self
    obtain rfl := (List.cons.inj hsame).1
    exact hshows.body_ne_zero rfl

/-- **The text tells its pieces.** -/
theorem sum_injective (hps : AllShow form ps) (hqs : AllShow form qs)
    (h : SignedText.sum (lead form) (plus form) (minus form) ps
      = SignedText.sum (lead form) (plus form) (minus form) qs) : ps = qs := by
  cases ps with
  | nil =>
    cases qs with
    | nil => rfl
    | cons q qs => exact absurd h.symm (sum_ne_zero hqs)
  | cons p ps =>
    cases qs with
    | nil => exact absurd h (sum_ne_zero hps)
    | cons q qs =>
      exact (SignedText.sum_delimited (joiners form) isBody_delimited (Or.inl rfl) (Or.inl rfl)
        (fun _ hu => hu.unsigned) hps.isBody hqs.isBody (congrArg (·.toList ++ []) h)).1

end Sums

/-! ## §3. The text tells the multivector. -/

section Layout

variable {form : TextForm} {ι : Type} {name : ι → String} {places : List ι}
  {f g : ι → Outcome Polynomial}

/-- The text of a sum over places, in steps: find the coefficients, list the pieces,
write the sum. -/
def layOut (form : TextForm) (places : List ι) (name : ι → String) (f : ι → Outcome Polynomial) :
    Outcome String := do
  let pieces ← places.mapM fun i => do renderTerm form (name i) (← f i)
  return SignedText.sum (lead form) (plus form) (minus form) pieces.flatten

/-- A text lists legible coefficients. -/
theorem layOut_eq_ok (hf : ∀ i ∈ places, Yields (f i) (Polynomial.Legible (IsVariable form)))
    {text : String} (h : layOut form places name f = .ok text) :
    (∀ i ∈ places, ∃ p, f i = .ok p ∧ p.Legible (IsVariable form))
      ∧ ∃ pieces, List.Forall₂ (Shows form name f) (places.filter (occurs f)) pieces
        ∧ text = SignedText.sum (lead form) (plus form) (minus form) pieces := by
  unfold layOut at h
  obtain ⟨pieces, hpieces, h⟩ := bind_eq_ok_iff.mp h
  have hlisting : List.Forall₂ (Shows form name f) (places.filter (occurs f)) pieces.flatten :=
    (listing_yields fun i hi => (hf i hi).mono fun _ hp => hp.canonical).ensures pieces hpieces
  refine ⟨?_, pieces.flatten, hlisting, (Except.ok.inj h).symm⟩
  intro i hi
  -- a text whose coefficient overflowed would not have been laid out
  obtain ⟨_, hpiece⟩ := exists_ok_of_mapM hpieces hi
  obtain ⟨p, hp, -⟩ := bind_eq_ok_iff.mp hpiece
  exact ⟨p, hp, (hf i hi).ensures p hp⟩

theorem allShow_of_listing (hplaces : places.map name = bladeNames form)
    (hf : ∀ i ∈ places, ∃ p, f i = .ok p ∧ p.Legible (IsVariable form)) {pieces : List SignedText}
    (h : List.Forall₂ (Shows form name f) (places.filter (occurs f)) pieces) :
    AllShow form pieces := by
  have hterms := showsTerm_of_listing hplaces hf h
  clear h
  generalize places.filter (occurs f) = listed at hterms
  induction hterms with
  | nil => exact fun _ hpiece => absurd hpiece (List.not_mem_nil)
  | cons hshows _ ih =>
    obtain ⟨-, p, -, hpiece⟩ := hshows
    exact List.forall_mem_cons.mpr ⟨⟨_, p, hpiece⟩, ih⟩

/-- **A text tells the coefficients at all places.** -/
theorem layOut_injective (hplaces : places.map name = bladeNames form)
    (hf : ∀ i ∈ places, Yields (f i) (Polynomial.Legible (IsVariable form)))
    (hg : ∀ i ∈ places, Yields (g i) (Polynomial.Legible (IsVariable form))) {text : String}
    (h : layOut form places name f = .ok text) (h' : layOut form places name g = .ok text) :
    ∀ i ∈ places, ∃ p, f i = .ok p ∧ g i = .ok p := by
  obtain ⟨hlegible, pieces, hlisting, htext⟩ := layOut_eq_ok hf h
  obtain ⟨hlegible', pieces', hlisting', htext'⟩ := layOut_eq_ok hg h'
  obtain rfl := sum_injective (allShow_of_listing hplaces hlegible hlisting)
    (allShow_of_listing hplaces hlegible' hlisting') (htext.symm.trans htext')
  intro i hi
  obtain ⟨p, hp, -⟩ := hlegible i hi
  have heq := coefficients_eq hplaces hlegible hlegible' hlisting hlisting' i hi
  exact ⟨p, hp, heq.symm.trans hp⟩

end Layout

/-- All variables have names in `N`. -/
def Named (N : String → Prop) (a : Multivector) : Prop := ∀ t ∈ a.terms, t.2.Named N

variable {N : String → Prop} {form : TextForm} {a b : Multivector}

theorem legible_coefficientOf (ha : a.Canonical) (hN : a.Named N) (K : Blade) :
    (a.coefficientOf K).Legible N := by
  refine ⟨ha.coefficientOf K, ?_⟩
  unfold Multivector.coefficientOf
  cases hlookup : a.terms.lookup K with
  | none => exact Polynomial.legible_zero.named
  | some p =>
    obtain ⟨before, after, hterms, -⟩ := List.lookup_eq_some_iff.mp hlookup
    exact hN (K, p) (by simp [hterms])

theorem legible_placeCoefficient (ha : a.Canonical) (hN : a.Named N) (place : NullPart × Blade) :
    Yields (a.placeCoefficient place) (Polynomial.Legible N) := by
  obtain ⟨part, tail⟩ := place
  have hK := legible_coefficientOf ha hN
  have hlegible : Ensures (a.nullCoefficient part tail) (Polynomial.Legible N) := by
    cases part with
    | euclidean => exact ensures_ok (hK tail)
    | origin => exact (hK _).sub (hK _)
    | infinity => exact ((hK _).add (hK _)).bind fun _ hsum => hsum.scale Fraction.normal_half
    | plane => exact ensures_ok (hK _)
  cases nullCoefficient_yields ha part tail with
  | answer p hp _ => exact .answer p hp (hlegible p hp)
  | overflow hoverflow => exact .overflow hoverflow

theorem render_plain (a : Multivector) : a.render .plain = layOut .plain
    (Subsets.powerset metric.pseudoscalar) bladeName fun K => .ok (a.coefficientOf K) := by
  show (do return SignedText.sum "" " + " " - " (← a.plainPieces) : Outcome String) = _
  unfold plainPieces layOut
  rw [bind_assoc]
  rfl

theorem render_latex (a : Multivector) :
    a.render .latex = layOut .latex nullPlaces placeName a.placeCoefficient := by
  show (do return SignedText.sum "&= " "\\\\\n&+ " "\\\\\n&- " (← a.latexPieces) : Outcome String) = _
  unfold latexPieces layOut
  rw [bind_assoc]
  rfl

/-- The displayed coefficients determine the multivector. -/
theorem eq_of_placeCoefficient_eq (ha : a.Canonical) (hb : b.Canonical)
    (h : ∀ place ∈ nullPlaces, ∃ p, a.placeCoefficient place = .ok p
      ∧ b.placeCoefficient place = .ok p) : a = b := by
  apply value_injective ha hb
  rw [← ha.value_eq_sum_places, ← hb.value_eq_sum_places]
  apply congrArg List.sum
  apply List.map_congr_left
  intro place hplace
  obtain ⟨p, hp, hp'⟩ := h place hplace
  have hvalue := ((nullCoefficient_yields ha place.1 place.2).ensures p hp).2
  have hvalue' := ((nullCoefficient_yields hb place.1 place.2).ensures p hp').2
  rw [← hvalue, ← hvalue']

/-- **Text is unambiguous**: canonical multivectors with the same text are equal, if no
variable could be taken for a blade. -/
theorem text_unambiguous {text : String} (ha : a.Canonical) (hb : b.Canonical)
    (hav : a.Named (IsVariable form)) (hbv : b.Named (IsVariable form))
    (h : a.render form = .ok text) (h' : b.render form = .ok text) : a = b := by
  cases form with
  | plain =>
    rw [render_plain] at h h'
    have hcoefficients := layOut_injective rfl
      (fun K _ => yields_ok (legible_coefficientOf ha hav K))
      (fun K _ => yields_ok (legible_coefficientOf hb hbv K)) h h'
    refine (ha.eq_iff hb).mpr fun K hK => ?_
    obtain ⟨p, hp, hp'⟩ := hcoefficients K hK.mem_powerset
    rw [Except.ok.inj hp, Except.ok.inj hp']
  | latex =>
    rw [render_latex] at h h'
    exact eq_of_placeCoefficient_eq ha hb (layOut_injective rfl
      (fun place _ => legible_placeCoefficient ha hav place)
      (fun place _ => legible_placeCoefficient hb hbv place) h h')

/-- A vector with a coefficient of two terms. -/
def slanted : Multivector := ⟨[([2], ⟨[(⟨["a_1"]⟩, Fraction.one), (⟨["b"]⟩, ⟨-1, 2⟩)]⟩)]⟩

/-- The text of this vector behind twice the negative axis. -/
def slantedText : String :=
  "&= 2 o\\\\\n&+ \\infty\\\\\n&+ (a_1 - \\frac\x7b1\x7d\x7b2\x7d b) x"

theorem text_unambiguous_slanted : ∃ a b, slanted.add twiceMinus = .ok a
    ∧ twiceMinus.add slanted = .ok b
    ∧ a.Canonical ∧ b.Canonical ∧ a.Named (IsVariable .latex) ∧ b.Named (IsVariable .latex)
    ∧ a.render .latex = .ok slantedText ∧ b.render .latex = .ok slantedText ∧ a = b := by
  have hsum : ∀ u v : Multivector, u.add v = .ok ⟨twiceMinus.terms ++ slanted.terms⟩ →
      ∃ a, u.add v = .ok a ∧ a.Canonical ∧ a.Named (IsVariable .latex)
        ∧ a.render .latex = .ok slantedText := by
    intro u v h
    refine ⟨_, h, by decide +kernel, ?_, by decide +kernel⟩
    show ∀ t ∈ twiceMinus.terms ++ slanted.terms, ∀ s ∈ t.2.terms, ∀ name ∈ s.1.names,
      IsVariable .latex name
    decide +kernel
  obtain ⟨a, hadd, ha, hna, hta⟩ := hsum slanted twiceMinus (by decide +kernel)
  obtain ⟨b, hadd', hb, hnb, htb⟩ := hsum twiceMinus slanted (by decide +kernel)
  exact ⟨a, b, hadd, hadd', ha, hb, hna, hnb, hta, htb, text_unambiguous ha hb hna hnb hta htb⟩

end Multivector

end GeometricAlgebra
