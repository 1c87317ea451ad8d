/-
  GeometricAlgebra.Proofs.PolynomialText
  ────────────────────────────────
  **A POLYNOMIAL CAN BE READ OFF ITS TEXT.**

  A polynomial is written as a signed sum of products, one for each term.  The
  sum tells its pieces (`SignedText.sum_delimited`), a product tells the monomial
  and the distance of the coefficient from zero (`Text.Readable.product_injective`),
  and with the sign that distance tells the coefficient.

  Main result:
    * `Polynomial.text_delimited` — in front of a closing parenthesis or the end,
      the text of a polynomial other than zero tells the polynomial.
-/
import GeometricAlgebra.Proofs.BuiltValues
import GeometricAlgebra.Proofs.ProductText

namespace GeometricAlgebra

open Outcome Text

/-! ## §1. Signs. -/

namespace Fraction

/-- The fraction `x` is `c` without its sign. -/
structure IsMagnitude (c x : Fraction) : Prop where
  unsigned : x.Unsigned
  value_eq : c.value = if c.isNegative then -x.value else x.value

variable {c d x : Fraction}

/-- **A fraction is determined by its sign and its distance from zero.** -/
theorem IsMagnitude.eq (hc : c.Normal) (hd : d.Normal) (hcx : c.IsMagnitude x)
    (hdx : d.IsMagnitude x) (hsign : c.isNegative = d.isNegative) : c = d := by
  apply value_injective hc hd
  rw [hcx.value_eq, hdx.value_eq, hsign]

theorem abs_isMagnitude (hc : c.Normal) (h : c.abs = .ok x) : c.IsMagnitude x := by
  unfold abs at h
  cases hn : c.isNegative with
  | false =>
    rw [hn] at h
    obtain rfl := Except.ok.inj h
    have hnonneg : 0 ≤ c.num := by simpa [isNegative] using hn
    exact ⟨⟨hc, hnonneg⟩, by rw [hn]; rfl⟩
  | true =>
    rw [hn, if_pos rfl] at h
    have hneg : c.num < 0 := by simpa [isNegative] using hn
    unfold neg at h
    obtain ⟨n, hword, h⟩ := bind_eq_ok_iff.mp h
    obtain ⟨-, rfl⟩ := Word.ofInt_eq_ok_iff.mp hword
    obtain rfl := Except.ok.inj h
    refine ⟨⟨⟨hc.1, ?_⟩, ?_⟩, ?_⟩
    · show Int.gcd (-c.num) c.den = 1
      rw [Int.neg_gcd]
      exact hc.2
    · show 0 ≤ -c.num
      omega
    · rw [hn, if_pos rfl, value, value, Int.cast_neg, neg_div, neg_neg]

end Fraction

/-! ## §2. Polynomials over some variables. -/

namespace Polynomial

variable {form : TextForm} {N : String → Prop}

/-- All variables have names in `N`. -/
def Named (N : String → Prop) (p : Polynomial) : Prop :=
  ∀ t ∈ p.terms, ∀ name ∈ t.1.names, N name

/-- A polynomial in normal form, with variables named in `N`. -/
structure Legible (N : String → Prop) (p : Polynomial) : Prop where
  canonical : p.Canonical
  named : p.Named N

variable {p q : Polynomial}

theorem legible_zero : zero.Legible N := ⟨zero_denotes.1, by simp [Named, zero]⟩

/-- Multiplication by a number keeps the monomials. -/
theorem Legible.scale (hp : p.Legible N) {c : Fraction} (hc : c.Normal) :
    Ensures (p.scale c) (Legible N) := by
  intro q hq
  refine ⟨hp.canonical.scale hc q hq, ?_⟩
  unfold Polynomial.scale at hq
  split at hq
  · obtain rfl := Except.ok.inj hq
    exact legible_zero.named
  · have hterm : ∀ t ∈ p.terms, Ensures (scaleTerm c t) (fun u => ∀ v ∈ u.1.names, N v) :=
      fun t ht => ensures_bind fun _ => ensures_ok (hp.named t ht)
    exact ((Ensures.mapM hterm).bind fun us hus => ensures_ok (P := Named N) hus) q hq

/-- A sum has no other monomials than its summands. -/
theorem Legible.add (hp : p.Legible N) (hq : q.Legible N) : Ensures (p.add q) (Legible N) := by
  have hnormal : ∀ {r : Polynomial}, r.Legible N → SortedTerms.IsNormal
      (fun m => m.Sorted ∧ ∀ v ∈ m.names, N v) r.terms := fun hr =>
    ⟨hr.canonical.1, fun t ht =>
      ⟨⟨(hr.canonical.2 t ht).1, hr.named t ht⟩, (hr.canonical.2 t ht).2⟩⟩
  -- accumulation keeps any property of the keys, so also that their names are in `N`
  have hsum := SortedTerms.accumulateAll_yields (hnormal hp) (hnormal hq).2
  refine Yields.ensures (hsum.bind fun terms hterms => yields_pure ⟨?_, ?_⟩)
  · exact canonical_iff.mpr (hterms.1.mono fun _ hm => hm.1)
  · exact fun t ht => (hterms.1.2 t ht).1.2

theorem Legible.sub (hp : p.Legible N) (hq : q.Legible N) : Ensures (p.sub q) (Legible N) :=
  (hq.scale (Fraction.normal_ofInt (-1))).bind fun _ hopposite => hp.add hopposite

/-! ## §3. The text of a polynomial. -/

/-- The text of a term is that of a product. -/
theorem toList_renderMagnitude (form : TextForm) (m : Monomial) (x : Fraction) :
    (renderMagnitude form m x).toList = product form x m [] := by
  have hmonomial : (m.render form).toList = form.times.toList.intercalate (powerFactors form m) := by
    rw [Monomial.render, String.toList_intercalate, List.map_map]
    rfl
  unfold renderMagnitude product factors
  rw [List.append_nil]
  cases hone : m.isOne with
  | true =>
    simp [(powerFactors_eq_nil_iff form m).mpr hone]
  | false =>
    have hpowers : powerFactors form m ≠ [] := by
      intro h
      rw [(powerFactors_eq_nil_iff form m).mp h] at hone
      cases hone
    by_cases hx : x = Fraction.one
    · simp [hx, hpowers, hmonomial]
    · simp [hx, hmonomial, List.intercalate_cons_of_ne_nil hpowers]

theorem renderTerm_product {t : Monomial × Fraction} {piece : SignedText} (hc : t.2.Normal)
    (ht : ∀ name ∈ t.1.names, N name) (h : renderTerm form t = .ok piece) :
    ∃ x, t.2.IsMagnitude x ∧ Readable form N x t.1 [] ∧ piece.negative = t.2.isNegative
      ∧ piece.body.toList = product form x t.1 [] := by
  unfold renderTerm at h
  obtain ⟨x, habs, h⟩ := bind_eq_ok_iff.mp h
  obtain rfl := Except.ok.inj h
  have hx := Fraction.abs_isMagnitude hc habs
  exact ⟨x, hx, ⟨hx.unsigned, ht, by simp⟩, rfl, toList_renderMagnitude form t.1 x⟩

/-- The piece shows the term. -/
def Shows (form : TextForm) (N : String → Prop) (t : Monomial × Fraction) (piece : SignedText) :
    Prop :=
  (t.2.Normal ∧ ∀ name ∈ t.1.names, N name) ∧ renderTerm form t = .ok piece

theorem Legible.shows (hp : p.Legible N) {pieces : List SignedText}
    (h : p.terms.mapM (renderTerm form) = .ok pieces) :
    List.Forall₂ (Shows form N) p.terms pieces :=
  (List.forall₂_and_left _ _).mpr
    ⟨fun t ht => ⟨(hp.canonical.2 t ht).2, hp.named t ht⟩, mapM_eq_ok_iff.mp h⟩

theorem joiners : Joiners " + " " - " := by
  refine ⟨?_, ?_, by decide, by decide⟩
  · intro joiner hjoiner r
    rcases List.mem_pair.mp hjoiner with rfl | rfl
    · exact Or.inr ⟨[' '], '+', ' ' :: r, rfl, by simp [gaps], by simp [marks]⟩
    · exact Or.inr ⟨[' '], '-', ' ' :: r, rfl, by simp [gaps], by simp [marks]⟩
  · intro joiner hjoiner r hclosed
    rcases List.mem_pair.mp hjoiner with rfl | rfl <;> simp [Closed] at hclosed

theorem render_eq_ok {text : String} (h : p.render form = .ok text) :
    ∃ pieces, p.terms.mapM (renderTerm form) = .ok pieces
      ∧ text = SignedText.sum "" " + " " - " pieces := by
  unfold render at h
  obtain ⟨pieces, hpieces, h⟩ := bind_eq_ok_iff.mp h
  exact ⟨pieces, hpieces, (Except.ok.inj h).symm⟩

variable (hN : ∀ name, N name → IsIdentifier name)
include hN

/-- **A piece tells its term.** -/
theorem shows_leftUnique : Relator.LeftUnique (Shows form N) := by
  intro t u piece ht hu
  obtain ⟨⟨htn, hnames⟩, h⟩ := ht
  obtain ⟨⟨hun, hnames'⟩, h'⟩ := hu
  -- the body tells the monomial and the magnitude, the sign of the piece the rest
  obtain ⟨x, htx, hx, hsign, hbody⟩ := renderTerm_product htn hnames h
  obtain ⟨y, huy, hy, hsign', hbody'⟩ := renderTerm_product hun hnames' h'
  obtain ⟨rfl, hmonomial, -⟩ := hx.product_injective hN hy (hbody.symm.trans hbody')
  exact Prod.ext hmonomial (htx.eq htn hun huy (hsign.symm.trans hsign'))

theorem isPiece_of_shows {terms : List (Monomial × Fraction)} {pieces : List SignedText}
    (h : List.Forall₂ (Shows form N) terms pieces) :
    ∀ piece ∈ pieces, IsPiece piece.body.toList := by
  induction h with
  | nil => simp
  | cons hshows _ ih =>
    refine List.forall_mem_cons.mpr ⟨?_, ih⟩
    obtain ⟨x, -, hx, -, hbody⟩ := renderTerm_product hshows.1.1 hshows.1.2 hshows.2
    rw [hbody]
    exact hx.piece hN

/-- **The text of a polynomial tells the polynomial**, also in front of a parenthesis. -/
theorem text_delimited (hp : p.Legible N) (hq : q.Legible N) (hp0 : p.terms ≠ [])
    (hq0 : q.terms ≠ []) {text text' : String} (h : p.render form = .ok text)
    (h' : q.render form = .ok text') {r s : List Char} (hr : Closed r) (hs : Closed s)
    (heq : text.toList ++ r = text'.toList ++ s) : p = q ∧ r = s := by
  obtain ⟨pieces, hpieces, rfl⟩ := render_eq_ok h
  obtain ⟨pieces', hpieces', rfl⟩ := render_eq_ok h'
  have hshows := hp.shows hpieces
  have hshows' := hq.shows hpieces'
  have hsame : pieces = pieces' ∧ r = s := by
    cases pieces with
    | nil => exact absurd ((List.forall₂_nil_right_iff).mp hshows) hp0
    | cons piece rest =>
      cases pieces' with
      | nil => exact absurd ((List.forall₂_nil_right_iff).mp hshows') hq0
      | cons piece' rest' =>
        exact SignedText.sum_delimited joiners isPiece_delimited hr hs (fun _ hu => hu.unsigned)
          (isPiece_of_shows hN hshows) (isPiece_of_shows hN hshows') heq
  obtain ⟨rfl, hend⟩ := hsame
  have hterms := (shows_leftUnique hN).forall₂ hshows hshows'
  cases p
  cases q
  exact ⟨congrArg _ hterms, hend⟩

end Polynomial

end GeometricAlgebra
