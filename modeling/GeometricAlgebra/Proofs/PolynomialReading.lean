/-
  GeometricAlgebra.Proofs.PolynomialReading
  ────────────────────────────────
  **DIFFERENT POLYNOMIALS HAVE DIFFERENT TEXTS.**

  The text of a polynomial other than zero tells its pieces, and each piece its term
  (`Polynomial.text_delimited`).  The text `0` of zero could itself be the one piece of
  such a polynomial; but a piece `0` shows a coefficient 0, and that is not stored.

  Main result:
    * `Polynomial.text_tells_polynomial` — in both notations, a polynomial over identifiers
      that has a text is determined by it.
-/
import GeometricAlgebra.Proofs.PolynomialText
import GeometricAlgebra.Proofs.Refusals

namespace GeometricAlgebra

open Outcome Text

namespace Polynomial

variable {form : TextForm} {p q : Polynomial} {text : String}

/-! ## §1. Polynomials that have a text. -/

/-- **Where the least word is no numerator there is a text.** -/
theorem Representable.exists_text (hp : p.Representable) (hleast : ¬ p.HasLeast)
    (form : TextForm) : ∃ text, p.render form = .ok text := by
  cases render_yields form p with
  | answer text htext _ => exact ⟨text, htext⟩
  | overflow hover => exact absurd ((hp.render_eq_overflow_iff form).mp hover) hleast

/-! ## §2. The text of zero. -/

section Reading

variable {N : String → Prop} (hN : ∀ name, N name → IsIdentifier name)

/-- The digit `0` is the product of the number 0 alone. -/
theorem product_zero (form : TextForm) : product form .zero .one [] = "0".toList := by
  cases form <;> decide

theorem readable_zero : Readable form N .zero .one [] :=
  ⟨⟨Fraction.normal_ofInt 0, le_refl 0⟩, nofun, nofun⟩

include hN

/-- A term whose piece is `0` has the coefficient zero. -/
theorem isZero_of_shows {t : Monomial × Fraction} (h : Shows form N t ⟨false, "0"⟩) :
    t.2.isZero = true := by
  obtain ⟨⟨hnormal, hnames⟩, hrender⟩ := h
  obtain ⟨x, hx, hreadable, -, hbody⟩ := renderTerm_product hnormal hnames hrender
  obtain ⟨rfl, -, -⟩ := hreadable.product_injective hN readable_zero
    (hbody.symm.trans (product_zero form).symm)
  rw [Fraction.isZero_iff_value hnormal, hx.value_eq]
  have hzero : Fraction.zero.value = 0 := by simp [Fraction.zero, Fraction.ofInt, Fraction.value]
  rw [hzero, neg_zero, ite_self]

/-- **No other polynomial has the text of zero.** -/
theorem Legible.text_ne_zero (hp : p.Legible N) (hp0 : p ≠ zero) (h : p.render form = .ok text) :
    text ≠ "0" := by
  intro hzero
  obtain ⟨pieces, hpieces, hsum⟩ := render_eq_ok h
  have hshows := hp.shows hpieces
  have hpiece := isPiece_of_shows hN hshows
  obtain ⟨terms⟩ := p
  cases hshows with
  | nil => exact hp0 rfl
  | @cons t piece terms pieces hshow hrest =>
    -- the text `0` is also the sum of one piece
    have hdigit : ∀ piece ∈ [(⟨false, "0"⟩ : SignedText)], IsPiece piece.body.toList := by
      intro piece hpiece
      rw [List.mem_singleton.mp hpiece, ← product_zero form]
      exact readable_zero.piece hN
    have hsingle : SignedText.sum "" " + " " - " [⟨false, "0"⟩] = "0" := by decide
    obtain ⟨hsame, -⟩ := SignedText.sum_delimited (r := []) (s := []) joiners isPiece_delimited
      (Or.inl rfl) (Or.inl rfl) (fun _ hu => hu.unsigned) hpiece hdigit
      (by rw [← hsum, hzero, hsingle])
    rw [(List.cons.inj hsame).1] at hshow
    have hstored := hp.canonical.1.2 t List.mem_cons_self
    have h0 : t.2.isZero = true := isZero_of_shows hN hshow
    exact Bool.eq_false_iff.mp hstored h0

/-- **A text has one reading.** -/
theorem Legible.eq_of_render (hp : p.Legible N) (hq : q.Legible N) (h : p.render form = .ok text)
    (h' : q.render form = .ok text) : p = q := by
  have hzero : zero.render form = .ok "0" := rfl
  by_cases hp0 : p = zero
  · by_contra hne
    have hq0 : q ≠ zero := fun hq0 => hne (hp0.trans hq0.symm)
    rw [hp0, hzero] at h
    exact hq.text_ne_zero hN hq0 h' (Except.ok.inj h).symm
  · by_cases hq0 : q = zero
    · rw [hq0, hzero] at h'
      exact absurd (Except.ok.inj h').symm (hp.text_ne_zero hN hp0 h)
    · have hterms : ∀ {r : Polynomial}, r ≠ zero → r.terms ≠ [] :=
        fun hr hnil => hr (congrArg Polynomial.mk hnil)
      exact (text_delimited hN hp hq (hterms hp0) (hterms hq0) h h' (Or.inl rfl) (Or.inl rfl) rfl).1

end Reading

/-! ## §3. Both notations. -/

section Texts

variable (hp : p.Legible IsIdentifier) (hq : q.Legible IsIdentifier) (hpw : p.Representable)
  (hqw : q.Representable) (hpl : ¬ p.HasLeast) (hql : ¬ q.HasLeast)
include hp hq hpw hqw hpl hql

/-- **POLYNOMIAL TEXT IS UNAMBIGUOUS**: in both notations, polynomials whose variables are
identifiers and whose coefficients are fractions of words with no numerator −2⁶³ have a
text, and two of them have the same one only if they are the same polynomial.

No bound on exponents is asked for, because `Monomial.powers` counts without one.  Where
exponents are 32-bit words the text exists as long as no monomial repeats a name 2³² times
(`Monomial.Sorted.countPowers_eq`), and it is this text. -/
theorem text_tells_polynomial (form : TextForm) :
    (∃ text, p.render form = .ok text) ∧ (∃ text, q.render form = .ok text)
      ∧ (p.render form = q.render form → p = q) := by
  obtain ⟨text, htext⟩ := hpw.exists_text hpl form
  obtain ⟨text', htext'⟩ := hqw.exists_text hql form
  refine ⟨⟨text, htext⟩, ⟨text', htext'⟩, fun hsame => ?_⟩
  rw [htext'] at hsame
  exact hp.eq_of_render (fun _ h => h) hq hsame htext'

end Texts

/-- The polynomial `−(5/3) x³ x_1 + y`. -/
def cubed : Polynomial := ⟨[(⟨["x", "x", "x", "x_1"]⟩, ⟨-5, 3⟩), (⟨["y"]⟩, ⟨1, 1⟩)]⟩

/-- The polynomial `−(5/3) x³ x1 + y`. -/
def cubedAlike : Polynomial := ⟨[(⟨["x", "x", "x", "x1"]⟩, ⟨-5, 3⟩), (⟨["y"]⟩, ⟨1, 1⟩)]⟩

/-- The two texts differ in an underscore. -/
theorem text_tells_polynomial_cubed :
    (cubed.Legible IsIdentifier ∧ cubedAlike.Legible IsIdentifier)
      ∧ (cubed.Representable ∧ cubedAlike.Representable ∧ ¬ cubed.HasLeast ∧ ¬ cubedAlike.HasLeast)
      ∧ cubed.render .latex = .ok "-\\frac\x7b5\x7d\x7b3\x7d \x7bx\x7d^3 x_1 + y"
      ∧ cubed.render .plain = .ok "-5/3 * x**3 * x_1 + y"
      ∧ ∀ form, cubed.render form ≠ cubedAlike.render form := by
  have hp : cubed.Legible IsIdentifier := ⟨by decide, by unfold Named; decide⟩
  have hq : cubedAlike.Legible IsIdentifier := ⟨by decide, by unfold Named; decide⟩
  have hpw : cubed.Representable := by decide
  have hqw : cubedAlike.Representable := by decide
  have hpl : ¬ cubed.HasLeast := by decide
  have hql : ¬ cubedAlike.HasLeast := by decide
  refine ⟨⟨hp, hq⟩, ⟨hpw, hqw, hpl, hql⟩, by decide, by decide, fun form hsame => ?_⟩
  obtain ⟨-, -, hinjective⟩ := text_tells_polynomial hp hq hpw hqw hpl hql form
  exact absurd (hinjective hsame) (by decide)

end Polynomial

end GeometricAlgebra
