/-
  GeometricAlgebra.Proofs.Refusals
  ────────────────────────────────
  **A REFUSED RECIPROCAL IS QUOTED.**

  Only a single constant term has a reciprocal.  Every other polynomial is refused, and
  the refusal quotes it: the whole polynomial is written before anything is answered.
  The sign of a coefficient stands in front of it, so what is written is its distance
  from zero, and that is a word for all words but the least,

      |c|  is a word   iff   c ≠ −2⁶³.

  A polynomial with a coefficient over that word has no text; it is not refused, but
  overflows.

  Main result:
    * `Polynomial.refused_reciprocal` — how each reciprocal that does not exist fails,
      and with it the inverse of each multivector whose norm has that scalar part.
-/
import GeometricAlgebra.Proofs.Inverses

namespace GeometricAlgebra

open Outcome

/-! ## §1. The least word. -/

/-- Of the words, the least alone has no opposite. -/
theorem Word.fits_neg_iff {n : Int} (h : Fits n) : Fits (-n) ↔ n ≠ least := by
  unfold Fits least greatest at *
  omega

/-- **The distance from zero overflows for the least word only.** -/
theorem Fraction.abs_eq_overflow_iff {c : Fraction} (h : Word.Fits c.num) :
    c.abs = .error .overflow ↔ c.num = Word.least := by
  by_cases hopposite : Word.Fits (-c.num)
  · obtain ⟨x, hx⟩ : ∃ x, c.abs = .ok x := by
      unfold abs
      split
      · exact ⟨_, by rw [neg, Word.ofInt_of_fits hopposite]; rfl⟩
      · exact ⟨c, rfl⟩
    rw [hx]
    exact iff_of_false nofun ((Word.fits_neg_iff h).mp hopposite)
  · have hleast : c.num = Word.least := by
      by_contra hne
      exact hopposite ((Word.fits_neg_iff h).mpr hne)
    have hnegative : c.isNegative = true := by
      rw [isNegative, hleast]
      rfl
    rw [abs, if_pos hnegative, neg, Word.ofInt_of_not_fits hopposite]
    exact iff_of_true rfl hleast

namespace Polynomial

variable {p : Polynomial}

/-! ## §2. The text of a polynomial. -/

/-- All coefficients are fractions of words. -/
def Representable (p : Polynomial) : Prop :=
  ∀ t ∈ p.terms, Word.Fits t.2.num ∧ Word.Fits t.2.den

/-- The numerator of some coefficient is the least word. -/
def HasLeast (p : Polynomial) : Prop := ∃ t ∈ p.terms, t.2.num = Word.least

instance (p : Polynomial) : Decidable p.Representable := inferInstanceAs (Decidable (∀ t ∈ p.terms, _))

instance (p : Polynomial) : Decidable p.HasLeast := inferInstanceAs (Decidable (∃ t ∈ p.terms, _))

theorem renderTerm_eq_overflow_iff (form : TextForm) {t : Monomial × Fraction}
    (h : Word.Fits t.2.num) : renderTerm form t = .error .overflow ↔ t.2.num = Word.least := by
  rw [← Fraction.abs_eq_overflow_iff h, renderTerm]
  cases t.2.abs with
  | error failure =>
    exact ⟨fun h => congrArg _ (Except.error.inj h), fun h => congrArg _ (Except.error.inj h)⟩
  | ok magnitude => exact iff_of_false nofun nofun

/-- **A text overflows iff the least word is among the numerators.** -/
theorem Representable.render_eq_overflow_iff (hp : p.Representable) (form : TextForm) :
    p.render form = .error .overflow ↔ p.HasLeast := by
  have hterm : ∀ t ∈ p.terms, renderTerm form t = .error .overflow ↔ t.2.num = Word.least :=
    fun t ht => renderTerm_eq_overflow_iff form (hp t ht).1
  unfold render
  rcases mapM_cases (renderTerm form) p.terms with ⟨pieces, hpieces⟩ | ⟨t, ht, failure, hstep, hloop⟩
  · rw [hpieces]
    refine iff_of_false nofun fun hleast => ?_
    obtain ⟨t, ht, hnum⟩ := hleast
    obtain ⟨piece, hpiece⟩ := exists_ok_of_mapM hpieces ht
    rw [(hterm t ht).mpr hnum] at hpiece
    cases hpiece
  · obtain rfl := (renderTerm_yields form t).failure_eq hstep
    rw [hloop]
    exact iff_of_true rfl ⟨t, ht, (hterm t ht).mp hstep⟩

/-! ## §3. The refusal. -/

/-- How the reciprocal of a polynomial fails that has none. -/
structure Refusal (p : Polynomial) (failure : Failure) : Prop where
  /-- The text quotes the polynomial. -/
  quoted : ¬ p.HasLeast → ∃ text, p.render .plain = .ok text ∧ failure = .notInvertible text
  /-- A polynomial that has no text cannot be quoted. -/
  unquotable : p.HasLeast → failure = .overflow

theorem Representable.exists_refusal (hp : p.Representable) :
    ∃ failure, p.Refusal failure ∧ recip.refuse p = .error failure := by
  have hover := hp.render_eq_overflow_iff .plain
  unfold recip.refuse
  cases render_yields .plain p with
  | answer text htext _ =>
    refine ⟨.notInvertible text, ⟨fun _ => ⟨text, htext, rfl⟩, fun hleast => ?_⟩, by rw [htext]; rfl⟩
    rw [hover.mpr hleast] at htext
    cases htext
  | overflow htext =>
    refine ⟨.overflow, ⟨fun hleast => ?_, fun _ => rfl⟩, by rw [htext]; rfl⟩
    exact absurd (hover.mp htext) hleast

/-- **A RECIPROCAL THAT DOES NOT EXIST FAILS AT ITS TEXT**: the reciprocal of every
polynomial that is not one constant term, zero included, and the inverse of every
multivector whose norm has it as its scalar part, is refused as not invertible iff the
numerator −2⁶³ does not occur in it; otherwise both overflow. -/
theorem refused_reciprocal (hp : p.Representable) (hterms : ∀ c, p.terms ≠ [(Monomial.one, c)]) :
    ∃ failure, p.Refusal failure ∧ p.recip = .error failure
      ∧ ∀ a norm : Multivector, a.mulRev = .ok norm → norm.scalarPart = p →
        a.inverse = .error failure := by
  obtain ⟨failure, hrefusal, hrefuse⟩ := hp.exists_refusal
  have hrecip : p.recip = .error failure := by rw [recip_eq_refuse hterms, hrefuse]
  refine ⟨failure, hrefusal, hrecip, fun a norm hnorm hpart => ?_⟩
  exact Multivector.inverse_eq_error hnorm (by rw [hpart, hrecip])

/-- The polynomial `1 + a²`. -/
def onePlusSquare : Polynomial := ⟨[(⟨[]⟩, ⟨1, 1⟩), (⟨["a", "a"]⟩, ⟨1, 1⟩)]⟩

/-- The polynomial `−2⁶³ a²`. -/
def leastSquare : Polynomial := ⟨[(⟨["a", "a"]⟩, ⟨Word.least, 1⟩)]⟩

/-- The multivector `1 + a x`, whose norm `1 + a² + 2a x` has the scalar part `1 + a²`. -/
def onePlusAX : Multivector := ⟨[([], .one), ([2], .var "a")]⟩

/-- The multivector `2³¹ a e₋ + 2³¹ a e₋xy`, whose norm is `−2⁶³ a²`. -/
def leastRoot : Multivector :=
  ⟨[([0], ⟨[(⟨["a"]⟩, ⟨2147483648, 1⟩)]⟩), ([0, 2, 3], ⟨[(⟨["a"]⟩, ⟨2147483648, 1⟩)]⟩)]⟩

/-- The inverse of `1 + a x` is refused under the text of `1 + a²`, and that of
`2³¹ a e₋ + 2³¹ a e₋xy` overflows. -/
theorem refused_reciprocal_squares : onePlusSquare.Representable ∧ leastSquare.Representable
    ∧ onePlusSquare.recip = .error (.notInvertible "1 + a**2")
    ∧ onePlusAX.inverse = .error (.notInvertible "1 + a**2")
    ∧ leastRoot.inverse = .error .overflow := by
  have hone : onePlusSquare.Representable := by decide
  have hleast : leastSquare.Representable := by decide
  have hnorm : onePlusAX.mulRev
      = .ok ⟨[([], onePlusSquare), ([2], ⟨[(⟨["a"]⟩, ⟨2, 1⟩)]⟩)]⟩ := by decide
  have hnorm' : leastRoot.mulRev = .ok ⟨[([], leastSquare)]⟩ := by decide
  obtain ⟨failure, hrefusal, hrecip, hinverse⟩ := refused_reciprocal hone nofun
  obtain ⟨text, htext, rfl⟩ := hrefusal.quoted (by decide)
  obtain ⟨failure, hrefusal', -, hinverse'⟩ := refused_reciprocal hleast nofun
  obtain rfl := hrefusal'.unquotable (by decide)
  obtain rfl : text = "1 + a**2" := Except.ok.inj (htext.symm.trans (by decide))
  exact ⟨hone, hleast, hrecip, hinverse _ _ hnorm rfl, hinverse' _ _ hnorm' rfl⟩

/-- `−2⁶³ a` has no reciprocal and is not refused as such. -/
theorem least_not_refused : ¬ ∀ p : Polynomial, p.Representable →
    (∀ c, p.terms ≠ [(Monomial.one, c)]) → ∃ text, p.recip = .error (.notInvertible text) := by
  intro h
  obtain ⟨text, htext⟩ := h ⟨[(⟨["a"]⟩, ⟨Word.least, 1⟩)]⟩ (by decide) nofun
  have hover : Polynomial.recip ⟨[(⟨["a"]⟩, ⟨Word.least, 1⟩)]⟩ = .error .overflow := by decide
  rw [hover] at htext
  cases htext

end Polynomial

end GeometricAlgebra
