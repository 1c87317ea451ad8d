/-
  GeometricAlgebra.Proofs.TypesetPowers
  ────────────────────────────────
  **WHICH POWERS ARE TYPESET AS THEY ARE.**

  Exponents are written without braces, so from ten on only their first digit is raised.
  What is seen then of a monomial has a lower degree,

      a¹²   is seen as   a¹ · 2.

  Such a monomial is lost in the reading of the whole polynomial: among the monomials with
  a long exponent take one of highest degree.  The others with a long exponent are seen in
  a lower degree, and those with short exponents only are seen as they are, so none of them
  is seen as this one.

  Main result:
    * `Polynomial.latex_read_back_iff` — the LaTeX text of a polynomial is read back as the
      polynomial iff all its exponents have one digit.
-/
import GeometricAlgebra.Proofs.Coefficients
import GeometricAlgebra.Proofs.LatexReader

namespace GeometricAlgebra

open Outcome Text

/-! ## §1. Monomials. -/

namespace Latex

theorem superscript_le (n : Nat) : superscript n ≤ n := by
  by_cases h : n < 10
  · rw [superscript_of_lt h]
  · have hlt := superscript_lt n
    omega

variable {powers : List (String × Nat)}

/-- Powers of one digit are seen as they are. -/
theorem seenPowers_of_lt (h : ∀ t ∈ powers, t.2 < 10) :
    seenPowers powers = ⟨Monomial.expand powers, 1⟩ := by
  induction powers with
  | nil => rfl
  | cons t powers ih =>
    obtain ⟨ht, hpowers⟩ := List.forall_mem_cons.mp h
    have hrest : seenPowers (t :: powers)
        = Factor.mul ⟨List.replicate (superscript t.2) t.1, onLine t.2⟩ (seenPowers powers) := rfl
    rw [hrest, ih hpowers, superscript_of_lt ht, onLine_of_lt ht]
    simp [Factor.mul, Monomial.expand]

/-- The degree that is seen. -/
theorem length_seenPowers (powers : List (String × Nat)) :
    (seenPowers powers).names.length = (powers.map fun t => superscript t.2).sum := by
  induction powers with
  | nil => rfl
  | cons t powers ih =>
    have hrest : (seenPowers (t :: powers)).names
        = List.replicate (superscript t.2) t.1 ++ (seenPowers powers).names := rfl
    rw [hrest, List.length_append, List.length_replicate, ih, List.map_cons, List.sum_cons]

end Latex

open Latex

namespace Monomial

variable {m : Monomial}

/-- All exponents have one digit. -/
def SingleDigit (m : Monomial) : Prop := ∀ t ∈ m.powers, t.2 < 10

instance (m : Monomial) : Decidable m.SingleDigit :=
  inferInstanceAs (Decidable (∀ t ∈ m.powers, t.2 < 10))

/-- A monomial with short exponents is seen as it is. -/
theorem SingleDigit.seen {t : Monomial × Fraction} (h : t.1.SingleDigit) (ht : t.1.Sorted) :
    Latex.seen t = (t.1, t.2.value) := by
  unfold Latex.seen
  rw [seenPowers_of_lt h, expand_powers, ← ht, mul_one]

/-- **A monomial with a long exponent is seen in a lower degree.** -/
theorem degree_seen_lt {t : Monomial × Fraction} (h : ¬ t.1.SingleDigit) :
    (Latex.seen t).1.degree < t.1.degree := by
  have hlong : ∃ power ∈ t.1.powers, superscript power.2 < power.2 := by
    unfold SingleDigit at h
    push Not at h
    obtain ⟨power, hpower, hten⟩ := h
    exact ⟨power, hpower, (superscript_lt power.2).trans_le hten⟩
  unfold Latex.seen
  rw [degree_ofNames, length_seenPowers, degree_eq_sum]
  exact List.sum_lt_sum _ _ (fun t _ => superscript_le t.2) hlong

end Monomial

/-! ## §2. Polynomials. -/

namespace Polynomial

open SortedTerms

variable {p : Polynomial}

/-- All exponents of all monomials have one digit. -/
def SingleDigits (p : Polynomial) : Prop := ∀ t ∈ p.terms, t.1.SingleDigit

instance (p : Polynomial) : Decidable p.SingleDigits :=
  inferInstanceAs (Decidable (∀ t ∈ p.terms, t.1.SingleDigit))

/-- The coefficient of a monomial that is not among the terms. -/
theorem ringCoeff_valueOf_eq_zero {m : Monomial} (hm : m.Sorted) {terms : List (Monomial × ℚ)}
    (hterms : ∀ t ∈ terms, t.1.Sorted ∧ t.1 ≠ m) : ringCoeff m (valueOf terms) = 0 := by
  induction terms with
  | nil => exact map_zero _
  | cons t terms ih =>
    obtain ⟨⟨hsorted, hne⟩, hrest⟩ := List.forall_mem_cons.mp hterms
    have hsum : valueOf (t :: terms) = ringTerm t.1 t.2 + valueOf terms := List.sum_cons
    rw [hsum, map_add, ringCoeff_ringTerm hm hsorted, if_neg hne, ih hrest, add_zero]

/-- Terms with short exponents are seen as they are. -/
theorem SingleDigits.valueOf_seen (h : p.SingleDigits) (hp : p.Canonical) :
    valueOf (p.terms.map seen) = p.value := by
  unfold valueOf value reading
  rw [List.map_map]
  refine congrArg List.sum (List.map_congr_left fun t ht => ?_)
  show ringTerm (seen t).1 (seen t).2 = _
  rw [(h t ht).seen (hp.2 t ht).1]
  rfl

/-- **A monomial with a long exponent is not seen anywhere**, if its degree is highest. -/
theorem singleDigits_of_valueOf_seen (hp : p.Canonical)
    (h : valueOf (p.terms.map seen) = p.value) : p.SingleDigits := by
  by_contra hlong
  have hnonempty : (p.terms.toFinset.filter fun t => ¬ t.1.SingleDigit).Nonempty := by
    unfold SingleDigits at hlong
    push Not at hlong
    obtain ⟨t, ht, hdigit⟩ := hlong
    exact ⟨t, Finset.mem_filter.mpr ⟨List.mem_toFinset.mpr ht, hdigit⟩⟩
  obtain ⟨top, htop, hhighest⟩ := Finset.exists_max_image _ (fun t => t.1.degree) hnonempty
  obtain ⟨hmem, hdigit⟩ := Finset.mem_filter.mp htop
  have hmem : top ∈ p.terms := List.mem_toFinset.mp hmem
  have hunseen : ∀ u ∈ p.terms.map seen, u.1.Sorted ∧ u.1 ≠ top.1 := by
    intro u hu
    obtain ⟨t, ht, rfl⟩ := List.mem_map.mp hu
    refine ⟨Monomial.sorted_ofNames _, fun heq => ?_⟩
    by_cases hshort : t.1.SingleDigit
    · rw [hshort.seen (hp.2 t ht).1] at heq
      exact hdigit (heq ▸ hshort)
    · have hlower := Monomial.degree_seen_lt hshort
      have hle := hhighest t (Finset.mem_filter.mpr ⟨List.mem_toFinset.mpr ht, hshort⟩)
      have hdegree : (seen t).1.degree = top.1.degree := congrArg Monomial.degree heq
      omega
  have hzero := ringCoeff_valueOf_eq_zero (hp.2 top hmem).1 hunseen
  have hkeys : ∀ t ∈ p.terms, t.1.Sorted := fun t ht => (hp.2 t ht).1
  rw [h, value, coord_reading (fun _ _ hk hk' => ringCoeff_ringTerm hk hk') hkeys (hkeys top hmem)]
    at hzero
  exact total_ne_zero_of_mem (canonical_iff.mp hp) hmem hzero

/-- **LATEX POWERS**: a polynomial whose variables are identifiers and whose coefficients are
fractions of words with no numerator −2⁶³ has a LaTeX text, and that text, in which a
circumflex raises the next token only, is read back as the polynomial iff every exponent of
every monomial has one digit.

Exponents have no bound here (`Monomial.powers`).  Where they are 32-bit words, the text of a
polynomial that repeats a name 2³² times in a monomial is the only one missing; it would be
on the side of the long exponents. -/
theorem latex_read_back_iff (hp : p.Legible IsIdentifier) (hwords : p.Representable)
    (hleast : ¬ p.HasLeast) :
    ∃ text, p.render .latex = .ok text ∧ (Reads text p ↔ p.SingleDigits) := by
  obtain ⟨text, htext⟩ := hwords.exists_text hleast .latex
  refine ⟨text, htext, ?_⟩
  by_cases hp0 : p = zero
  · obtain rfl : "0" = text := by
      rw [hp0] at htext
      exact Except.ok.inj htext
    refine iff_of_true ⟨_, read_zero, ?_⟩ ?_
    · rw [hp0]
      show ringTerm Monomial.one 0 + 0 = 0
      rw [map_zero, add_zero]
    · rw [hp0]
      exact nofun
  · have hread := read_render hp hp0 htext
    constructor
    · rintro ⟨terms, hterms, hvalue⟩
      rw [hread] at hterms
      obtain rfl := Option.some.inj hterms
      exact singleDigits_of_valueOf_seen hp.canonical hvalue
    · exact fun h => ⟨_, hread, h.valueOf_seen hp.canonical⟩

/-- The polynomial `1/2 − x⁹ y²`. -/
def shortPowers : Polynomial :=
  ⟨[(⟨[]⟩, ⟨1, 2⟩), (⟨List.replicate 9 "x" ++ ["y", "y"]⟩, ⟨-1, 1⟩)]⟩

/-- The polynomial `1/2 − x¹²`. -/
def longPower : Polynomial := ⟨[(⟨[]⟩, ⟨1, 2⟩), (⟨List.replicate 12 "x"⟩, ⟨-1, 1⟩)]⟩

/-- The text of the first one is read back, and that of the second one as `1/2 − 2 x`. -/
theorem latex_read_back_iff_short :
    (shortPowers.Legible IsIdentifier ∧ shortPowers.Representable ∧ ¬ shortPowers.HasLeast)
      ∧ (longPower.Legible IsIdentifier ∧ longPower.Representable ∧ ¬ longPower.HasLeast)
      ∧ Reads "\\frac\x7b1\x7d\x7b2\x7d - \x7bx\x7d^9 \x7by\x7d^2" shortPowers
      ∧ Latex.read "\\frac\x7b1\x7d\x7b2\x7d - \x7bx\x7d^12" = some [(⟨[]⟩, 1 / 2), (⟨["x"]⟩, -2)]
      ∧ ¬ Reads "\\frac\x7b1\x7d\x7b2\x7d - \x7bx\x7d^12" longPower := by
  have hs : shortPowers.Legible IsIdentifier := ⟨by decide, by unfold Named; decide⟩
  have hsw : shortPowers.Representable := by decide
  have hsl : ¬ shortPowers.HasLeast := by decide
  have hl : longPower.Legible IsIdentifier := ⟨by decide, by unfold Named; decide⟩
  have hlw : longPower.Representable := by decide
  have hll : ¬ longPower.HasLeast := by decide
  have hshort : shortPowers.render .latex = .ok "\\frac\x7b1\x7d\x7b2\x7d - \x7bx\x7d^9 \x7by\x7d^2" := by
    decide +kernel
  have hlong : longPower.render .latex = .ok "\\frac\x7b1\x7d\x7b2\x7d - \x7bx\x7d^12" := by
    decide +kernel
  obtain ⟨text, htext, hreads⟩ := latex_read_back_iff hs hsw hsl
  obtain ⟨text', htext', hreads'⟩ := latex_read_back_iff hl hlw hll
  obtain rfl := Except.ok.inj (hshort.symm.trans htext)
  obtain rfl := Except.ok.inj (hlong.symm.trans htext')
  exact ⟨⟨hs, hsw, hsl⟩, ⟨hl, hlw, hll⟩, hreads.mpr (by decide), by decide +kernel,
    fun h => absurd (hreads'.mp h) (by decide)⟩

/-- The polynomial `a¹⁰`. -/
def tenth : Polynomial := ⟨[(⟨List.replicate 10 "a"⟩, ⟨1, 1⟩)]⟩

/-- The text of `a¹⁰` raises the digit 1 and leaves the factor 0 on the line. -/
theorem tenth_read_as_zero :
    tenth.render .latex = .ok "\x7ba\x7d^10" ∧ Latex.read "\x7ba\x7d^10" = some [(⟨["a"]⟩, 0)]
      ∧ ¬ ∀ p : Polynomial, p.Legible IsIdentifier → p.Representable → ¬ p.HasLeast →
        ∃ text, p.render .latex = .ok text ∧ Reads text p := by
  have htext : tenth.render .latex = .ok "\x7ba\x7d^10" := by decide +kernel
  have hread : Latex.read "\x7ba\x7d^10" = some [(⟨["a"]⟩, 0)] := by decide +kernel
  have htenth : tenth.Legible IsIdentifier := ⟨by decide, by unfold Named; decide⟩
  refine ⟨htext, hread, fun h => ?_⟩
  obtain ⟨text, htext', terms, hterms, hvalue⟩ := h tenth htenth (by decide) (by decide)
  obtain rfl := Except.ok.inj (htext.symm.trans htext')
  obtain rfl := Option.some.inj (hread.symm.trans hterms)
  -- what is read stands for zero
  have hzero : valueOf [((⟨["a"]⟩ : Monomial), (0 : ℚ))] = 0 := by
    show ringTerm _ 0 + 0 = 0
    rw [map_zero, add_zero]
  rw [hzero] at hvalue
  exact absurd ((isZero_iff_value htenth.canonical).mpr hvalue.symm) (by decide)

end Polynomial

end GeometricAlgebra
