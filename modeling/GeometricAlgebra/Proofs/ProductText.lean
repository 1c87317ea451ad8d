/-
  GeometricAlgebra.Proofs.ProductText
  ────────────────────────────────
  **A PRODUCT CAN BE READ OFF ITS TEXT.**

  A term is a product of factors: a number, powers of variables and, in the text
  of a multivector, the name of a blade.  Factors are free of blanks, so the
  product tells them (`Text.intercalate_injective`), and a factor tells what it is
  by its first character.  Each kind of factor is written injectively, and a number
  is left out only if it is 1 and something else remains.

  Main results:
    * `Fraction.render_injective`, `Monomial.renderPower_injective` — numbers and
      powers can be read.
    * `Text.Readable.product_injective` — so can their products, with factors of a
      third kind behind them.
-/
import GeometricAlgebra.Polynomial.Text
import GeometricAlgebra.Proofs.Delimiters

namespace GeometricAlgebra

namespace Text

/-! ## §1. Identifiers and factors. -/

/-- True of letters; beyond ASCII every character counts as one. -/
def isLetter (c : Char) : Bool := c.isAlpha || decide (127 < c.toNat)

/-- True of letters, digits and the underscore. -/
def isNameChar (c : Char) : Bool := isLetter c || c.isDigit || c == '_'

theorem isLetter_of_isDigit {c : Char} (h : c.isDigit) : isLetter c = false := by
  have hrange : 48 ≤ c.toNat ∧ c.toNat ≤ 57 := Char.isDigit_iff_toNat.mp h
  simp only [isLetter, Char.isAlpha, Char.isUpper, Char.isLower, Bool.or_eq_false_iff,
    Bool.and_eq_false_iff, decide_eq_false_iff_not, ge_iff_le, UInt32.le_iff_toNat_le,
    Char.toNat_val, Char.reduceVal, UInt32.reduceToNat]
  omega

/-- A letter followed by letters, digits and underscores. -/
def IsIdentifier (name : String) : Prop :=
  name.toList.head?.any isLetter ∧ name.toList.all isNameChar

instance (name : String) : Decidable (IsIdentifier name) := inferInstanceAs (Decidable (_ ∧ _))

theorem IsIdentifier.exists_cons {name : String} (h : IsIdentifier name) :
    ∃ c cs, name.toList = c :: cs ∧ isLetter c := by
  cases hname : name.toList with
  | nil =>
    have hany := h.1
    rw [hname] at hany
    cases hany
  | cons c cs =>
    have hany := h.1
    rw [hname] at hany
    exact ⟨c, cs, rfl, hany⟩

theorem IsIdentifier.chars {name : String} (h : IsIdentifier name) :
    ∀ c ∈ name.toList, isNameChar c := List.all_eq_true.mp h.2

/-- Other characters do not occur in identifiers. -/
theorem IsIdentifier.notMem {name : String} (h : IsIdentifier name) {c : Char}
    (hc : isNameChar c = false) : c ∉ name.toList := by
  intro hmem
  rw [h.chars c hmem] at hc
  cases hc

/-- The characters of factors. -/
def isFactorChar (c : Char) : Bool := isNameChar c || ['*', '/', '\x7b', '\x7d', '^', '\\'].contains c

/-- A factor of a product, as characters: it is free of blanks and marks and does not
end with a gap. -/
def IsFactor (w : List Char) : Prop :=
  w ≠ [] ∧ w.all isFactorChar ∧ w.getLast? ≠ some '\\'

instance (w : List Char) : Decidable (IsFactor w) := inferInstanceAs (Decidable (_ ∧ _ ∧ _))

theorem isFactorChar_of_isNameChar {c : Char} (h : isNameChar c) : isFactorChar c := by
  simp [isFactorChar, h]

theorem notMem_marks {c : Char} (h : isFactorChar c) : c ∉ marks := by
  have hmarks : marks.all fun m => !isFactorChar m := by decide
  intro hm
  have hc := List.all_eq_true.mp hmarks c hm
  rw [h] at hc
  cases hc

namespace IsFactor

variable {u w : List Char}

theorem chars (h : IsFactor w) : ∀ c ∈ w, isFactorChar c := List.all_eq_true.mp h.2.1

theorem blank_notMem (h : IsFactor w) : ' ' ∉ w := by
  intro hmem
  cases h.chars ' ' hmem

theorem solid (h : IsFactor w) : Solid w := by
  refine ⟨fun c hc => notMem_marks (h.chars c hc), ?_⟩
  intro c hc hgap
  rcases List.mem_cons.mp hgap with rfl | hgap
  · exact h.blank_notMem (List.mem_of_getLast? hc)
  · obtain rfl := List.mem_singleton.mp hgap
    exact h.2.2 hc

/-- The end of a factor decides. -/
theorem append (hu : u.all isFactorChar) (hw : IsFactor w) : IsFactor (u ++ w) := by
  refine ⟨by simp [hw.1], ?_, ?_⟩
  · rw [List.all_append, hw.2.1, hu]
    rfl
  · rw [List.getLast?_append_of_ne_nil _ hw.1]
    exact hw.2.2

theorem of_isNameChar (hne : w ≠ []) (h : ∀ c ∈ w, isNameChar c) : IsFactor w := by
  refine ⟨hne, List.all_eq_true.mpr fun c hc => isFactorChar_of_isNameChar (h c hc), ?_⟩
  intro hlast
  cases h '\\' (List.mem_of_getLast? hlast)

end IsFactor

theorem IsIdentifier.isFactor {name : String} (h : IsIdentifier name) : IsFactor name.toList := by
  obtain ⟨c, cs, hname, -⟩ := h.exists_cons
  exact IsFactor.of_isNameChar (by simp [hname]) h.chars

theorem times_free (form : TextForm) : ∀ c ∈ form.times.toList, c ∉ marks := by
  cases form <;> simp [TextForm.times, marks]

/-- **Factors make a solid product.** -/
theorem solid_product (form : TextForm) {ws : List (List Char)} (h : ∀ w ∈ ws, IsFactor w) :
    Solid (form.times.toList.intercalate ws) := by
  -- the last factor decides the end, the ones before only have to be free of marks
  induction ws with
  | nil => exact ⟨by simp, by simp⟩
  | cons w ws ih =>
    obtain ⟨hw, hws⟩ := List.forall_mem_cons.mp h
    cases ws with
    | nil => simpa using hw.solid
    | cons v vs =>
      have hrest := ih hws
      have hne : form.times.toList.intercalate (v :: vs) ≠ [] := by
        rw [intercalate_cons]
        simp [(hws v List.mem_cons_self).1]
      rw [List.intercalate_cons_cons, List.append_assoc]
      exact (hrest.prepend (times_free form) hne).prepend hw.solid.free (by simp [hne])

/-! ## §2. Numbers. -/

/-- A number that is not negative is written in digits. -/
theorem repr_of_nonneg {n : Int} (h : 0 ≤ n) : Int.repr n = Nat.repr n.toNat := by
  obtain ⟨k, rfl⟩ := Int.eq_ofNat_of_zero_le h
  rfl

theorem isDigit_of_mem_repr {n : Int} (h : 0 ≤ n) : ∀ c ∈ (Int.repr n).toList, c.isDigit := by
  intro c hc
  rw [repr_of_nonneg h, Nat.toList_repr] at hc
  exact Nat.isDigit_of_mem_toDigits (by decide) (by decide) hc

theorem isFactor_natRepr (n : Nat) : IsFactor (Nat.repr n).toList := by
  rw [Nat.toList_repr]
  refine IsFactor.of_isNameChar Nat.toDigits_ne_nil ?_
  intro c hc
  simp [isNameChar, Nat.isDigit_of_mem_toDigits (by decide) (by decide) hc]

theorem isFactor_repr {n : Int} (h : 0 ≤ n) : IsFactor (Int.repr n).toList := by
  rw [repr_of_nonneg h]
  exact isFactor_natRepr n.toNat

/-- Digits contain no other character. -/
theorem notMem_repr {n : Int} (h : 0 ≤ n) {c : Char} (hc : c.isDigit = false) :
    c ∉ (Int.repr n).toList := by
  intro hmem
  rw [isDigit_of_mem_repr h c hmem] at hc
  cases hc

end Text

open Text

namespace Fraction

/-- A fraction as it is written behind a sign. -/
def Unsigned (x : Fraction) : Prop := x.Normal ∧ 0 ≤ x.num

variable {form : TextForm} {x y : Fraction}

/-- What stands behind the numerator in plain text. -/
def overDen (x : Fraction) : List Char :=
  if x.isInteger then [] else '/' :: (Int.repr x.den).toList

theorem render_plain (x : Fraction) :
    (x.render .plain).toList = (Int.repr x.num).toList ++ x.overDen := by
  cases h : x.isInteger <;> simp [Fraction.render, text, overDen, h]

theorem render_of_isInteger (h : x.isInteger = true) : x.render form = Int.repr x.num :=
  if_pos h

theorem render_latex (h : x.isInteger = false) : (x.render .latex).toList
    = "\\frac\x7b".toList ++ ((Int.repr x.num).toList
      ++ '\x7d' :: '\x7b' :: ((Int.repr x.den).toList ++ ['\x7d'])) := by
  simp [Fraction.render, h]

theorem isFactor_render (hx : x.Unsigned) : IsFactor (x.render form).toList := by
  have hden : IsFactor (Int.repr x.den).toList := isFactor_repr (Int.le_of_lt hx.1.1)
  have hnum : IsFactor (Int.repr x.num).toList := isFactor_repr hx.2
  cases h : x.isInteger with
  | true =>
    rw [render_of_isInteger h]
    exact hnum
  | false =>
    cases form with
    | plain =>
      rw [render_plain, overDen, if_neg (by simp [h])]
      exact (hden.append (u := ['/']) rfl).append hnum.2.1
    | latex =>
      have hclose : IsFactor ['\x7d'] := by decide
      have hopen : "\\frac\x7b".toList.all isFactorChar := by decide
      rw [render_latex h]
      exact (((hclose.append hden.2.1).append (u := ['\x7d', '\x7b']) rfl).append hnum.2.1).append hopen

theorem overDen_injective (h : x.overDen = y.overDen) : x.den = y.den := by
  unfold overDen at h
  cases hx : x.isInteger <;> cases hy : y.isInteger <;> rw [hx, hy] at h
  · exact Int.repr_inj.mp (String.toList_inj.mp (List.cons.inj h).2)
  · cases h
  · cases h
  · rw [beq_iff_eq.mp hx, beq_iff_eq.mp hy]

theorem overDen_ends (x : Fraction) : Ends '/' x.overDen := by
  unfold overDen
  split
  · exact Or.inl rfl
  · exact Or.inr ⟨_, rfl⟩

/-- A fraction is not written like a whole number. -/
theorem render_latex_ne (hx : 0 ≤ x.num) (hxi : x.isInteger = true) (hyi : y.isInteger = false) :
    (x.render .latex).toList ≠ (y.render .latex).toList := by
  intro h
  have hmem : '\\' ∈ (y.render .latex).toList := by simp [render_latex hyi]
  rw [← h, render_of_isInteger hxi] at hmem
  exact notMem_repr hx (by decide) hmem

/-- **A number tells its fraction.** -/
theorem render_injective (hx : x.Unsigned) (hy : y.Unsigned)
    (h : (x.render form).toList = (y.render form).toList) : x = y := by
  have hrepr : ∀ {m n : Int}, (Int.repr m).toList = (Int.repr n).toList → m = n :=
    fun h => Int.repr_inj.mp (String.toList_inj.mp h)
  have hboth : x.num = y.num ∧ x.den = y.den := by
    cases form with
    | plain =>
      -- the slash ends the numerator
      rw [render_plain, render_plain] at h
      obtain ⟨hnum, hden⟩ := free_inj (notMem_repr hx.2 (by decide)) (notMem_repr hy.2 (by decide))
        x.overDen_ends y.overDen_ends h
      exact ⟨hrepr hnum, overDen_injective hden⟩
    | latex =>
      cases hxi : x.isInteger <;> cases hyi : y.isInteger
      · -- each brace ends the number before it
        rw [render_latex hxi, render_latex hyi, List.append_cancel_left_eq] at h
        obtain ⟨hnum, hden⟩ := free_inj (c := '\x7d') (notMem_repr hx.2 (by decide))
          (notMem_repr hy.2 (by decide)) (Or.inr ⟨_, rfl⟩) (Or.inr ⟨_, rfl⟩) h
        have hden := (List.cons.inj (List.cons.inj hden).2).2
        exact ⟨hrepr hnum, hrepr (List.append_cancel_right hden)⟩
      · exact absurd h.symm (render_latex_ne hy.2 hyi hxi)
      · exact absurd h (render_latex_ne hx.2 hxi hyi)
      · rw [render_of_isInteger hxi, render_of_isInteger hyi] at h
        exact ⟨hrepr h, by rw [beq_iff_eq.mp hxi, beq_iff_eq.mp hyi]⟩
  cases x
  cases y
  cases hboth.1
  cases hboth.2
  rfl

end Fraction

/-! ## §3. Powers. -/

namespace Monomial

variable {form : TextForm} {s t : String × Nat}

/-- What stands behind the name in plain text. -/
def raised (exponent : Nat) : List Char :=
  if exponent = 1 then [] else '*' :: '*' :: (Nat.repr exponent).toList

theorem renderPower_plain (t : String × Nat) :
    (renderPower .plain t).toList = t.1.toList ++ raised t.2 := by
  by_cases h : t.2 = 1 <;> simp [renderPower, raised, h]

theorem renderPower_one (h : t.2 = 1) : renderPower form t = t.1 := if_pos h

theorem renderPower_latex (h : t.2 ≠ 1) : (renderPower .latex t).toList
    = '\x7b' :: (t.1.toList ++ '\x7d' :: '^' :: (Nat.repr t.2).toList) := by
  simp [renderPower, h]

theorem raised_ends (exponent : Nat) : Ends '*' (raised exponent) := by
  unfold raised
  split
  · exact Or.inl rfl
  · exact Or.inr ⟨_, rfl⟩

theorem raised_injective {m n : Nat} (h : raised m = raised n) : m = n := by
  unfold raised at h
  by_cases hm : m = 1 <;> by_cases hn : n = 1 <;> simp only [hm, hn, if_true, if_false] at h
  · rw [hm, hn]
  · cases h
  · cases h
  · exact Nat.repr_inj.mp (String.toList_inj.mp (List.cons.inj (List.cons.inj h).2).2)

/-- In LaTeX a power other than the first is told by its brace. -/
theorem renderPower_latex_ne (hs : IsIdentifier s.1) (hs1 : s.2 = 1) (ht1 : t.2 ≠ 1) :
    (renderPower .latex s).toList ≠ (renderPower .latex t).toList := by
  intro h
  have hmem : '\x7b' ∈ (renderPower .latex t).toList := by simp [renderPower_latex ht1]
  rw [← h, renderPower_one hs1] at hmem
  exact hs.notMem (by decide) hmem

/-- **A power tells its name and exponent.** -/
theorem renderPower_injective (hs : IsIdentifier s.1) (ht : IsIdentifier t.1)
    (h : (renderPower form s).toList = (renderPower form t).toList) : s = t := by
  have hboth : s.1.toList = t.1.toList ∧ s.2 = t.2 := by
    cases form with
    | plain =>
      -- no identifier has an asterisk
      rw [renderPower_plain, renderPower_plain] at h
      obtain ⟨hname, hexponent⟩ := free_inj (hs.notMem (by decide)) (ht.notMem (by decide))
        (raised_ends s.2) (raised_ends t.2) h
      exact ⟨hname, raised_injective hexponent⟩
    | latex =>
      by_cases hs1 : s.2 = 1 <;> by_cases ht1 : t.2 = 1
      · rw [renderPower_one hs1, renderPower_one ht1] at h
        exact ⟨h, by rw [hs1, ht1]⟩
      · exact absurd h (renderPower_latex_ne hs hs1 ht1)
      · exact absurd h.symm (renderPower_latex_ne ht ht1 hs1)
      · rw [renderPower_latex hs1, renderPower_latex ht1] at h
        obtain ⟨hname, hexponent⟩ := free_inj (c := '\x7d') (hs.notMem (by decide))
          (ht.notMem (by decide)) (Or.inr ⟨_, rfl⟩) (Or.inr ⟨_, rfl⟩) (List.cons.inj h).2
        have hexponent := (List.cons.inj (List.cons.inj hexponent).2).2
        exact ⟨hname, Nat.repr_inj.mp (String.toList_inj.mp hexponent)⟩
  exact Prod.ext (String.toList_inj.mp hboth.1) hboth.2

theorem isFactor_renderPower (ht : IsIdentifier t.1) :
    IsFactor (renderPower form t).toList := by
  have hname := ht.isFactor
  have hexponent : IsFactor (Nat.repr t.2).toList := isFactor_natRepr t.2
  by_cases h : t.2 = 1
  · rw [renderPower_one h]
    exact hname
  · cases form with
    | plain =>
      rw [renderPower_plain, raised, if_neg h]
      exact (hexponent.append (u := ['*', '*']) rfl).append hname.2.1
    | latex =>
      rw [renderPower_latex h]
      exact ((hexponent.append (u := ['\x7d', '^']) rfl).append hname.2.1).append (u := ['\x7b']) rfl

/-- Each name as often as its exponent says. -/
def expand (powers : List (String × Nat)) : List String :=
  powers.flatMap fun t => List.replicate t.2 t.1

theorem expand_countFactor (name : String) (powers : List (String × Nat)) :
    expand (countFactor name powers) = name :: expand powers := by
  unfold countFactor
  split
  · rfl
  · split
    next h => simp [expand, h, List.replicate_succ]
    next h => simp [expand]

/-- **The powers of a monomial tell its names.** -/
theorem expand_powers (m : Monomial) : expand m.powers = m.names := by
  unfold powers
  induction m.names with
  | nil => rfl
  | cons name names ih => rw [List.foldr_cons, expand_countFactor, ih]

/-- Exponents add up to the degree. -/
theorem degree_eq_sum (m : Monomial) : m.degree = (m.powers.map fun t => t.2).sum := by
  rw [degree, ← expand_powers, expand, List.length_flatMap]
  simp

theorem fst_mem_countFactor {name : String} {powers : List (String × Nat)}
    (h : t ∈ countFactor name powers) : t.1 = name ∨ t.1 ∈ powers.map Prod.fst := by
  unfold countFactor at h
  split at h
  · left
    rw [List.mem_singleton.mp h]
  · split at h
    next heq =>
      rcases List.mem_cons.mp h with rfl | h
      · exact Or.inl heq.symm
      · exact Or.inr (List.mem_map.mpr ⟨t, by simp [h], rfl⟩)
    next =>
      rcases List.mem_cons.mp h with rfl | h
      · exact Or.inl rfl
      · exact Or.inr (List.mem_map.mpr ⟨t, h, rfl⟩)

theorem fst_mem_names {m : Monomial} (h : t ∈ m.powers) : t.1 ∈ m.names := by
  -- `powers` folds over the names and may start with any of them
  unfold powers at h
  generalize m.names = names at h ⊢
  induction names generalizing t with
  | nil => cases h
  | cons name names ih =>
    rcases fst_mem_countFactor h with hname | hmem
    · rw [hname]
      exact List.mem_cons_self
    · obtain ⟨t', ht', heq⟩ := List.mem_map.mp hmem
      rw [← heq]
      exact List.mem_cons_of_mem name (ih ht')

theorem powers_eq_nil_iff {m : Monomial} : m.powers = [] ↔ m.isOne = true := by
  rw [isOne, List.isEmpty_iff]
  constructor
  · intro h
    rw [← expand_powers, h]
    rfl
  · intro h
    rw [powers, h]
    rfl

end Monomial

namespace Text

/-! ## §4. Products of factors. -/

/-- A number among the factors. -/
def IsNumber (form : TextForm) (w : List Char) : Prop :=
  ∃ x : Fraction, x.Unsigned ∧ w = (x.render form).toList

/-- A power of a variable among the factors. -/
def IsPower (form : TextForm) (N : String → Prop) (w : List Char) : Prop :=
  ∃ t : String × Nat, N t.1 ∧ w = (Monomial.renderPower form t).toList

/-- The powers of a monomial as factors. -/
def powerFactors (form : TextForm) (m : Monomial) : List (List Char) :=
  m.powers.map fun t => (Monomial.renderPower form t).toList

/-- **The factors of a product**: a number, the powers of a monomial and some further
factors.  The number 1 is left out if it is not the only factor. -/
def factors (form : TextForm) (x : Fraction) (m : Monomial) (more : List (List Char)) :
    List (List Char) :=
  (if x = Fraction.one ∧ powerFactors form m ++ more ≠ [] then [] else [(x.render form).toList])
    ++ (powerFactors form m ++ more)

/-- The text of a product. -/
def product (form : TextForm) (x : Fraction) (m : Monomial) (more : List (List Char)) : List Char :=
  form.times.toList.intercalate (factors form x m more)

theorem factors_ne_nil (form : TextForm) (x : Fraction) (m : Monomial) (more : List (List Char)) :
    factors form x m more ≠ [] := by
  intro h
  obtain ⟨hnumber, hrest⟩ := List.append_eq_nil_iff.mp h
  rw [if_neg fun hone => hone.2 hrest] at hnumber
  cases hnumber

theorem powerFactors_eq_nil_iff (form : TextForm) (m : Monomial) :
    powerFactors form m = [] ↔ m.isOne = true := by
  rw [powerFactors, List.map_eq_nil_iff, Monomial.powers_eq_nil_iff]

/-- Behind a number other than 1 or a power, further factors are just joined on. -/
theorem product_append {form : TextForm} {x : Fraction} {m : Monomial} {more : List (List Char)}
    (hmore : more ≠ []) (h : ¬ (x = Fraction.one ∧ m.isOne = true)) : product form x m more
      = product form x m [] ++ (form.times.toList ++ form.times.toList.intercalate more) := by
  have hfactors : factors form x m more = factors form x m [] ++ more := by
    rw [← powerFactors_eq_nil_iff form] at h
    unfold factors
    by_cases hx : x = Fraction.one
    · have hpowers : powerFactors form m ≠ [] := fun hnil => h ⟨hx, hnil⟩
      simp [hx, hpowers]
    · simp [hx]
  rw [product, hfactors, intercalate_append (factors_ne_nil form x m []) hmore]
  rfl

/-- Factors of a third kind, besides numbers and powers of variables named in `N`. -/
structure Foreign (form : TextForm) (N : String → Prop) (w : List Char) : Prop where
  isFactor : IsFactor w
  not_number : ¬ IsNumber form w
  not_power : ¬ IsPower form N w

/-- A product in which each factor shows what it is. -/
structure Readable (form : TextForm) (N : String → Prop) (x : Fraction) (m : Monomial)
    (more : List (List Char)) : Prop where
  unsigned : x.Unsigned
  named : ∀ name ∈ m.names, N name
  foreign : ∀ w ∈ more, Foreign form N w

/-- A number begins with a digit or a backslash. -/
theorem IsNumber.head {form : TextForm} {w : List Char} (h : IsNumber form w) :
    ∃ c cs, w = c :: cs ∧ (c.isDigit ∨ c = '\\') := by
  obtain ⟨x, hx, rfl⟩ := h
  have hdigits : ∃ c cs, (Int.repr x.num).toList = c :: cs ∧ c.isDigit := by
    obtain ⟨c, cs, hcs⟩ := List.exists_cons_of_ne_nil (isFactor_repr hx.2).1
    exact ⟨c, cs, hcs, isDigit_of_mem_repr hx.2 c (by simp [hcs])⟩
  obtain ⟨c, cs, hcs, hdigit⟩ := hdigits
  cases form with
  | plain => exact ⟨c, cs ++ x.overDen, by rw [Fraction.render_plain, hcs]; rfl, Or.inl hdigit⟩
  | latex =>
    cases hxi : x.isInteger with
    | true => exact ⟨c, cs, by rw [Fraction.render_of_isInteger hxi, hcs], Or.inl hdigit⟩
    | false => exact ⟨'\\', _, Fraction.render_latex hxi, Or.inr rfl⟩

/-- A power begins with a letter or a brace. -/
theorem IsPower.head {form : TextForm} {N : String → Prop} (hN : ∀ name, N name → IsIdentifier name)
    {w : List Char} (h : IsPower form N w) :
    ∃ c cs, w = c :: cs ∧ (isLetter c ∨ c = '\x7b') := by
  obtain ⟨t, ht, rfl⟩ := h
  obtain ⟨c, cs, hcs, hletter⟩ := (hN t.1 ht).exists_cons
  cases form with
  | plain =>
    exact ⟨c, cs ++ Monomial.raised t.2, by rw [Monomial.renderPower_plain, hcs]; rfl,
      Or.inl hletter⟩
  | latex =>
    by_cases h1 : t.2 = 1
    · exact ⟨c, cs, by rw [Monomial.renderPower_one h1, hcs], Or.inl hletter⟩
    · exact ⟨'\x7b', _, Monomial.renderPower_latex h1, Or.inr rfl⟩

/-- What the first character says about a factor. -/
theorem IsNumber.not_power {form : TextForm} {N : String → Prop}
    (hN : ∀ name, N name → IsIdentifier name) {w : List Char} (h : IsNumber form w) :
    ¬ IsPower form N w := by
  intro hpower
  obtain ⟨c, cs, rfl, hc⟩ := h.head
  obtain ⟨d, ds, heq, hd⟩ := hpower.head hN
  obtain rfl := (List.cons.inj heq).1
  rcases hc with hdigit | rfl
  · rcases hd with hletter | rfl
    · rw [isLetter_of_isDigit hdigit] at hletter
      cases hletter
    · cases hdigit
  · exact absurd hd (by decide)

theorem powerFactors_injective {form : TextForm} {m n : Monomial}
    (hm : ∀ name ∈ m.names, IsIdentifier name) (hn : ∀ name ∈ n.names, IsIdentifier name)
    (h : powerFactors form m = powerFactors form n) : m = n := by
  have hpower : ∀ s t : String × Nat, IsIdentifier s.1 → IsIdentifier t.1 →
      (Monomial.renderPower form s).toList = (Monomial.renderPower form t).toList → s = t :=
    fun _ _ hs ht => Monomial.renderPower_injective hs ht
  have hpowers : m.powers = n.powers :=
    map_inj_of_forall hpower (fun t ht => hm t.1 (Monomial.fst_mem_names ht))
      (fun t ht => hn t.1 (Monomial.fst_mem_names ht)) h
  have hnames : m.names = n.names := by
    rw [← m.expand_powers, ← n.expand_powers, hpowers]
  cases m
  cases n
  exact congrArg _ hnames

namespace Readable

variable {form : TextForm} {N : String → Prop} {x y : Fraction} {m n : Monomial}
  {more others : List (List Char)}

theorem isNumber (h : Readable form N x m more) :
    ∀ w ∈ (if x = Fraction.one ∧ powerFactors form m ++ more ≠ [] then []
      else [(x.render form).toList]), IsNumber form w := by
  intro w hw
  split at hw
  · cases hw
  · exact ⟨x, h.unsigned, List.mem_singleton.mp hw⟩

theorem isPower (h : Readable form N x m more) : ∀ w ∈ powerFactors form m, IsPower form N w := by
  intro w hw
  obtain ⟨t, ht, rfl⟩ := List.mem_map.mp hw
  exact ⟨t, h.named t.1 (Monomial.fst_mem_names ht), rfl⟩

variable (hN : ∀ name, N name → IsIdentifier name) (h : Readable form N x m more)
include hN h

theorem not_number : ∀ w ∈ powerFactors form m ++ more, ¬ IsNumber form w := by
  intro w hw hnumber
  rcases List.mem_append.mp hw with hw | hw
  · exact hnumber.not_power hN (h.isPower w hw)
  · exact (h.foreign w hw).not_number hnumber

theorem isFactor : ∀ w ∈ factors form x m more, IsFactor w := by
  intro w hw
  rcases List.mem_append.mp hw with hw | hw
  · obtain ⟨x, hx, rfl⟩ := h.isNumber w hw
    exact Fraction.isFactor_render hx
  · rcases List.mem_append.mp hw with hw | hw
    · obtain ⟨t, ht, rfl⟩ := h.isPower w hw
      exact Monomial.isFactor_renderPower (hN t.1 ht)
    · exact (h.foreign w hw).isFactor

/-- A piece of a sum: not empty, without marks, and not ending with a gap. -/
theorem piece : IsPiece (product form x m more) := by
  refine ⟨?_, solid_product form (h.isFactor hN)⟩
  obtain ⟨w, ws, hws⟩ := List.exists_cons_of_ne_nil (factors_ne_nil form x m more)
  have hw : w ≠ [] := (h.isFactor hN w (by simp [hws])).1
  rw [product, hws, intercalate_cons]
  simp [hw]

/-- **The factors tell what was multiplied.** -/
theorem factors_injective (h' : Readable form N y n others)
    (heq : factors form x m more = factors form y n others) : x = y ∧ m = n ∧ more = others := by
  -- numbers first, then powers, then the rest: three kinds that exclude each other
  obtain ⟨hnumbers, htails⟩ := kinds_inj (Q := fun w => ¬ IsNumber form w)
    (fun _ hw => not_not.mpr hw) h.isNumber h'.isNumber (h.not_number hN) (h'.not_number hN) heq
  obtain ⟨hpowers, hforeign⟩ := kinds_inj (Q := Foreign form N)
    (fun _ hw hforeign => hforeign.not_power hw) h.isPower h'.isPower h.foreign h'.foreign htails
  refine ⟨?_, ?_, hforeign⟩
  · -- the number is left out on both sides or on none
    rw [htails] at hnumbers
    split at hnumbers <;> split at hnumbers
    next hx hy => rw [hx.1, hy.1]
    next => cases hnumbers
    next => cases hnumbers
    next => exact Fraction.render_injective h.unsigned h'.unsigned (List.singleton_inj.mp hnumbers)
  · exact powerFactors_injective (fun name hname => hN name (h.named name hname))
      (fun name hname => hN name (h'.named name hname)) hpowers

/-- **The text of a product tells its factors.** -/
theorem product_injective (h' : Readable form N y n others)
    (heq : product form x m more = product form y n others) : x = y ∧ m = n ∧ more = others := by
  have htimes : ∃ sep, form.times.toList = ' ' :: sep := by
    cases form <;> exact ⟨_, rfl⟩
  obtain ⟨sep, hsep⟩ := htimes
  apply h.factors_injective hN h'
  unfold product at heq
  rw [hsep] at heq
  exact intercalate_injective (fun w hw => (h.isFactor hN w hw).blank_notMem)
    (fun w hw => (h'.isFactor hN w hw).blank_notMem) (factors_ne_nil form x m more)
    (factors_ne_nil form y n others) heq

end Readable

end Text

end GeometricAlgebra
