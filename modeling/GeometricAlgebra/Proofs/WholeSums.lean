/-
  GeometricAlgebra.Proofs.WholeSums
  ────────────────────────────────
  **WHEN SUMS OF WHOLE POLYNOMIALS OVERFLOW.**

  Values meet at equal monomials only, and whole numbers meet in one checked addition
  of words.  So if all coefficients are whole numbers of words,

      p + q  is answered   iff   p[m] + q[m] is a word for every monomial m.

  A difference is the sum with the opposite, and the opposite is taken first.  The least
  word has none, so

      p − q  is answered   iff   p[m] − q[m] is a word for every monomial m,
                                 and −2⁶³ is no coefficient of q.

  Main result:
    * `Polynomial.whole_sums_answered` — both conditions; otherwise the sum overflows.
-/
import GeometricAlgebra.Proofs.Coefficients
import GeometricAlgebra.Proofs.StoredWords

namespace GeometricAlgebra

open Outcome

/-! ## §1. Whole numbers of words. -/

namespace Fraction

/-- A whole number that a word can hold. -/
def IsWord (x : Fraction) : Prop := x.isInteger = true ∧ Word.Fits x.num

instance (x : Fraction) : Decidable x.IsWord := inferInstanceAs (Decidable (_ ∧ _))

variable {x y s : Fraction}

theorem isWord_ofInt {n : Int} (h : Word.Fits n) : (ofInt n).IsWord := ⟨rfl, h⟩

theorem isWord_zero : zero.IsWord := by decide

theorem value_eq_num (h : x.isInteger = true) : x.value = x.num := by
  rw [eq_ofInt h]
  exact (ofInt_denotes x.num).2

/-- **Words add up iff their sum is one.** -/
theorem add_eq_ok_iff (hx : x.IsWord) (hy : y.IsWord) :
    x.add y = .ok s ↔ Word.Fits (x.num + y.num) ∧ s = ofInt (x.num + y.num) := by
  rw [eq_ofInt hx.1, eq_ofInt hy.1, add_ofInt]
  show _ ↔ Word.Fits (x.num + y.num) ∧ s = ofInt (x.num + y.num)
  by_cases h : Word.Fits (x.num + y.num)
  · rw [Word.ofInt_of_fits h]
    exact ⟨fun heq => ⟨h, (Except.ok.inj heq).symm⟩, fun heq => congrArg _ heq.2.symm⟩
  · rw [Word.ofInt_of_not_fits h]
    exact ⟨nofun, fun heq => absurd heq.1 h⟩

/-- The opposite of a word is one checked negation. -/
theorem mul_minusOne (hx : x.isInteger = true) :
    x.mul minusOne = (do return ofInt (← Word.ofInt (-x.num))) := by
  have hmul : x.num * (-1) = -x.num := by omega
  rw [← hmul]
  show _ = (do return ofInt (← Word.ofInt (x.num * (-1))))
  rw [← mul_ofInt, ← eq_ofInt hx]
  rfl

end Fraction

/-! ## §2. Sums of terms. -/

namespace SortedTerms

variable {κ : Type} [Ord κ]

/-- All values are whole numbers of words. -/
def AllWords (terms : List (κ × Fraction)) : Prop := ∀ t ∈ terms, t.2.IsWord

section Steps

variable {key : κ} {v : Fraction} {terms : List (κ × Fraction)} (hterms : AllWords terms)
  (hv : v.IsWord)
include hterms hv

/-- **One more term is answered** if the value at its key, should there be one, has room
for it.  No other term changes. -/
theorem insert_answers_of_fits [Std.LawfulEqOrd κ]
    (hmeet : ∀ t ∈ terms, t.1 = key → Word.Fits (t.2.num + v.num)) :
    Answers (insert key v terms) (fun sum => ∀ u ∈ sum, u.1 = key ∨ u ∈ terms) := by
  induction terms with
  | nil => exact answers_ok (by simp)
  | cons head rest ih =>
    obtain ⟨k, w⟩ := head
    obtain ⟨hw, hrest⟩ := List.forall_mem_cons.mp hterms
    unfold insert
    cases hcmp : compare key k with
    | lt => exact answers_ok (List.forall_mem_cons.mpr ⟨Or.inl rfl, fun u hu => Or.inr hu⟩)
    | eq =>
      have hkey : key = k := Std.LawfulEqCmp.eq_of_compare hcmp
      have hfits : Word.Fits (w.num + v.num) := hmeet (k, w) List.mem_cons_self hkey.symm
      have hadd : w.add v = .ok (Fraction.ofInt (w.num + v.num)) :=
        (Fraction.add_eq_ok_iff hw hv).mpr ⟨hfits, rfl⟩
      show Answers (w.add v >>= _) _
      rw [hadd]
      show Answers (pure (if Summand.isZero (Fraction.ofInt (w.num + v.num)) then rest
        else (k, Fraction.ofInt (w.num + v.num)) :: rest)) _
      refine answers_ok fun u hu => ?_
      by_cases h0 : Summand.isZero (Fraction.ofInt (w.num + v.num)) = true
      · rw [if_pos h0] at hu
        exact Or.inr (List.mem_cons_of_mem _ hu)
      · rw [if_neg h0] at hu
        rcases List.mem_cons.mp hu with rfl | hu
        · exact Or.inl hkey.symm
        · exact Or.inr (List.mem_cons_of_mem _ hu)
    | gt =>
      have hmeet' : ∀ t ∈ rest, t.1 = key → Word.Fits (t.2.num + v.num) :=
        fun t ht => hmeet t (List.mem_cons_of_mem _ ht)
      refine (ih hrest hmeet').bind fun rest' hrest' => ?_
      refine answers_ok (List.forall_mem_cons.mpr ⟨Or.inr List.mem_cons_self, ?_⟩)
      intro u hu
      exact (hrest' u hu).imp_right (List.mem_cons_of_mem _)

end Steps

section Runs

variable {terms more : List (κ × Fraction)} (hterms : AllWords terms) (hmore : AllWords more)
include hterms hmore

/-- What is stored stays a word. -/
theorem accumulateAll_ensures_words : Ensures (accumulateAll terms more) AllWords := by
  refine accumulateAll_ensures_values ?_ hterms hmore
  intro v w hv hw sum hsum
  obtain ⟨hfits, rfl⟩ := (Fraction.add_eq_ok_iff hv hw).mp hsum
  exact Fraction.isWord_ofInt hfits

/-- **More terms with keys of their own are answered** if each of them finds room: a term
meets what was stored at first, and none of the terms added before it. -/
theorem accumulateAll_answers_of_fits [Std.LawfulEqOrd κ] (hkeys : (more.map Prod.fst).Nodup)
    (hmeet : ∀ s ∈ terms, ∀ t ∈ more, s.1 = t.1 → Word.Fits (s.2.num + t.2.num)) :
    ∃ sum, accumulateAll terms more = .ok sum := by
  induction more generalizing terms with
  | nil => exact ⟨terms, rfl⟩
  | cons t more ih =>
    obtain ⟨ht, hmore⟩ := List.forall_mem_cons.mp hmore
    rw [List.map_cons, List.nodup_cons] at hkeys
    obtain ⟨hnew, hkeys⟩ := hkeys
    obtain ⟨sum, hsum, hframe⟩ : Answers (accumulate terms t) (fun sum =>
        ∀ u ∈ sum, u.1 = t.1 ∨ u ∈ terms) := by
      unfold accumulate
      by_cases h0 : Summand.isZero t.2 = true
      · rw [if_pos h0]
        exact answers_ok fun u hu => Or.inr hu
      · rw [if_neg h0]
        exact insert_answers_of_fits hterms ht fun s hs => hmeet s hs t List.mem_cons_self
    have hwords : AllWords sum := by
      have hone : AllWords [t] := by simpa [AllWords] using ht
      refine accumulateAll_ensures_words hterms hone sum ?_
      rw [accumulateAll_cons, hsum]
      rfl
    rw [accumulateAll_cons, hsum]
    refine ih hwords hmore hkeys fun s hs u hu heq => ?_
    rcases hframe s hs with hkey | hs
    · -- the terms behind `t` have other keys
      exact absurd (List.mem_map.mpr ⟨u, hu, heq.symm.trans hkey⟩) hnew
    · exact hmeet s hs u (List.mem_cons_of_mem t hu) heq

end Runs

end SortedTerms

/-! ## §3. Sums of polynomials. -/

namespace Polynomial

open SortedTerms

variable {p q : Polynomial}

/-- All coefficients are whole numbers of words. -/
def Integral (p : Polynomial) : Prop := ∀ t ∈ p.terms, t.2.IsWord

instance (p : Polynomial) : Decidable p.Integral :=
  inferInstanceAs (Decidable (∀ t ∈ p.terms, t.2.IsWord))

/-- A stored term tells the coefficient of its monomial. -/
theorem Canonical.coefficient_eq (hp : p.Canonical) {t : Monomial × Fraction} (ht : t ∈ p.terms) :
    p.coefficient t.1 = t.2 := by
  obtain ⟨before, after, hterms⟩ := List.append_of_mem ht
  have hsorted := hp.1.1
  rw [hterms, List.pairwise_append] at hsorted
  have hlookup : p.terms.lookup t.1 = some t.2 := by
    refine List.lookup_eq_some_iff.mpr ⟨before, after, hterms, fun s hs => ?_⟩
    have hlt : compare s.1 t.1 = .lt := hsorted.2.2 s hs t List.mem_cons_self
    have hself : compare s.1 s.1 = .eq := Std.ReflCmp.compare_self
    have hne : t.1 ≠ s.1 := by
      intro heq
      rw [heq, hself] at hlt
      cases hlt
    simpa using hne
  rw [coefficient, hlookup]
  rfl

/-- Also a coefficient that is not stored is a word. -/
theorem Integral.coefficient (hp : p.Integral) (m : Monomial) : (p.coefficient m).IsWord := by
  unfold Polynomial.coefficient
  cases hlookup : p.terms.lookup m with
  | none => exact Fraction.isWord_zero
  | some c =>
    obtain ⟨before, after, hterms, -⟩ := List.lookup_eq_some_iff.mp hlookup
    exact hp (m, c) (by simp [hterms])

theorem Integral.total_eq (hi : p.Integral) (hp : p.Canonical) (m : Monomial) :
    total p.terms m = ((p.coefficient m).num : ℚ) := by
  rw [← coeff_eq_total hp, coeff, Fraction.value_eq_num (hi.coefficient m).1]

section Sums

variable (hp : p.Canonical) (hq : q.Canonical) (hpi : p.Integral) (hqi : q.Integral)
include hp hq hpi hqi

/-- **A sum is answered iff each of its coefficients is a word.** -/
theorem add_answered_iff : (∃ r, p.add q = .ok r)
    ↔ ∀ m, Word.Fits ((p.coefficient m).num + (q.coefficient m).num) := by
  constructor
  · intro h m
    obtain ⟨r, hr⟩ := h
    obtain ⟨terms, hterms, h⟩ := bind_eq_ok_iff.mp hr
    obtain rfl := Except.ok.inj h
    -- the answer has the exact coefficients, and they are words
    have hri : Integral ⟨terms⟩ := accumulateAll_ensures_words hpi hqi terms hterms
    obtain ⟨hnormal, htotal⟩ :=
      (accumulateAll_yields (canonical_iff.mp hp) (canonical_iff.mp hq).2).ensures terms hterms
    have hexact : (Polynomial.coefficient ⟨terms⟩ m).num
        = (p.coefficient m).num + (q.coefficient m).num := by
      have hm := congrArg (fun f => f m) htotal
      simp only [Finsupp.add_apply] at hm
      rw [hpi.total_eq hp, hqi.total_eq hq,
        hri.total_eq (canonical_iff.mpr hnormal) m] at hm
      exact_mod_cast hm
    rw [← hexact]
    exact (hri.coefficient m).2
  · intro h
    have hmeet : ∀ s ∈ p.terms, ∀ t ∈ q.terms, s.1 = t.1 → Word.Fits (s.2.num + t.2.num) := by
      intro s hs t ht heq
      have hfits := h t.1
      rw [hq.coefficient_eq ht, ← heq, hp.coefficient_eq hs] at hfits
      exact hfits
    obtain ⟨sum, hsum⟩ := accumulateAll_answers_of_fits hpi hqi hq.1.nodup_keys hmeet
    exact ⟨⟨sum⟩, by unfold add; rw [hsum]; rfl⟩

end Sums

/-! ## §4. Differences of polynomials. -/

/-- The polynomial with all coefficients negated. -/
def opposite (q : Polynomial) : Polynomial :=
  ⟨q.terms.map fun t => (t.1, Fraction.ofInt (-t.2.num))⟩

/-- Negation asks for nothing but words: also a coefficient that is not stored is negated. -/
theorem coefficient_opposite (q : Polynomial) (m : Monomial) :
    q.opposite.coefficient m = Fraction.ofInt (-(q.coefficient m).num) := by
  obtain ⟨terms⟩ := q
  unfold opposite coefficient
  show ((terms.map _).lookup m).getD _ = Fraction.ofInt (-((terms.lookup m).getD _).num)
  induction terms with
  | nil => rfl
  | cons t terms ih =>
    rw [List.map_cons, List.lookup_cons, List.lookup_cons]
    by_cases h : m = t.1
    · simp [h]
    · have hbeq : (m == t.1) = false := by simpa using h
      rw [hbeq]
      exact ih

theorem scaleTerm_minusOne {t : Monomial × Fraction} (ht : t.2.isInteger = true) :
    scaleTerm .minusOne t = (do return (t.1, Fraction.ofInt (← Word.ofInt (-t.2.num)))) := by
  unfold scaleTerm
  rw [Fraction.mul_minusOne ht]
  cases Word.ofInt (-t.2.num) <;> rfl

theorem neg_eq_mapM (q : Polynomial) :
    q.neg = (do return ⟨← q.terms.mapM (scaleTerm .minusOne)⟩) := by
  unfold neg scale
  rw [if_neg (by decide)]

theorem Integral.opposite (hq : q.Integral) (hleast : ¬ q.HasLeast) : q.opposite.Integral := by
  intro u hu
  obtain ⟨t, ht, rfl⟩ := List.mem_map.mp hu
  exact Fraction.isWord_ofInt ((Word.fits_neg_iff (hq t ht).2).mpr fun h => hleast ⟨t, ht, h⟩)

/-- **An opposite is answered iff the least word is no coefficient.** -/
theorem Integral.neg_eq_ok_iff (hq : q.Integral) {r : Polynomial} :
    q.neg = .ok r ↔ ¬ q.HasLeast ∧ r = q.opposite := by
  rw [neg_eq_mapM]
  by_cases hleast : q.HasLeast
  · -- the loop stops at the least word
    refine iff_of_false (fun h => ?_) fun h => h.1 hleast
    obtain ⟨t, ht, hnum⟩ := hleast
    obtain ⟨terms, hterms, -⟩ := bind_eq_ok_iff.mp h
    obtain ⟨u, hu⟩ := exists_ok_of_mapM hterms ht
    rw [scaleTerm_minusOne (hq t ht).1, hnum] at hu
    cases hu
  · have hterms : q.terms.mapM (scaleTerm .minusOne) = .ok q.opposite.terms := by
      apply mapM_eq_ok
      intro t ht
      have hfits := (Word.fits_neg_iff (hq t ht).2).mpr fun h => hleast ⟨t, ht, h⟩
      rw [scaleTerm_minusOne (hq t ht).1, Word.ofInt_of_fits hfits]
      rfl
    rw [hterms]
    exact ⟨fun h => ⟨hleast, (Except.ok.inj h).symm⟩, fun h => congrArg _ h.2.symm⟩

section Results

variable (hp : p.Canonical) (hq : q.Canonical) (hpi : p.Integral) (hqi : q.Integral)
include hp hq hpi hqi

/-- **A difference is answered iff each of its coefficients is a word** and the right
operand has an opposite. -/
theorem sub_answered_iff : (∃ r, p.sub q = .ok r) ↔ ¬ q.HasLeast
    ∧ ∀ m, Word.Fits ((p.coefficient m).num - (q.coefficient m).num) := by
  have hneg : ∀ {r}, q.neg = .ok r ↔ ¬ q.HasLeast ∧ r = q.opposite := hqi.neg_eq_ok_iff
  have hsum : ¬ q.HasLeast → ((∃ r, p.add q.opposite = .ok r)
      ↔ ∀ m, Word.Fits ((p.coefficient m).num - (q.coefficient m).num)) := by
    intro hleast
    have hopposite : q.opposite.Canonical := hq.neg _ (hneg.mpr ⟨hleast, rfl⟩)
    rw [add_answered_iff hp hopposite hpi (hqi.opposite hleast)]
    refine forall_congr' fun m => ?_
    rw [coefficient_opposite]
    rfl
  constructor
  · intro h
    obtain ⟨r, hr⟩ := h
    obtain ⟨s, hs, hr⟩ := bind_eq_ok_iff.mp hr
    obtain ⟨hleast, rfl⟩ := hneg.mp hs
    exact ⟨hleast, (hsum hleast).mp ⟨r, hr⟩⟩
  · intro h
    obtain ⟨hleast, hfits⟩ := h
    obtain ⟨r, hr⟩ := (hsum hleast).mpr hfits
    exact ⟨r, bind_eq_ok_iff.mpr ⟨q.opposite, hneg.mpr ⟨hleast, rfl⟩, hr⟩⟩

end Results

/-! ## §5. The conditions. -/

/-- **SUMS AND DIFFERENCES OF WHOLE POLYNOMIALS**: if all coefficients are whole numbers of
words, the sum is answered iff every coefficient of the exact sum is a word; the difference
is answered iff every coefficient of the exact difference is a word and −2⁶³ is no
coefficient of the right operand.  Answers are exact, and what is not answered overflows. -/
theorem whole_sums_answered (hp : p.Canonical) (hq : q.Canonical) (hpi : p.Integral)
    (hqi : q.Integral) :
    ((∃ r, p.add q = .ok r)
        ↔ ∀ m, Word.Fits ((p.coefficient m).num + (q.coefficient m).num))
      ∧ ((∃ r, p.sub q = .ok r) ↔ ¬ q.HasLeast
        ∧ ∀ m, Word.Fits ((p.coefficient m).num - (q.coefficient m).num))
      ∧ Yields (p.add q) (Denotes (p.value + q.value))
      ∧ Yields (p.sub q) (Denotes (p.value - q.value)) :=
  ⟨add_answered_iff hp hq hpi hqi, sub_answered_iff hp hq hpi hqi,
    Denotes.add ⟨hp, rfl⟩ ⟨hq, rfl⟩, Denotes.sub ⟨hp, rfl⟩ ⟨hq, rfl⟩⟩

/-- The polynomial `(2⁶³ − 1) x − 2⁶³ y`. -/
def brim : Polynomial := ⟨[(⟨["x"]⟩, ⟨Word.greatest, 1⟩), (⟨["y"]⟩, ⟨Word.least, 1⟩)]⟩

/-- The polynomial `−x + y`. -/
def ebb : Polynomial := ⟨[(⟨["x"]⟩, ⟨-1, 1⟩), (⟨["y"]⟩, ⟨1, 1⟩)]⟩

/-- The sum of both stays within the words, and their difference does not. -/
theorem whole_sums_answered_brim :
    (brim.Canonical ∧ ebb.Canonical ∧ brim.Integral ∧ ebb.Integral)
      ∧ (∀ m, Word.Fits ((brim.coefficient m).num + (ebb.coefficient m).num))
      ∧ ¬ Word.Fits ((brim.coefficient ⟨["x"]⟩).num - (ebb.coefficient ⟨["x"]⟩).num)
      ∧ (¬ ∃ r, brim.sub ebb = .ok r) ∧ brim.sub ebb = .error .overflow := by
  have hp : brim.Canonical := by decide
  have hq : ebb.Canonical := by decide
  have hpi : brim.Integral := by decide
  have hqi : ebb.Integral := by decide
  have hsum : brim.add ebb
      = .ok ⟨[(⟨["x"]⟩, ⟨9223372036854775806, 1⟩), (⟨["y"]⟩, ⟨-9223372036854775807, 1⟩)]⟩ := by
    decide
  have hx : ¬ Word.Fits ((brim.coefficient ⟨["x"]⟩).num - (ebb.coefficient ⟨["x"]⟩).num) := by
    decide
  obtain ⟨hadd, hsub, -, hyields⟩ := whole_sums_answered hp hq hpi hqi
  have hnone : ¬ ∃ r, brim.sub ebb = .ok r := fun h => hx ((hsub.mp h).2 _)
  refine ⟨⟨hp, hq, hpi, hqi⟩, hadd.mp ⟨_, hsum⟩, hx, hnone, ?_⟩
  cases hyields with
  | answer r hr _ => exact absurd ⟨r, hr⟩ hnone
  | overflow hr => exact hr

/-- `−1 − (−2⁶³)` is the word `2⁶³ − 1`, and it overflows. -/
theorem least_not_subtracted :
    (ofInt (-1)).sub (ofInt Word.least) = .error .overflow
      ∧ ¬ ∀ p q : Polynomial, p.Canonical → q.Canonical → p.Integral → q.Integral →
        ((∃ r, p.sub q = .ok r)
          ↔ ∀ m, Word.Fits ((p.coefficient m).num - (q.coefficient m).num)) := by
  have hover : (ofInt (-1)).sub (ofInt Word.least) = .error .overflow := by decide
  refine ⟨hover, fun h => ?_⟩
  have hfits : ∀ m, Word.Fits
      (((ofInt (-1)).coefficient m).num - ((ofInt Word.least).coefficient m).num) := by
    intro m
    by_cases hm : m = Monomial.one
    · rw [hm]
      decide
    · -- no other monomial occurs
      have hbeq : (m == Monomial.one) = false := by simpa using hm
      have habsent : ∀ c, Polynomial.coefficient ⟨[(Monomial.one, c)]⟩ m = Fraction.zero := by
        intro c
        unfold coefficient
        rw [List.lookup_cons, hbeq]
        rfl
      show Word.Fits ((Polynomial.coefficient ⟨[(Monomial.one, _)]⟩ m).num
        - (Polynomial.coefficient ⟨[(Monomial.one, _)]⟩ m).num)
      rw [habsent, habsent]
      decide
  obtain ⟨r, hr⟩ := (h _ _ (by decide) (by decide) (by decide) (by decide)).mpr hfits
  rw [hover] at hr
  cases hr

end Polynomial

end GeometricAlgebra
