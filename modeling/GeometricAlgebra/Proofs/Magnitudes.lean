/-
  GeometricAlgebra.Proofs.Magnitudes
  ────────────────────────────────
  **HOW LARGE WHOLE COEFFICIENTS CAN GROW.**

  Fractions over the denominator 1 are added and multiplied by one checked word
  operation each; every greatest common divisor on the way is 1.  The norm of a
  polynomial or a multivector is the sum of the absolute values of all its
  coefficients.  Unlike a final coefficient it bounds every partial sum, also
  one that cancels later: it adds up under sums, multiplies under products, and
  signs leave it alone.

  The two levels of sums, of monomials and of blades, share the argument
  (`Measured`): whatever the keys are, values meet only in additions that the
  total of their magnitudes bounds.

  Main result:
    * `Multivector.products_within_reach` — no product of multivectors overflows
      while the product of their norms is at most 2⁶³ − 1.
-/
import GeometricAlgebra.Multivector.Products
import GeometricAlgebra.Proofs.Overflow

namespace GeometricAlgebra

open Outcome

/-! ## §1. Whole numbers of words. -/

namespace Word

/-- The greatest distance from zero that a word can hold on both sides, 2⁶³ − 1. -/
def reach : Nat := 9223372036854775807

theorem fits_of_natAbs_le {n : Int} {m : Nat} (hn : n.natAbs ≤ m) (hm : m ≤ reach) : Fits n := by
  unfold reach at hm
  unfold Fits least greatest
  omega

end Word

namespace Fraction

theorem gcd_one_right (n : Int) : gcd n 1 = .ok 1 := by
  unfold gcd
  rw [Int.gcd_one]
  rfl

theorem gcd_one_left (n : Int) : gcd 1 n = .ok 1 := by
  unfold gcd
  rw [Int.one_gcd]
  rfl

/-- Over the denominator 1 there is nothing to cancel. -/
theorem reduce_one (n : Int) : reduce n 1 = .ok (ofInt n) := by
  unfold reduce
  rw [if_neg (by decide : ¬ (1 : Int) = 0)]
  -- 0/1 and 1/1 have branches of their own, with the same answer
  by_cases h0 : n = 0
  · rw [if_pos h0, h0]
    rfl
  · rw [if_neg h0]
    by_cases h1 : n = 1
    · rw [if_pos h1, h1]
      rfl
    · rw [if_neg h1, gcd_one_right]
      show Except.ok (⟨n / 1, 1 / 1⟩ : Fraction) = _
      rw [Int.ediv_one]
      rfl

/-- **The sum of whole numbers is one checked addition.** -/
theorem add_ofInt (m n : Int) :
    (ofInt m).add (ofInt n) = (do return ofInt (← Word.ofInt (m + n))) := by
  unfold add
  show (do reduce (← Word.ofInt (m + n)) 1) = _
  simp only [reduce_one]
  rfl

/-- **The product of whole numbers is one checked multiplication.** -/
theorem mul_ofInt (m n : Int) :
    (ofInt m).mul (ofInt n) = (do return ofInt (← Word.ofInt (m * n))) := by
  unfold mul
  -- nothing cancels across, so the new denominator is 1 · 1
  show (do
    let g ← gcd m 1
    let h ← gcd 1 n
    let num ← Word.ofInt (m / g * (n / h))
    let den ← Word.ofInt (1 / h * (1 / g))
    reduce num den) = _
  rw [gcd_one_right, gcd_one_left]
  show (do
    let num ← Word.ofInt (m / 1 * (n / 1))
    let den ← Word.ofInt 1
    reduce num den) = _
  rw [Int.ediv_one, Int.ediv_one, Word.ofInt_of_fits (by decide : Word.Fits 1)]
  show (do reduce (← Word.ofInt (m * n)) 1) = _
  simp only [reduce_one]
  rfl

/-- A whole number is the fraction of its numerator. -/
theorem eq_ofInt {x : Fraction} (h : x.isInteger = true) : x = ofInt x.num := by
  cases x
  cases beq_iff_eq.mp h
  rfl

/-- A checked whole number that is small enough is answered. -/
theorem ofInt_answers {n : Int} {m : Nat} (hn : n.natAbs ≤ m) (hm : m ≤ Word.reach) :
    Answers (do return ofInt (← Word.ofInt n)) (fun x => x.isInteger = true ∧ x.num.natAbs ≤ m) := by
  rw [Word.ofInt_of_fits (Word.fits_of_natAbs_le hn hm)]
  exact answers_ok ⟨rfl, hn⟩

end Fraction

/-! ## §2. Sums of bounded values. -/

/-- Values with a magnitude.  Sums of whole values answer as long as the sum of
the magnitudes fits, and this bounds the magnitude of the sum. -/
class Measured (ν : Type) [Summand ν] where
  /-- Every coefficient is a whole number. -/
  Whole : ν → Prop
  /-- The sum of the absolute values of the coefficients. -/
  magnitude : ν → Nat
  add_answers : ∀ v w, Whole v → Whole w → magnitude v + magnitude w ≤ Word.reach →
    Answers (Summand.add v w) (fun s => Whole s ∧ magnitude s ≤ magnitude v + magnitude w)

namespace SortedTerms

open Measured

variable {κ ν : Type} [Ord κ] [Summand ν] [Measured ν]

/-- Every value is whole. -/
def AllWhole (terms : List (κ × ν)) : Prop := ∀ t ∈ terms, Whole t.2

/-- The sum of the magnitudes of the values. -/
def norm (terms : List (κ × ν)) : Nat := (terms.map fun t => magnitude t.2).sum

omit [Ord κ] in
@[simp] theorem norm_nil : norm ([] : List (κ × ν)) = 0 := rfl

omit [Ord κ] in
@[simp] theorem norm_cons (t : κ × ν) (terms : List (κ × ν)) :
    norm (t :: terms) = magnitude t.2 + norm terms := List.sum_cons

omit [Ord κ] in
theorem norm_flatten (rows : List (List (κ × ν))) : norm rows.flatten = (rows.map norm).sum := by
  induction rows with
  | nil => rfl
  | cons row rows ih =>
    rw [List.map_cons, List.sum_cons, ← ih]
    simp only [norm, List.flatten_cons, List.map_append, List.sum_append]

omit [Ord κ] in
theorem magnitude_le_norm {t : κ × ν} {terms : List (κ × ν)} (ht : t ∈ terms) :
    magnitude t.2 ≤ norm terms :=
  List.le_sum_of_mem (List.mem_map.mpr ⟨t, ht, rfl⟩)

/-- **One more term**: the only addition is the one at its key. -/
theorem insert_answers {key : κ} {v : ν} {terms : List (κ × ν)} (hterms : AllWhole terms)
    (hv : Whole v) (hfits : norm terms + magnitude v ≤ Word.reach) :
    Answers (insert key v terms)
      (fun sum => AllWhole sum ∧ norm sum ≤ norm terms + magnitude v) := by
  induction terms with
  | nil => exact answers_ok ⟨by simpa [AllWhole] using hv, by simp⟩
  | cons head rest ih =>
    obtain ⟨k, w⟩ := head
    obtain ⟨hw, hrest⟩ := List.forall_mem_cons.mp hterms
    simp only [norm_cons] at hfits ⊢
    unfold insert
    cases compare key k with
    | lt =>
      -- a new key adds nothing up
      refine answers_ok ⟨List.forall_mem_cons.mpr ⟨hv, hterms⟩, ?_⟩
      simp only [norm_cons]
      omega
    | eq =>
      -- the values meet here, and the magnitudes of both are within the bound
      have hadd := add_answers w v hw hv (by omega)
      refine hadd.bind fun s hs => ?_
      obtain ⟨hswhole, hsle⟩ := hs
      by_cases h0 : Summand.isZero s = true
      · -- the values cancel: the term goes, and the norm with it
        rw [if_pos h0]
        exact answers_ok ⟨hrest, by omega⟩
      · rw [if_neg h0]
        refine answers_ok ⟨List.forall_mem_cons.mpr ⟨hswhole, hrest⟩, ?_⟩
        simp only [norm_cons]
        omega
    | gt =>
      refine (ih hrest (by omega)).bind fun rest' h => ?_
      obtain ⟨hwhole, hle⟩ := h
      refine answers_ok ⟨List.forall_mem_cons.mpr ⟨hw, hwhole⟩, ?_⟩
      simp only [norm_cons]
      omega

/-- **Many more terms**: partial sums never exceed the sum of all magnitudes, whatever
cancels later. -/
theorem accumulateAll_answers {terms more : List (κ × ν)} (hterms : AllWhole terms)
    (hmore : AllWhole more) (hfits : norm terms + norm more ≤ Word.reach) :
    Answers (accumulateAll terms more)
      (fun sum => AllWhole sum ∧ norm sum ≤ norm terms + norm more) := by
  -- on the terms to come: the bound moves their magnitudes over to the sum so far
  induction more generalizing terms with
  | nil => exact answers_ok ⟨hterms, by simp⟩
  | cons t more ih =>
    obtain ⟨ht, hmore⟩ := List.forall_mem_cons.mp hmore
    simp only [norm_cons] at hfits ⊢
    have hstep : Answers (accumulate terms t)
        (fun sum => AllWhole sum ∧ norm sum ≤ norm terms + magnitude t.2) := by
      by_cases h0 : Summand.isZero t.2 = true
      · rw [accumulate_of_isZero h0]
        exact answers_ok ⟨hterms, by omega⟩
      · rw [accumulate_of_not_isZero (Bool.eq_false_iff.mpr h0)]
        exact insert_answers hterms ht (by omega)
    show Answers (accumulate terms t >>= fun sum => accumulateAll sum more) _
    refine hstep.bind fun sum h => ?_
    obtain ⟨hwhole, hle⟩ := h
    refine (ih hwhole hmore (by omega)).mono fun sum' h' => ?_
    obtain ⟨hwhole', hle'⟩ := h'
    exact ⟨hwhole', by omega⟩

theorem ofList_answers {terms : List (κ × ν)} (hterms : AllWhole terms)
    (hfits : norm terms ≤ Word.reach) :
    Answers (ofList terms) (fun sum => AllWhole sum ∧ norm sum ≤ norm terms) := by
  have hnil : AllWhole ([] : List (κ × ν)) := fun _ ht => absurd ht List.not_mem_nil
  have h := accumulateAll_answers hnil hterms (by rwa [norm_nil, Nat.zero_add])
  rwa [norm_nil, Nat.zero_add] at h

omit [Ord κ] in
/-- **All products of a left and a right term** have together at most the product of
the magnitudes. -/
theorem rows_answers {f : κ × ν → κ × ν → Outcome (κ × ν)} {a b : List (κ × ν)}
    (hf : ∀ s ∈ a, ∀ t ∈ b, Answers (f s t)
      (fun u => Whole u.2 ∧ magnitude u.2 ≤ magnitude s.2 * magnitude t.2)) :
    Answers (a.mapM fun s => b.mapM (f s))
      (fun rows => AllWhole rows.flatten ∧ norm rows.flatten ≤ norm a * norm b) := by
  have hrow : ∀ s ∈ a, Answers (b.mapM (f s)) (fun row =>
      AllWhole row ∧ norm row ≤ magnitude s.2 * norm b) := by
    intro s hs
    apply (Answers.mapM (hf s hs)).mono
    intro row h
    obtain ⟨hwhole, hle⟩ := h
    rw [List.sum_map_mul_left] at hle
    exact ⟨hwhole, hle⟩
  -- Σ |s| · |b| over the rows is |a| · |b|
  apply (Answers.mapM hrow).mono
  intro rows h
  obtain ⟨hwhole, hle⟩ := h
  rw [List.sum_map_mul_right] at hle
  refine ⟨?_, (norm_flatten rows).trans_le hle⟩
  intro u hu
  obtain ⟨row, hrow, hmem⟩ := List.mem_flatten.mp hu
  exact hwhole row hrow u hmem

end SortedTerms

/-! ## §3. Polynomials with whole coefficients. -/

instance : Measured Fraction where
  Whole := fun x => x.isInteger = true
  magnitude := fun x => x.num.natAbs
  add_answers := by
    intro x y hx hy hfits
    rw [Fraction.eq_ofInt hx, Fraction.eq_ofInt hy]
    show Answers ((Fraction.ofInt x.num).add (Fraction.ofInt y.num)) _
    rw [Fraction.add_ofInt]
    exact Fraction.ofInt_answers (Int.natAbs_add_le x.num y.num) hfits

namespace Polynomial

open SortedTerms

/-- Every coefficient is a whole number. -/
def Whole (p : Polynomial) : Prop := ∀ t ∈ p.terms, t.2.isInteger = true

instance (p : Polynomial) : Decidable p.Whole :=
  inferInstanceAs (Decidable (∀ t ∈ p.terms, t.2.isInteger = true))

/-- The sum of the absolute values of the coefficients. -/
def norm (p : Polynomial) : Nat := (p.terms.map fun t => t.2.num.natAbs).sum

section Bounded

variable {p q : Polynomial} (hp : p.Whole) (hq : q.Whole)

include hp hq

theorem add_answers (hfits : p.norm + q.norm ≤ Word.reach) :
    Answers (p.add q) (fun r => r.Whole ∧ r.norm ≤ p.norm + q.norm) :=
  (accumulateAll_answers hp hq hfits).bind fun _ h => answers_ok h

/-- **Products answer if the product of the norms fits.** -/
theorem mul_answers (hfits : p.norm * q.norm ≤ Word.reach) :
    Answers (p.mul q) (fun r => r.Whole ∧ r.norm ≤ p.norm * q.norm) := by
  have hterm : ∀ s ∈ p.terms, ∀ t ∈ q.terms, Answers (mulTerm s t)
      (fun u => Measured.Whole u.2 ∧ Measured.magnitude u.2
        ≤ Measured.magnitude s.2 * Measured.magnitude t.2) := by
    intro s hs t ht
    have hle : s.2.num.natAbs * t.2.num.natAbs ≤ p.norm * q.norm :=
      Nat.mul_le_mul (magnitude_le_norm (ν := Fraction) hs) (magnitude_le_norm (ν := Fraction) ht)
    have hmul : Answers (s.2.mul t.2) (fun x => x.isInteger = true
        ∧ x.num.natAbs ≤ s.2.num.natAbs * t.2.num.natAbs) := by
      rw [Fraction.eq_ofInt (hp s hs), Fraction.eq_ofInt (hq t ht), Fraction.mul_ofInt]
      exact Fraction.ofInt_answers (Int.natAbs_mul _ _).le (hle.trans hfits)
    exact hmul.bind fun x hx => answers_ok hx
  refine (rows_answers hterm).bind fun rows h => ?_
  obtain ⟨hwhole, hle⟩ := h
  have hlist := ofList_answers hwhole (hle.trans hfits)
  exact hlist.bind fun sum h => answers_ok ⟨h.1, h.2.trans hle⟩

omit hq in
/-- **A sign changes no magnitude.** -/
theorem scaleSign_answers (s : Sign) (hfits : p.norm ≤ Word.reach) :
    Answers (p.scale s.toFraction) (fun r => r.Whole ∧ r.norm ≤ p.norm) := by
  have hterm : ∀ t ∈ p.terms, Answers (scaleTerm s.toFraction t)
      (fun u => u.2.isInteger = true ∧ u.2.num.natAbs ≤ t.2.num.natAbs) := by
    intro t ht
    have hle : t.2.num.natAbs ≤ p.norm := magnitude_le_norm (ν := Fraction) ht
    have hmul : Answers (t.2.mul s.toFraction) (fun x => x.isInteger = true
        ∧ x.num.natAbs ≤ t.2.num.natAbs) := by
      rw [Fraction.eq_ofInt (hp t ht), Sign.toFraction, Fraction.mul_ofInt]
      refine Fraction.ofInt_answers ?_ (hle.trans hfits)
      cases s <;> simp [Sign.toInt, Fraction.ofInt]
    exact hmul.bind fun x hx => answers_ok hx
  have hne : ¬ s.toFraction.isZero = true := by cases s <;> decide
  unfold scale
  rw [if_neg hne]
  exact (Answers.mapM hterm).bind fun us h => answers_ok h

end Bounded

end Polynomial

instance : Measured Polynomial where
  Whole := Polynomial.Whole
  magnitude := Polynomial.norm
  add_answers := fun _ _ hp hq hfits => Polynomial.add_answers hp hq hfits

/-! ## §4. Products of multivectors with whole coefficients. -/

namespace Multivector

open SortedTerms

/-- Every coefficient of every coefficient is a whole number. -/
def Whole (a : Multivector) : Prop := ∀ t ∈ a.terms, t.2.Whole

instance (a : Multivector) : Decidable a.Whole :=
  inferInstanceAs (Decidable (∀ t ∈ a.terms, t.2.Whole))

/-- The sum of the absolute values of all coefficients, over all blades and monomials. -/
def norm (a : Multivector) : Nat := (a.terms.map fun t => t.2.norm).sum

section Bounded

variable {a b : Multivector} (ha : a.Whole) (hb : b.Whole)
  (hfits : a.norm * b.norm ≤ Word.reach)
include ha hb hfits

theorem mulTerm_answers {s t : Blade × Polynomial} (hs : s ∈ a.terms) (ht : t ∈ b.terms) :
    Answers (mulTerm s t) (fun u => u.2.Whole ∧ u.2.norm ≤ s.2.norm * t.2.norm) := by
  have hle : s.2.norm * t.2.norm ≤ a.norm * b.norm :=
    Nat.mul_le_mul (magnitude_le_norm (ν := Polynomial) hs) (magnitude_le_norm (ν := Polynomial) ht)
  have hle' : s.2.norm * t.2.norm ≤ Word.reach :=
    hle.trans hfits
  refine (Polynomial.mul_answers (ha s hs) (hb t ht) hle').bind fun p h => ?_
  obtain ⟨hp, hnorm⟩ := h
  have hsign := Polynomial.scaleSign_answers hp (metric.canonicalizeKnown (s.1 ++ t.1)).sign
    (hnorm.trans hle')
  exact hsign.bind fun q hq => answers_ok ⟨hq.1, hq.2.trans hnorm⟩

/-- **The geometric product answers if the product of the norms fits.** -/
theorem mul_answers : Answers (a.mul b) (fun c => c.Whole ∧ c.norm ≤ a.norm * b.norm) := by
  refine (rows_answers (ν := Polynomial) fun s hs t ht =>
    mulTerm_answers ha hb hfits hs ht).bind fun rows h => ?_
  obtain ⟨hwhole, hle⟩ := h
  have hlist := ofList_answers hwhole (hle.trans hfits)
  exact hlist.bind fun sum h => answers_ok ⟨h.1, h.2.trans hle⟩

end Bounded

/-- A part of a multivector has at most its norm. -/
theorem norm_project_le (a : Multivector) (grade : Nat) : (a.project grade).norm ≤ a.norm :=
  (List.filter_sublist.map _).sum_le_sum fun _ _ => Nat.zero_le _

/-- A grade is answered or undefined. -/
theorem grade_cases (a : Multivector) : a.grade = .error .gradeUndefined ∨ ∃ r, a.grade = .ok r := by
  unfold grade
  split
  · exact Or.inl rfl
  · split
    · exact Or.inr ⟨_, rfl⟩
    · exact Or.inl rfl

/-- What a graded product can be: zero, refused, or a part of the geometric product. -/
inductive IsPart (a b : Multivector) (x : Outcome Multivector) : Prop where
  | zero (h : x = .ok zero)
  | refused (h : x = .error .gradeUndefined)
  | part (grade : Nat) (h : x = (do return (← a.mul b).project grade))

/-- **Graded products begin alike**: zero ends them, a mixture is refused, and two
grades go on. -/
theorem isPart_of_grades {a b : Multivector} {f : Nat → Nat → Outcome Multivector}
    (hf : ∀ r s, IsPart a b (f r s)) : IsPart a b (if a.isZero || b.isZero then .ok zero
      else do
        let r ← a.grade
        let s ← b.grade
        f r s) := by
  by_cases h0 : (a.isZero || b.isZero) = true
  · rw [if_pos h0]
    exact .zero rfl
  · rw [if_neg h0]
    rcases a.grade_cases with ha | ⟨r, ha⟩
    · rw [ha]
      exact .refused rfl
    · rcases b.grade_cases with hb | ⟨s, hb⟩
      · rw [ha, hb]
        exact .refused rfl
      · rw [ha, hb]
        exact hf r s

theorem isPart_wedge (a b : Multivector) : IsPart a b (a.wedge b) :=
  isPart_of_grades fun r s => .part (r + s) rfl

theorem isPart_leftContract (a b : Multivector) : IsPart a b (a.leftContract b) := by
  apply isPart_of_grades
  intro r s
  by_cases hlt : s < r
  · rw [if_pos hlt]
    exact .zero rfl
  · rw [if_neg hlt]
    exact .part (s - r) rfl

/-- **Graded products do not overflow where the geometric product does not.** -/
theorem IsPart.answers {a b : Multivector} {x : Outcome Multivector} (hx : IsPart a b x)
    (ha : a.Whole) (hb : b.Whole) (hfits : a.norm * b.norm ≤ Word.reach) :
    x = .error .gradeUndefined ∨ Answers x (fun c => c.norm ≤ a.norm * b.norm) := by
  cases hx with
  | zero h =>
    rw [h]
    exact Or.inr (answers_ok (Nat.zero_le _))
  | refused h => exact Or.inl h
  | part grade h =>
    rw [h]
    refine Or.inr ((mul_answers ha hb hfits).bind fun c hc => answers_ok ?_)
    exact (c.norm_project_le grade).trans hc.2

/-! ## §5. The bound. -/

/-- **PRODUCTS DO NOT OVERFLOW BELOW THE PRODUCT OF THE NORMS**: if all coefficients
are whole numbers and the product of the sums of their absolute values is at most
2⁶³ − 1, then the geometric product answers, with at most that norm, and the graded
products answer or are refused for a mixture of grades.  Every multiplication, sign
and partial sum on the way is checked, so none of them overflows. -/
theorem products_within_reach {a b : Multivector} (ha : a.Whole) (hb : b.Whole)
    (hfits : a.norm * b.norm ≤ Word.reach) :
    (∃ c, a.mul b = .ok c ∧ c.Whole ∧ c.norm ≤ a.norm * b.norm)
      ∧ (a.wedge b = .error .gradeUndefined
        ∨ ∃ c, a.wedge b = .ok c ∧ c.norm ≤ a.norm * b.norm)
      ∧ (a.leftContract b = .error .gradeUndefined
        ∨ ∃ c, a.leftContract b = .ok c ∧ c.norm ≤ a.norm * b.norm)
      ∧ a.mul b ≠ .error .overflow ∧ a.wedge b ≠ .error .overflow
      ∧ a.leftContract b ≠ .error .overflow := by
  have hmul := mul_answers ha hb hfits
  have hwedge := (isPart_wedge a b).answers ha hb hfits
  have hcontract := (isPart_leftContract a b).answers ha hb hfits
  refine ⟨hmul, hwedge, hcontract, ?_, ?_, ?_⟩
  · obtain ⟨c, hc, -⟩ := hmul
    rw [hc]
    exact nofun
  · rcases hwedge with h | ⟨c, h, -⟩ <;> rw [h] <;> exact nofun
  · rcases hcontract with h | ⟨c, h, -⟩ <;> rw [h] <;> exact nofun

/-- The vector `3 t e₋ − 4 e₊`, of norm 7. -/
def slope : Multivector :=
  ⟨[([0], ⟨[(⟨["t"]⟩, ⟨3, 1⟩)]⟩), ([1], ⟨[(⟨[]⟩, ⟨-4, 1⟩)]⟩)]⟩

/-- The vector `(2⁶³ − 8)/7 e₋ + e₊`, of norm `(2⁶³ − 1)/7`. -/
def steep : Multivector :=
  ⟨[([0], ⟨[(⟨[]⟩, ⟨1317624576693539400, 1⟩)]⟩), ([1], ⟨[(⟨[]⟩, ⟨1, 1⟩)]⟩)]⟩

/-- The bound is reached: the norms multiply to 2⁶³ − 1 itself. -/
theorem products_within_reach_steep :
    (slope.Whole ∧ steep.Whole ∧ slope.norm * steep.norm ≤ Word.reach)
      ∧ slope.norm * steep.norm = Word.reach
      ∧ (∃ c, slope.mul steep = .ok c ∧ c.norm ≤ slope.norm * steep.norm)
      ∧ slope.wedge steep ≠ .error .overflow ∧ slope.leftContract steep ≠ .error .overflow := by
  have hslope : slope.Whole := by decide
  have hsteep : steep.Whole := by decide
  have hfits : slope.norm * steep.norm ≤ Word.reach := by decide
  obtain ⟨⟨c, hc, -, hnorm⟩, -, -, -, hwedge, hcontract⟩ :=
    products_within_reach hslope hsteep hfits
  exact ⟨⟨hslope, hsteep, hfits⟩, by decide, ⟨c, hc, hnorm⟩, hwedge, hcontract⟩

end Multivector

end GeometricAlgebra
