/-
  GeometricAlgebra.Proofs.GradedLaws
  ────────────────────────────────
  **THE LAWS OF THE OUTER PRODUCT AND THE LEFT CONTRACTION.**

  Both products project a geometric product, which depends on the squares of the
  axes, and both ask for a grade that the zero multivector does not have.  On
  homogeneous operands neither shows: the answers are those of
  `Clifford.wedge` and `Clifford.contract` and are homogeneous again, also where
  an intermediate product cancels.

  Main results:
    * `Multivector.exterior_product` — the outer product is graded, associative,
      graded commutative and alternating, and refuses exactly the mixtures of
      grades.
    * `Multivector.leftContract_adjoint` — contracting an outer product is
      contracting its factors one after the other.
-/
import GeometricAlgebra.Proofs.BuiltValues
import GeometricAlgebra.Proofs.ExteriorAlgebra

namespace GeometricAlgebra

open Outcome

namespace Multivector

/-! ## §1. Grades. -/

/-- Blades of at least two grades occur. -/
def Mixed (a : Multivector) : Prop := ∀ grade, ¬ a.Homogeneous grade

theorem zero_homogeneous (grade : Nat) : zero.Homogeneous grade :=
  fun _ ht => absurd ht List.not_mem_nil

/-- A canonical blade has at most one axis of each kind. -/
theorem CanonicalBlade.length_le {blade : Blade} (h : CanonicalBlade blade) :
    blade.length ≤ metric.size := by
  have hsub : blade ⊆ List.range metric.size := fun i hi => List.mem_range.mpr (h.2 i hi)
  have hle := (List.subperm_of_subset (h.1.imp Nat.ne_of_lt) hsub).length_le
  rwa [List.length_range] at hle

/-- Above the grade of the pseudoscalar there is only zero. -/
theorem Homogeneous.eq_zero {grade : Nat} {a : Multivector} (h : a.Homogeneous grade)
    (ha : a.Canonical) (hgrade : metric.size < grade) : a = zero := by
  refine isZero_iff.mp (List.isEmpty_iff.mpr (List.eq_nil_iff_forall_not_mem.mpr ?_))
  intro t ht
  have hle := (ha.term ht).1.length_le
  rw [h t ht] at hle
  omega

/-- A grade that is answered is the grade of every blade. -/
theorem homogeneous_of_grade_eq {grade : Nat} {a : Multivector} (h : a.grade = .ok grade) :
    a.Homogeneous grade := by
  obtain ⟨terms⟩ := a
  cases terms with
  | nil => exact zero_homogeneous grade
  | cons first rest =>
    unfold Multivector.grade at h
    change (if rest.all (fun t => t.1.length == first.1.length) = true then _ else _) = _ at h
    split at h
    next hall =>
      obtain rfl := Except.ok.inj h
      intro t ht
      rcases List.mem_cons.mp ht with rfl | ht
      · rfl
      · exact beq_iff_eq.mp (List.all_eq_true.mp hall t ht)
    next => cases h

/-- **A mixture of grades has no grade.** -/
theorem Mixed.grade_eq {a : Multivector} (h : a.Mixed) : a.grade = .error .gradeUndefined := by
  cases hgrade : a.grade with
  | ok grade => exact absurd (homogeneous_of_grade_eq hgrade) (h grade)
  | error failure =>
    unfold Multivector.grade at hgrade
    split at hgrade
    · exact hgrade.symm
    · split at hgrade
      · cases hgrade
      · exact hgrade.symm

/-! ## §2. Exact values and grades. -/

section Graded

variable {l r : Nat} {x y : ConformalAlgebra} {a b : Multivector} (ha : Denotes x a)
  (hb : Denotes y b) (hl : a.Homogeneous l) (hr : b.Homogeneous r)
include ha hb hl hr

/-- **The outer product is exact and homogeneous.** -/
theorem Denotes.wedge_yields : Yields (a.wedge b)
    (fun c => Denotes (Clifford.wedge x y) c ∧ c.Homogeneous (l + r)) := by
  have hx := (homogeneous_iff ha).mp hl
  have hy := (homogeneous_iff hb).mp hr
  have hwedge := ha.wedge hb hl hr
  rw [Clifford.gradePart_mul_eq_wedge hx hy] at hwedge
  apply hwedge.mono
  intro c hc
  exact ⟨hc, (homogeneous_iff hc).mpr (Clifford.gradePart_wedge hx hy)⟩

/-- **The left contraction is exact and homogeneous.** -/
theorem Denotes.leftContract_yields : Yields (a.leftContract b)
    (fun c => Denotes (Clifford.contract x y) c ∧ c.Homogeneous (r - l)) := by
  have hx := (homogeneous_iff ha).mp hl
  have hy := (homogeneous_iff hb).mp hr
  have hvalue : (if l ≤ r then Clifford.gradePart (r - l) (x * y) else 0)
      = Clifford.contract x y := by
    split
    next hle => exact Clifford.gradePart_mul_eq_contract hx hy hle
    next hlt => exact (Clifford.contract_eq_zero hx hy (Nat.lt_of_not_le hlt)).symm
  have hcontract := ha.leftContract hb hl hr
  rw [hvalue] at hcontract
  apply hcontract.mono
  intro c hc
  exact ⟨hc, (homogeneous_iff hc).mpr (Clifford.gradePart_contract hx hy)⟩

end Graded

/-! ## §3. The outer product. -/

theorem isZero_or_iff {a b : Multivector} :
    (a.isZero || b.isZero) = true ↔ a = zero ∨ b = zero := by
  rw [Bool.or_eq_true, isZero_iff, isZero_iff]

/-- Zero is answered before a grade is asked for. -/
theorem wedge_of_zero {a b : Multivector} (h : a = zero ∨ b = zero) : a.wedge b = .ok zero :=
  if_pos (isZero_or_iff.mpr h)

/-- A mixture of grades on either side is refused. -/
theorem wedge_of_mixed {a b : Multivector} (ha : a ≠ zero) (hb : b ≠ zero)
    (h : a.Mixed ∨ b.Mixed) : a.wedge b = .error .gradeUndefined := by
  have h0 : ¬ (a.isZero || b.isZero) = true := mt isZero_or_iff.mp (not_or.mpr ⟨ha, hb⟩)
  unfold wedge
  rw [if_neg h0]
  -- the left grade is asked first
  by_cases hmixed : a.Mixed
  · rw [hmixed.grade_eq]
    rfl
  · obtain ⟨l, hl⟩ := not_forall_not.mp hmixed
    have ha0 : ¬ a.isZero = true := mt isZero_iff.mp ha
    rw [hl.grade_eq ha0, (h.resolve_left hmixed).grade_eq]
    rfl

/-- **The outer product refuses exactly the mixtures of grades**, and these only
beside operands other than zero. -/
theorem wedge_eq_error_iff {a b : Multivector} (ha : a.Canonical) (hb : b.Canonical) :
    a.wedge b = .error .gradeUndefined ↔ a ≠ zero ∧ b ≠ zero ∧ (a.Mixed ∨ b.Mixed) := by
  constructor
  · intro h
    have hzero : ¬ (a = zero ∨ b = zero) := by
      intro h0
      rw [wedge_of_zero h0] at h
      cases h
    obtain ⟨ha0, hb0⟩ := not_or.mp hzero
    refine ⟨ha0, hb0, ?_⟩
    -- homogeneous operands can only overflow
    by_contra hnone
    obtain ⟨hA, hB⟩ := not_or.mp hnone
    obtain ⟨l, hl⟩ := not_forall_not.mp hA
    obtain ⟨r, hr⟩ := not_forall_not.mp hB
    cases (Denotes.wedge_yields ⟨ha, rfl⟩ ⟨hb, rfl⟩ hl hr).failure_eq h
  · rintro ⟨ha0, hb0, hmixed⟩
    exact wedge_of_mixed ha0 hb0 hmixed

/-- Scaling by a whole number is exact. -/
theorem Denotes.scaleInt {x : ConformalAlgebra} {a : Multivector} (ha : Denotes x a) (n : ℤ) :
    Yields (a.scale (.ofInt n)) (Denotes (n • x)) := by
  have h := ha.scale (Polynomial.ofInt_denotes n)
  rwa [Int.cast_smul_eq_zsmul] at h

/-- **THE OUTER PRODUCT IS AN EXTERIOR PRODUCT**: unless a coefficient overflows,
homogeneous operands of grades `r`, `s` and `t`, zero among them, have an outer
product of grade `r + s`, which is zero above the pseudoscalar; it is
associative, commutes up to `(-1)^(r s)`, and vanishes on a vector and itself.
Of arbitrary operands it refuses the mixtures of grades, beside operands other
than zero, and nothing else. -/
theorem exterior_product {a b c : Multivector} (ha : a.Canonical) (hb : b.Canonical)
    (hc : c.Canonical) :
    (∀ r s t, a.Homogeneous r → b.Homogeneous s → c.Homogeneous t →
      Yields (a.wedge b) (fun ab => ab.Homogeneous (r + s) ∧ (5 < r + s → ab = zero))
        ∧ Agree (do (← a.wedge b).wedge c) (do a.wedge (← b.wedge c))
        ∧ Agree (a.wedge b) (do (← b.wedge a).scale (.ofInt ((-1) ^ (r * s)))))
      ∧ (a.Homogeneous 1 → Yields (a.wedge a) (· = zero))
      ∧ (a.wedge b = .error .gradeUndefined ↔ a ≠ zero ∧ b ≠ zero ∧ (a.Mixed ∨ b.Mixed)) := by
  have hA : Denotes a.value a := ⟨ha, rfl⟩
  have hB : Denotes b.value b := ⟨hb, rfl⟩
  have hC : Denotes c.value c := ⟨hc, rfl⟩
  refine ⟨?_, ?_, wedge_eq_error_iff ha hb⟩
  · intro r s t hr hs ht
    have hab := hA.wedge_yields hB hr hs
    have hbc := hB.wedge_yields hC hs ht
    have hba := hB.wedge_yields hA hs hr
    refine ⟨?_, ?_, ?_⟩
    · -- the grade
      apply hab.mono
      rintro ab ⟨hvalue, hgrade⟩
      exact ⟨hgrade, hgrade.eq_zero hvalue.1⟩
    · -- associativity
      have hl : Yields (do (← a.wedge b).wedge c)
          (Denotes (Clifford.wedge (Clifford.wedge a.value b.value) c.value)) :=
        hab.bind fun _ h => (h.1.wedge_yields hC h.2 ht).mono fun _ h => h.1
      rw [Clifford.wedge_assoc] at hl
      exact agree_of_denotes hl
        (hbc.bind fun _ h => (hA.wedge_yields h.1 hr h.2).mono fun _ h => h.1)
    · -- graded commutativity
      have hl := hab.mono fun _ h => h.1
      rw [Clifford.wedge_comm ((homogeneous_iff hA).mp hr) ((homogeneous_iff hB).mp hs)] at hl
      exact agree_of_denotes hl (hba.bind fun _ h => h.1.scaleInt _)
  · intro hv
    apply (hA.wedge_yields hA hv hv).mono
    rintro vv ⟨hvalue, -⟩
    rw [Clifford.wedge_self ((homogeneous_iff hA).mp hv)] at hvalue
    exact value_injective hvalue.1 zero_denotes.1 (hvalue.2.trans zero_denotes.2.symm)

/-- The laws for the two null vectors and `x`: `∞ ∧ o = −e₋e₊`, turned round `e₋e₊`,
and `∞ ∧ o ∧ x = −e₋e₊x` in either order; and the refusal of a mixture. -/
theorem exterior_product_null :
    (Conformal.infinity.Canonical ∧ Conformal.origin.Canonical ∧ (unit [2]).Canonical
        ∧ mixed.Canonical)
      ∧ (Conformal.infinity.Homogeneous 1 ∧ Conformal.origin.Homogeneous 1
        ∧ (unit [2]).Homogeneous 1)
      ∧ (Conformal.infinity.wedge Conformal.origin = .ok ⟨[([0, 1], .ofInt (-1))]⟩
        ∧ Homogeneous 2 ⟨[([0, 1], .ofInt (-1))]⟩)
      ∧ ((do (← Conformal.infinity.wedge Conformal.origin).wedge (unit [2]))
          = .ok ⟨[([0, 1, 2], .ofInt (-1))]⟩
        ∧ (do Conformal.infinity.wedge (← Conformal.origin.wedge (unit [2])))
          = .ok ⟨[([0, 1, 2], .ofInt (-1))]⟩)
      ∧ Agree (do (← Conformal.infinity.wedge Conformal.origin).wedge (unit [2]))
          (do Conformal.infinity.wedge (← Conformal.origin.wedge (unit [2])))
      ∧ Conformal.origin.wedge Conformal.infinity = .ok ⟨[([0, 1], .ofInt 1)]⟩
      ∧ Agree (Conformal.infinity.wedge Conformal.origin)
          (do (← Conformal.origin.wedge Conformal.infinity).scale (.ofInt ((-1) ^ (1 * 1))))
      ∧ Conformal.infinity.wedge Conformal.infinity = .ok zero
      ∧ mixed.wedge Conformal.infinity = .error .gradeUndefined := by
  have hinfinity : Conformal.infinity.Canonical := by decide
  have horigin : Conformal.origin.Canonical := by decide
  have hunit : (unit [2]).Canonical := by decide
  have hmixed : mixed.Canonical := by decide
  have h1 : Conformal.infinity.Homogeneous 1 := by decide
  have h2 : Conformal.origin.Homogeneous 1 := by decide
  have h3 : (unit [2]).Homogeneous 1 := by decide
  -- its first two blades have different grades
  have hgrades : mixed.Mixed := by
    intro grade h
    have h0 : 0 = grade := h _ (List.mem_cons_self ..)
    have h2 : 2 = grade := h _ (List.mem_cons_of_mem _ (List.mem_cons_self ..))
    omega
  obtain ⟨hlaws, hself, -⟩ := exterior_product hinfinity horigin hunit
  obtain ⟨hgrade, hassoc, hcomm⟩ := hlaws 1 1 1 h1 h2 h3
  obtain ⟨-, -, herror⟩ := exterior_product hmixed hinfinity hunit
  have hwedge : Conformal.infinity.wedge Conformal.origin
      = .ok ⟨[([0, 1], .ofInt (-1))]⟩ := by decide
  have hleft : (do (← Conformal.infinity.wedge Conformal.origin).wedge (unit [2]))
      = .ok ⟨[([0, 1, 2], .ofInt (-1))]⟩ := by decide
  have hright : (do Conformal.infinity.wedge (← Conformal.origin.wedge (unit [2])))
      = .ok ⟨[([0, 1, 2], .ofInt (-1))]⟩ := by decide
  have hturned : Conformal.origin.wedge Conformal.infinity = .ok ⟨[([0, 1], .ofInt 1)]⟩ := by
    decide
  -- the square answers, so it is the zero that is promised
  obtain ⟨square, hsquare⟩ : ∃ square, Conformal.infinity.wedge Conformal.infinity = .ok square :=
    ⟨zero, by decide⟩
  have hzero : square = zero := (hself h1).ensures _ hsquare
  refine ⟨⟨hinfinity, horigin, hunit, hmixed⟩, ⟨h1, h2, h3⟩,
    ⟨hwedge, (hgrade.ensures _ hwedge).1⟩, ⟨hleft, hright⟩, hassoc, hturned, hcomm,
    hzero ▸ hsquare, ?_⟩
  exact herror.mpr ⟨by decide, by decide, Or.inl hgrades⟩

/-! ## §4. The left contraction. -/

/-- **THE LEFT CONTRACTION IS ADJOINT TO THE OUTER PRODUCT**: for homogeneous
operands of any grades, zero among them, all products answer unless a
coefficient overflows, and `(a ∧ b) ⌋ c = a ⌋ (b ⌋ c)`. -/
theorem leftContract_adjoint {a b c : Multivector} {r s t : Nat} (ha : a.Canonical)
    (hb : b.Canonical) (hc : c.Canonical) (hr : a.Homogeneous r) (hs : b.Homogeneous s)
    (ht : c.Homogeneous t) :
    Yields (a.wedge b) (Homogeneous (r + s))
      ∧ Yields (b.leftContract c) (Homogeneous (t - s))
      ∧ Agree (do (← a.wedge b).leftContract c) (do a.leftContract (← b.leftContract c)) := by
  have hA : Denotes a.value a := ⟨ha, rfl⟩
  have hB : Denotes b.value b := ⟨hb, rfl⟩
  have hC : Denotes c.value c := ⟨hc, rfl⟩
  have hab := hA.wedge_yields hB hr hs
  have hbc := hB.leftContract_yields hC hs ht
  refine ⟨hab.mono fun _ h => h.2, hbc.mono fun _ h => h.2, ?_⟩
  have hl : Yields (do (← a.wedge b).leftContract c)
      (Denotes (Clifford.contract (Clifford.wedge a.value b.value) c.value)) :=
    hab.bind fun _ h => (h.1.leftContract_yields hC h.2 ht).mono fun _ h => h.1
  rw [Clifford.contract_wedge] at hl
  exact agree_of_denotes hl
    (hbc.bind fun _ h => (hA.leftContract_yields h.1 hr h.2).mono fun _ h => h.1)

/-- The trivector `t e₋e₊x`. -/
def trivector : Multivector := ⟨[([0, 1, 2], .var "t")]⟩

/-- The point at infinity and `x`, contracted into the trivector: `x ⌋ T = t e₋e₊`, and
`(∞ ∧ x) ⌋ T = ∞ ⌋ (x ⌋ T) = −t e₋ − t e₊`. -/
theorem leftContract_adjoint_trivector :
    (Conformal.infinity.Canonical ∧ (unit [2]).Canonical ∧ trivector.Canonical)
      ∧ (Conformal.infinity.Homogeneous 1 ∧ (unit [2]).Homogeneous 1 ∧ trivector.Homogeneous 3)
      ∧ (Conformal.infinity.wedge (unit [2]) = .ok ⟨[([0, 2], .ofInt 1), ([1, 2], .ofInt 1)]⟩
        ∧ Homogeneous 2 ⟨[([0, 2], .ofInt 1), ([1, 2], .ofInt 1)]⟩)
      ∧ ((unit [2]).leftContract trivector = .ok ⟨[([0, 1], .var "t")]⟩
        ∧ Homogeneous 2 ⟨[([0, 1], .var "t")]⟩)
      ∧ ((do (← Conformal.infinity.wedge (unit [2])).leftContract trivector)
          = .ok ⟨[([0], ⟨[(⟨["t"]⟩, ⟨-1, 1⟩)]⟩), ([1], ⟨[(⟨["t"]⟩, ⟨-1, 1⟩)]⟩)]⟩
        ∧ (do Conformal.infinity.leftContract (← (unit [2]).leftContract trivector))
          = .ok ⟨[([0], ⟨[(⟨["t"]⟩, ⟨-1, 1⟩)]⟩), ([1], ⟨[(⟨["t"]⟩, ⟨-1, 1⟩)]⟩)]⟩)
      ∧ Agree (do (← Conformal.infinity.wedge (unit [2])).leftContract trivector)
          (do Conformal.infinity.leftContract (← (unit [2]).leftContract trivector)) := by
  have hinfinity : Conformal.infinity.Canonical := by decide
  have hunit : (unit [2]).Canonical := by decide
  have htrivector : trivector.Canonical := by decide
  have h1 : Conformal.infinity.Homogeneous 1 := by decide
  have h2 : (unit [2]).Homogeneous 1 := by decide
  have h3 : trivector.Homogeneous 3 := by decide
  obtain ⟨hwedge, hcontract, hadjoint⟩ := leftContract_adjoint hinfinity hunit htrivector h1 h2 h3
  have hab : Conformal.infinity.wedge (unit [2])
      = .ok ⟨[([0, 2], .ofInt 1), ([1, 2], .ofInt 1)]⟩ := by decide
  have hbc : (unit [2]).leftContract trivector = .ok ⟨[([0, 1], .var "t")]⟩ := by decide
  refine ⟨⟨hinfinity, hunit, htrivector⟩, ⟨h1, h2, h3⟩, ⟨hab, hwedge.ensures _ hab⟩,
    ⟨hbc, hcontract.ensures _ hbc⟩, ⟨?_, ?_⟩, hadjoint⟩
  · decide
  · decide

end Multivector

end GeometricAlgebra
