/-
  GeometricAlgebra.Proofs.Duality
  ────────────────────────────────
  **THE DUAL IS MULTIPLICATION BY THE PSEUDOSCALAR.**

  The dual is a left contraction, that is a part of the geometric product with the
  pseudoscalar.  Every blade lies within the pseudoscalar, so the contraction
  keeps every pair of blades and the projection drops nothing.  What the signs of
  two such products come to does not depend on the grade, because the product is
  associative: it is the square of the pseudoscalar, −1.

  Main result:
    * `Multivector.dual_laws` — the dual is the product with the pseudoscalar, in
      the complementary grade; applied twice it is the opposite; and it refuses
      the mixtures of grades.
-/
import GeometricAlgebra.Proofs.GradedLaws

namespace GeometricAlgebra

open Outcome

namespace Multivector

open SortedTerms

/-! ## §1. The pseudoscalar. -/

theorem canonicalBlade_pseudoscalar : CanonicalBlade metric.pseudoscalar :=
  ⟨by decide, fun _ hi => List.mem_range.mp hi⟩

/-- The element that the pseudoscalar stands for. -/
noncomputable def volume : ConformalAlgebra := algebraTerm metric.pseudoscalar 1

theorem volume_denotes : Denotes volume (unit metric.pseudoscalar) :=
  unit_denotes canonicalBlade_pseudoscalar

/-- **The pseudoscalar squares to −1**, whatever it is multiplied to. -/
theorem volume_mul_volume : volume * volume = -1 := by
  have hsign : metric.twist metric.pseudoscalar.toFinset metric.pseudoscalar.toFinset
      = .negative := by decide
  unfold volume algebraTerm
  rw [Clifford.single_mul_single, hsign, symmDiff_self, mul_one]
  exact neg_one_smul ℤ (1 : ConformalAlgebra)

/-- **Contracting onto the pseudoscalar keeps every blade.** -/
theorem contract_volume {terms : List (Blade × Polynomial)}
    (hterms : ∀ t ∈ terms, CanonicalBlade t.1) :
    Clifford.contract (reading algebraTerm terms) volume = reading algebraTerm terms * volume := by
  induction terms with
  | nil => simp
  | cons t terms ih =>
    have hsub : t.1.toFinset ⊆ metric.pseudoscalar.toFinset := by
      intro i hi
      have hlt := (hterms t List.mem_cons_self).2 i (List.mem_toFinset.mp hi)
      exact List.mem_toFinset.mpr (List.mem_range.mpr hlt)
    have hhead : Clifford.contract (algebraTerm t.1 (ExactSummand.value t.2)) volume
        = algebraTerm t.1 (ExactSummand.value t.2) * volume := by
      unfold Clifford.contract volume algebraTerm
      rw [Clifford.mulWhere_single, if_pos hsub]
    rw [reading_cons, map_add, AddMonoidHom.add_apply, hhead,
      ih fun t' ht' => hterms t' (List.mem_cons_of_mem t ht'), add_mul]

/-! ## §2. The dual. -/

section Dual

variable {grade : Nat} {a : Multivector} (ha : a.Canonical) (hgrade : a.Homogeneous grade)
include ha hgrade

/-- The product with the pseudoscalar lies in the complementary grade. -/
theorem mul_volume_yields : Yields (a.mul (unit metric.pseudoscalar))
    (fun b => Denotes (a.value * volume) b ∧ b.Homogeneous (metric.size - grade)) := by
  have hA : Denotes a.value a := ⟨ha, rfl⟩
  have hx := (homogeneous_iff hA).mp hgrade
  have hvolume := (homogeneous_iff volume_denotes).mp (unit_homogeneous _)
  have hpart := Clifford.gradePart_contract hx hvolume
  rw [value, contract_volume fun t ht => (ha.term ht).1] at hpart
  apply (hA.mul volume_denotes).mono
  intro b hb
  exact ⟨hb, (homogeneous_iff hb).mpr hpart⟩

/-- **The dual is the product with the pseudoscalar**, overflows included. -/
theorem dual_eq_mul : a.dual = a.mul (unit metric.pseudoscalar) := by
  have hI : (unit metric.pseudoscalar).isZero = false := rfl
  unfold dual leftContract
  rw [hI, Bool.or_false]
  split
  next h0 =>
    -- no term, no product
    rw [isZero_iff.mp h0]
    rfl
  next h0 =>
    have hle : ¬ metric.size < grade := fun hlt => h0 (isZero_iff.mpr (hgrade.eq_zero ha hlt))
    rw [hgrade.grade_eq h0]
    show (if metric.size < grade then _ else _) = _
    rw [if_neg hle]
    cases mul_volume_yields ha hgrade with
    | overflow h =>
      rw [h]
      rfl
    | answer b h hb =>
      -- every term of the product is in the grade that is kept
      have hself : b.project (metric.size - grade) = b := by
        have hfilter : b.terms.filter (fun t => t.1.length == metric.size - grade) = b.terms :=
          List.filter_eq_self.mpr fun t ht => beq_iff_eq.mpr (hb.2 t ht)
        rw [project, hfilter]
      rw [h]
      exact congrArg Except.ok hself

/-- **The dual of the dual is the opposite.** -/
theorem dual_dual_agree : Agree (do (← a.dual).dual) a.neg := by
  have hA : Denotes a.value a := ⟨ha, rfl⟩
  have htwice : Yields (do (← a.dual).dual) (Denotes (a.value * volume * volume)) := by
    rw [dual_eq_mul ha hgrade]
    refine (mul_volume_yields ha hgrade).bind fun b hb => ?_
    rw [dual_eq_mul hb.1.1 hb.2]
    exact hb.1.mul volume_denotes
  have hneg : Yields a.neg (Denotes (a.value * volume * volume)) := by
    rw [mul_assoc, volume_mul_volume, mul_neg, mul_one, ← neg_one_smul ℤ]
    exact hA.scaleInt (-1)
  exact agree_of_denotes htwice hneg

end Dual

/-- Two blades of different grades make a mixture. -/
theorem mixed_of_ne {a : Multivector} {s t : Blade × Polynomial} (hs : s ∈ a.terms)
    (ht : t ∈ a.terms) (h : s.1.length ≠ t.1.length) : a.Mixed :=
  fun _ hgrade => h ((hgrade s hs).trans (hgrade t ht).symm)

/-- A mixture of grades has no dual. -/
theorem Mixed.dual_eq {a : Multivector} (h : a.Mixed) : a.dual = .error .gradeUndefined := by
  have h0 : ¬ a.isZero = true := by
    intro h0
    rw [isZero_iff] at h0
    exact h 0 (h0 ▸ zero_homogeneous 0)
  have hI : (unit metric.pseudoscalar).isZero = false := rfl
  unfold dual leftContract
  rw [hI, Bool.or_false, if_neg h0, h.grade_eq]
  rfl

/-- **THE DUAL IS THE PRODUCT WITH THE PSEUDOSCALAR AND SQUARES TO −1**: for a
multivector of grade `g`, zero among them, the dual is the geometric product with
the pseudoscalar `-+xyz`, which lies in grade `5 − g` unless a coefficient
overflows, and the dual of the dual is the opposite.  Mixtures of grades are
refused. -/
theorem dual_laws {a : Multivector} (ha : a.Canonical) :
    blade "-+xyz" = .ok (unit metric.pseudoscalar)
      ∧ (∀ grade, a.Homogeneous grade →
        a.dual = a.mul (unit metric.pseudoscalar)
          ∧ Yields a.dual (Homogeneous (5 - grade))
          ∧ Agree (do (← a.dual).dual) a.neg)
      ∧ (a.Mixed → a.dual = .error .gradeUndefined) := by
  have hlabel : blade "-+xyz" = .ok (unit metric.pseudoscalar) := by decide
  refine ⟨hlabel, fun grade hgrade => ⟨?_, ?_, ?_⟩, Mixed.dual_eq⟩
  · exact dual_eq_mul ha hgrade
  · rw [dual_eq_mul ha hgrade]
    exact (mul_volume_yields ha hgrade).mono fun _ h => h.2
  · exact dual_dual_agree ha hgrade

/-- The dual of `t e₋e₊x` is a bivector, whose dual is `−t e₋e₊x`; a mixture has
none. -/
theorem dual_laws_trivector :
    (trivector.Canonical ∧ trivector.Homogeneous 3 ∧ mixed.Canonical ∧ mixed.Mixed)
      ∧ trivector.dual = trivector.mul (unit metric.pseudoscalar)
      ∧ (∃ b, trivector.dual = .ok b ∧ b.Homogeneous 2)
      ∧ Agree (do (← trivector.dual).dual) trivector.neg
      ∧ mixed.dual = .error .gradeUndefined := by
  have htrivector : trivector.Canonical := by decide
  have hgrade : trivector.Homogeneous 3 := by decide
  have hmixed : mixed.Canonical := by decide
  have hgrades : mixed.Mixed :=
    mixed_of_ne (List.mem_cons_self ..) (List.mem_cons_of_mem _ (List.mem_cons_self ..)) (by decide)
  obtain ⟨-, hlaws, -⟩ := dual_laws htrivector
  obtain ⟨-, -, hrefuse⟩ := dual_laws hmixed
  obtain ⟨hmul, hcomplement, htwice⟩ := hlaws 3 hgrade
  have hdual : trivector.dual = .ok ⟨[([3, 4], .var "t")]⟩ := by decide
  exact ⟨⟨htrivector, hgrade, hmixed, hgrades⟩, hmul,
    ⟨_, hdual, hcomplement.ensures _ hdual⟩, htwice, hrefuse hgrades⟩

end Multivector

end GeometricAlgebra
