/-
  GeometricAlgebra.Proofs.VectorProducts
  ────────────────────────────────
  **A VECTOR MULTIPLIES TO ITS TWO GRADED PRODUCTS.**

  The geometric product of a vector and a multivector of grade `s` has parts of
  the grades `s − 1` and `s + 1` only: the left contraction and the outer product.
  This also holds at both ends, where one of the two is zero: a scalar has no grade
  below it, and the pseudoscalar none above.

  Both graded products compute the geometric product and keep one part of it, and
  the parts share no blade.  Adding them up again is therefore only a matter of
  order and cannot overflow (`Multivector.add_of_disjoint`), so the law holds of the
  outcomes themselves.

  Main result:
    * `Multivector.vector_mul_splits` — `v b = (v ⌋ b) + (v ∧ b)`, overflows included.
-/
import GeometricAlgebra.Proofs.GradedLaws

namespace GeometricAlgebra

open Outcome

namespace Multivector

open SortedTerms

/-! ## §1. Sums without a common blade. -/

/-- **Multivectors without a common blade are added without an overflow.** -/
theorem add_of_disjoint {x y : ConformalAlgebra} {a b : Multivector} (ha : Denotes x a)
    (hb : Denotes y b) (hdisjoint : ∀ s ∈ a.terms, ∀ t ∈ b.terms, s.1 ≠ t.1) :
    Answers (a.add b) (Denotes (x + y)) := by
  have hkeys : ((b.terms ++ a.terms).map Prod.fst).Nodup := by
    rw [List.map_append, List.nodup_append]
    refine ⟨hb.1.1.nodup_keys, ha.1.1.nodup_keys, ?_⟩
    intro K hK L hL
    obtain ⟨t, ht, rfl⟩ := List.mem_map.mp hK
    obtain ⟨s, hs, rfl⟩ := List.mem_map.mp hL
    exact (hdisjoint s hs t ht).symm
  obtain ⟨sum, hsum, -⟩ := accumulateAll_answers_of_new hkeys hb.1.1.2
  have hadd : a.add b = .ok ⟨sum⟩ := by
    unfold add
    rw [hsum]
    rfl
  exact ⟨⟨sum⟩, hadd, (ha.add hb).ensures _ hadd⟩

/-- Multivectors of different grades have no common blade. -/
theorem Homogeneous.disjoint {g h : Nat} {a b : Multivector} (ha : a.Homogeneous g)
    (hb : b.Homogeneous h) (hne : g ≠ h) : ∀ s ∈ a.terms, ∀ t ∈ b.terms, s.1 ≠ t.1 := by
  intro s hs t ht heq
  have hlength : s.1.length = t.1.length := congrArg List.length heq
  rw [ha s hs, hb t ht] at hlength
  exact hne hlength

/-! ## §2. Graded products as parts. -/

/-- Zero times anything is answered with zero. -/
theorem mul_of_zero {a b : Multivector} (h : a = zero ∨ b = zero) : a.mul b = .ok zero := by
  rcases h with rfl | rfl
  · rfl
  · -- every row of the table of products is empty
    exact table_nil mulTerm a.terms ofBlades

section Parts

variable {r s : Nat} {a b : Multivector} (ha : a ≠ zero) (hb : b ≠ zero)
  (hr : a.Homogeneous r) (hs : b.Homogeneous s)
include ha hb hr hs

theorem wedge_eq_project : a.wedge b = (do return (← a.mul b).project (r + s)) := by
  have h0 : ¬ (a.isZero || b.isZero) = true := mt isZero_or_iff.mp (not_or.mpr ⟨ha, hb⟩)
  unfold wedge
  rw [if_neg h0, hr.grade_eq (mt isZero_iff.mp ha), hs.grade_eq (mt isZero_iff.mp hb)]
  rfl

theorem leftContract_eq_project : a.leftContract b
    = if s < r then .ok zero else (do return (← a.mul b).project (s - r)) := by
  have h0 : ¬ (a.isZero || b.isZero) = true := mt isZero_or_iff.mp (not_or.mpr ⟨ha, hb⟩)
  unfold leftContract
  rw [if_neg h0, hr.grade_eq (mt isZero_iff.mp ha), hs.grade_eq (mt isZero_iff.mp hb)]
  rfl

end Parts

/-! ## §3. The product of a vector. -/

section Vector

variable {s : Nat} {v b c w p : Multivector} (hv : v.Canonical) (hb : b.Canonical)
  (hvector : v.Homogeneous 1) (hs : b.Homogeneous s)
include hv hb hvector hs

/-- **The two graded products of a vector add up to the geometric product.** -/
theorem add_parts (hmul : v.mul b = .ok p) (hcontract : v.leftContract b = .ok c)
    (hwedge : v.wedge b = .ok w) : c.add w = .ok p := by
  have hV : Denotes v.value v := ⟨hv, rfl⟩
  have hB : Denotes b.value b := ⟨hb, rfl⟩
  have hP := (hV.mul hB).ensures _ hmul
  obtain ⟨hC, hclower⟩ := (hV.leftContract_yields hB hvector hs).ensures _ hcontract
  obtain ⟨hW, hwupper⟩ := (hV.wedge_yields hB hvector hs).ensures _ hwedge
  have hne : s - 1 ≠ 1 + s := by omega
  obtain ⟨sum, hadd, hsum⟩ := add_of_disjoint hC hW (hclower.disjoint hwupper hne)
  -- both sides stand for the product, because no third grade occurs in it
  rw [← Clifford.mul_eq_contract_add_wedge ((homogeneous_iff hV).mp hvector)] at hsum
  rw [hadd, (hsum.eq_iff hP).mpr rfl]

/-- **The geometric product of a vector is the sum of its graded products**, as an
outcome: the one overflows where the other does. -/
theorem vector_mul_eq : v.mul b = (do (← v.leftContract b).add (← v.wedge b)) := by
  by_cases hzero : v = zero ∨ b = zero
  · have hcontract : v.leftContract b = .ok zero := if_pos (isZero_or_iff.mpr hzero)
    rw [mul_of_zero hzero, hcontract, wedge_of_zero hzero]
    rfl
  · obtain ⟨hv0, hb0⟩ := not_or.mp hzero
    have hwedge := wedge_eq_project hv0 hb0 hvector hs
    have hcontract := leftContract_eq_project hv0 hb0 hvector hs
    cases hmul : v.mul b with
    | error failure =>
      -- the outer product fails alike, and nothing answers in front of it but zero
      rw [hmul] at hwedge hcontract
      rw [hwedge, hcontract]
      by_cases hlt : s < 1
      · rw [if_pos hlt]
        rfl
      · rw [if_neg hlt]
        rfl
    | ok p =>
      rw [hmul] at hwedge hcontract
      have hanswer : ∃ c, v.leftContract b = .ok c := by
        rw [hcontract]
        split
        · exact ⟨zero, rfl⟩
        · exact ⟨p.project (s - 1), rfl⟩
      obtain ⟨c, hc⟩ := hanswer
      rw [hc, hwedge]
      exact (add_parts hv hb hvector hs hmul hc hwedge).symm

/-- **A VECTOR'S GEOMETRIC PRODUCT SPLITS INTO ITS TWO GRADED PRODUCTS**: for a
multivector that is zero or a vector and one that is zero or of grade `s`, with any
coefficients, the left contraction and the outer product answer unless a coefficient
overflows, in the grades `s − 1` and `s + 1`, and the geometric product is their sum.
It answers exactly when both of them and their sum do. -/
theorem vector_mul_splits :
    Yields (v.leftContract b) (Homogeneous (s - 1))
      ∧ Yields (v.wedge b) (Homogeneous (s + 1))
      ∧ v.mul b = (do (← v.leftContract b).add (← v.wedge b))
      ∧ ∀ p, v.mul b = .ok p ↔
        ∃ c w, v.leftContract b = .ok c ∧ v.wedge b = .ok w ∧ c.add w = .ok p := by
  have hV : Denotes v.value v := ⟨hv, rfl⟩
  have hB : Denotes b.value b := ⟨hb, rfl⟩
  have hsplit := vector_mul_eq hv hb hvector hs
  refine ⟨?_, ?_, hsplit, fun p => ?_⟩
  · exact (hV.leftContract_yields hB hvector hs).mono fun _ h => h.2
  · rw [Nat.add_comm]
    exact (hV.wedge_yields hB hvector hs).mono fun _ h => h.2
  · rw [hsplit, bind_eq_ok_iff]
    simp only [bind_eq_ok_iff]
    constructor
    · rintro ⟨c, hc, w, hw, hadd⟩
      exact ⟨c, w, hc, hw, hadd⟩
    · rintro ⟨c, w, hc, hw, hadd⟩
      exact ⟨c, hc, w, hw, hadd⟩

end Vector

/-- The bivector `t e₋x`. -/
def weighted : Multivector := ⟨[([0, 2], .var "t")]⟩

/-- The product of the origin and `t e₋x` has a part on each side, `−t x/2` and
`t e₋e₊x/2`; that of the origin and the scalar `t` has none below. -/
theorem vector_mul_splits_origin :
    (Conformal.origin.Canonical ∧ Conformal.origin.Homogeneous 1
        ∧ weighted.Canonical ∧ weighted.Homogeneous 2
        ∧ (scalar (.var "t")).Canonical ∧ (scalar (.var "t")).Homogeneous 0)
      ∧ (∃ p, Conformal.origin.mul weighted = .ok p
        ∧ p.terms = [([0, 1, 2], ⟨[(⟨["t"]⟩, ⟨1, 2⟩)]⟩), ([2], ⟨[(⟨["t"]⟩, ⟨-1, 2⟩)]⟩)]
        ∧ ∃ c w, Conformal.origin.leftContract weighted = .ok c
          ∧ Conformal.origin.wedge weighted = .ok w ∧ c.add w = .ok p)
      ∧ Conformal.origin.leftContract (scalar (.var "t")) = .ok zero
      ∧ Conformal.origin.mul (scalar (.var "t")) = (do
          (← Conformal.origin.leftContract (scalar (.var "t"))).add
            (← Conformal.origin.wedge (scalar (.var "t")))) := by
  have horigin : Conformal.origin.Canonical := by decide
  have hvector : Conformal.origin.Homogeneous 1 := by decide
  have hweighted : weighted.Canonical := by decide
  have hgrade : weighted.Homogeneous 2 := by decide
  have hscalar : (scalar (.var "t")).Canonical := by decide
  have hgrade' : (scalar (.var "t")).Homogeneous 0 := by decide
  obtain ⟨-, -, -, hparts⟩ := vector_mul_splits horigin hweighted hvector hgrade
  obtain ⟨-, -, hsum, -⟩ := vector_mul_splits horigin hscalar hvector hgrade'
  have hmul : Conformal.origin.mul weighted
      = .ok ⟨[([0, 1, 2], ⟨[(⟨["t"]⟩, ⟨1, 2⟩)]⟩), ([2], ⟨[(⟨["t"]⟩, ⟨-1, 2⟩)]⟩)]⟩ := by decide
  exact ⟨⟨horigin, hvector, hweighted, hgrade, hscalar, hgrade'⟩,
    ⟨_, hmul, rfl, (hparts _).mp hmul⟩, by decide, hsum⟩

end Multivector

end GeometricAlgebra
