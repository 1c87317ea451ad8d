/-
  GeometricAlgebra.Proofs.KernelRefinement
  ────────────────────────────────
  **KERNELS REFINE THE SYMBOLIC PRODUCTS.**

  A generator with three Euclidean axes describes conformal space in an
  alphabet of its own, in which either of the first two axes may be the one
  that squares to −1.  Spelling its blades with the symbols of conformal space
  (`Generator.embed`) is a homomorphism of Clifford algebras, although it
  exchanges two axes and with them the order of the words.  What a kernel
  computes step by step is therefore the part of the geometric product that
  the symbolic engine projects out.

  Main result:
    * `Generator.kernel_refines_product` — a kernel and the symbolic product
      agree for all coefficients.
-/
import GeometricAlgebra.Proofs.GradedProducts
import GeometricAlgebra.Proofs.KernelTerms
import GeometricAlgebra.Proofs.LabelledBlades

namespace GeometricAlgebra

open Outcome

/-! ## §1. Kernels over symbolic coefficients. -/

/-- The symbolic product that a kernel is derived for. -/
def GradedProduct.apply : GradedProduct → Multivector → Multivector → Outcome Multivector
  | .wedge => Multivector.wedge
  | .leftContraction => Multivector.leftContract

/-- The symbol of conformal space for a symbol of a three-dimensional alphabet:
`-` for the axis that squares to −1, `+` for the other conformal axis, and
`x`, `y`, `z` for the Euclidean ones in order. -/
def Settings.spelling (s : Settings) (c : Char) : Char :=
  if c = s.negativeAxis then '-'
  else if c ∈ s.conformalSymbols then '+'
  else match (s.usedSymbols.drop 2).idxOf c with
    | 0 => 'x'
    | 1 => 'y'
    | _ => 'z'

namespace Generator

/-- A blade of the generator, spelled with the symbols of conformal space. -/
def embed (g : Generator) (blade : Blade) : Outcome Multivector :=
  Multivector.blade (String.ofList ((g.metric.label blade).toList.map g.settings.spelling))

/-- Add a multiple of a blade. -/
def addMultiple (g : Generator) (sum : Multivector) (p : Polynomial) (blade : Blade) :
    Outcome Multivector := do
  let unit ← g.embed blade
  let multiple ← unit.scale p
  sum.add multiple

/-- The sum of the blades of one grade with the given coefficients. -/
def combination (g : Generator) (grade : Nat) (a : Blade → Polynomial) : Outcome Multivector :=
  (g.metric.basis grade).foldlM (fun sum blade => g.addMultiple sum (a blade) blade)
    Multivector.zero

/-- One step of a kernel: add `sign · lhs · rhs · out`. -/
def addStep (g : Generator) (a b : Blade → Polynomial) (sum : Multivector) (t : KernelTerm) :
    Outcome Multivector := do
  let product ← (a t.lhs).mul (b t.rhs)
  let signed ← product.scale t.sign.toFraction
  g.addMultiple sum signed t.out

/-- What a kernel computes from the coefficients of its operands, step by step. -/
def evaluate (g : Generator) (kernel : Kernel) (a b : Blade → Polynomial) : Outcome Multivector :=
  kernel.terms.foldlM (g.addStep a b) Multivector.zero

end Generator

/-! ## §2. The alphabet of a generator inside conformal space. -/

namespace Generator

/-- The axis of conformal space for an axis of the generator: the axis that
squares to −1 changes places with the first one. -/
def conformalAxis (g : Generator) : Equiv.Perm Axis := Equiv.swap 0 g.minus

theorem conformalAxis_eq_zero_iff {g : Generator} {i : Axis} :
    g.conformalAxis i = 0 ↔ i = g.minus := by
  rw [conformalAxis, Equiv.swap_apply_eq_iff, Equiv.swap_apply_left]

/-- The element of conformal space for an axis of the generator. -/
noncomputable def conformalVector (g : Generator) (i : Axis) : Multivector.ConformalAlgebra :=
  Clifford.axis (g.conformalAxis i)

namespace Accepted

variable {g : Generator} (hg : g.Accepted)
include hg

/-- **The exchange of the axes respects the squares**, so words of the generator
multiply in conformal space as they do in its own metric. -/
theorem represents_conformalVector : g.metric.Represents g.conformalVector where
  anticommute i j h := Clifford.axis_mul_axis (g.conformalAxis.injective.ne h)
  square i := by
    have hsquare : Multivector.metric.square (g.conformalAxis i) = g.metric.square i := by
      rw [Multivector.square_eq, hg.square_eq_ite]
      simp only [conformalAxis_eq_zero_iff]
    rw [← hsquare]
    exact Clifford.axis_mul_self (g.conformalAxis i)

/-- The other conformal axis comes second. -/
theorem conformalAxis_eq_one {i : Axis} (hi : i < 2) (h : i ≠ g.minus) :
    g.conformalAxis i = 1 := by
  have hminus := hg.minus_lt
  unfold conformalAxis
  generalize g.minus = m at h hminus
  match i, m with
  | 0, 0 => exact absurd rfl h
  | 0, 1 => rfl
  | 1, 0 => rfl
  | 1, 1 => exact absurd rfl h

/-- Euclidean axes stay where they are. -/
theorem conformalAxis_eq_self {i : Axis} (hi : 2 ≤ i) : g.conformalAxis i = i := by
  have hlt : g.minus < i := hg.minus_lt.trans_le hi
  exact Equiv.swap_apply_of_ne_of_ne (Nat.ne_of_gt (Nat.zero_lt_of_lt hlt)) (Nat.ne_of_gt hlt)

theorem idxOf_euclidean {k : Nat} (hk : k + 2 < g.settings.axisCount) :
    (g.settings.usedSymbols.drop 2).idxOf (g.metric.symbol (k + 2)) = k := by
  have hused : k + 2 < g.settings.usedSymbols.length := hk.trans_eq hg.length_used.symm
  have hdrop : k < (g.settings.usedSymbols.drop 2).length := by
    rw [List.length_drop]
    omega
  have hget : (g.settings.usedSymbols.drop 2)[k] = g.metric.symbol (k + 2) := by
    rw [hg.symbol_eq hused, List.getElem_drop]
    simp only [Nat.add_comm 2 k]
  rw [← hget]
  exact (hg.nodup_used.sublist (List.drop_sublist 2 _)).idxOf_getElem k hdrop

/-- **The spelling of an axis is its axis in conformal space.** -/
theorem axisOf_spelling (hdim : g.settings.dimensions = 3) {i : Axis}
    (hi : i < g.settings.axisCount) :
    Multivector.metric.axisOf (g.settings.spelling (g.metric.symbol i))
      = some (g.conformalAxis i) := by
  unfold Settings.spelling
  simp only [hg.symbol_eq_negativeAxis_iff hi, hg.symbol_mem_conformalSymbols_iff hi]
  split
  next hneg =>
    -- the axis that squares to −1
    rw [conformalAxis_eq_zero_iff.mpr hneg]
    rfl
  next hneg =>
    split
    next hconf =>
      -- the other conformal axis
      rw [hg.conformalAxis_eq_one hconf hneg]
      rfl
    next hconf =>
      -- a Euclidean axis, by its place among the Euclidean symbols
      obtain ⟨k, rfl⟩ := Nat.exists_eq_add_of_le' (Nat.le_of_not_lt hconf)
      rw [hg.conformalAxis_eq_self (Nat.le_add_left 2 k), hg.idxOf_euclidean hi]
      rw [Settings.axisCount, hdim] at hi
      match k, hi with
      | 0, _ => rfl
      | 1, _ => rfl
      | 2, _ => rfl

end Accepted

/-! ## §3. Blades and their combinations. -/

/-- The element of conformal space for a blade of the generator. -/
noncomputable def element (g : Generator) (blade : Blade) : Multivector.ConformalAlgebra :=
  (blade.map g.conformalVector).prod

/-- The element of a combination of blades. -/
noncomputable def combine (g : Generator) (blades : List Blade) (a : Blade → Polynomial) :
    Multivector.ConformalAlgebra :=
  (blades.map fun blade => (a blade).value • g.element blade).sum

namespace Accepted

variable {g : Generator} (hg : g.Accepted) (hdim : g.settings.dimensions = 3)
include hg hdim

/-- **A blade embeds as the product of its axes.** -/
theorem embed_denotes {blade : Blade} (hblade : g.metric.InAlphabet blade) :
    Yields (g.embed blade) (Multivector.Denotes (g.element blade)) := by
  have hparse : Multivector.metric.parse
      (String.ofList ((g.metric.label blade).toList.map g.settings.spelling))
      = .ok (blade.map g.conformalAxis) := by
    rw [Metric.parse_eq_ok_iff, String.toList_ofList, Metric.label, String.toList_ofList,
      List.map_map, List.forall₂_map_left_iff, List.forall₂_map_right_iff, List.forall₂_same]
    intro i hi
    exact hg.axisOf_spelling hdim ((hblade i hi).trans_eq hg.size_eq)
  have h := Multivector.blade_denotes hparse
  rw [List.map_map] at h
  exact h

theorem addMultiple_yields {x : Multivector.ConformalAlgebra} {f : MvPolynomial String ℚ}
    {sum : Multivector} {p : Polynomial} {blade : Blade} (hsum : Multivector.Denotes x sum)
    (hp : Polynomial.Denotes f p) (hblade : g.metric.InAlphabet blade) :
    Yields (g.addMultiple sum p blade) (Multivector.Denotes (x + f • g.element blade)) :=
  (hg.embed_denotes hdim hblade).bind fun _ hunit =>
    (hunit.scale hp).bind fun _ hmultiple => hsum.add hmultiple

/-- **A combination is exact.** -/
theorem combination_denotes {grade : Nat} {a : Blade → Polynomial}
    (ha : ∀ blade ∈ g.metric.basis grade, (a blade).Canonical) :
    Yields (g.combination grade a)
      (Multivector.Denotes (g.combine (g.metric.basis grade) a)) := by
  have hloop : Yields (g.combination grade a) (fun sum => sum.Canonical ∧ sum.value
      = Multivector.zero.value + g.combine (g.metric.basis grade) a) := by
    refine Yields.foldlM Multivector.zero_denotes.1 ?_
    intro blade hblade sum hsum
    exact hg.addMultiple_yields hdim ⟨hsum, rfl⟩ ⟨ha blade hblade, rfl⟩
      (Metric.mem_basis.mp hblade).bounded
  rw [Multivector.zero_denotes.2, zero_add] at hloop
  exact hloop

end Accepted

/-! ## §4. Grades of combinations. -/

variable {g : Generator}

/-- The exchange of axes keeps the grade of a blade. -/
theorem gradePart_element (grade : Nat) {blade : Blade} (h : blade.Nodup) :
    Clifford.gradePart grade (g.element blade)
      = if blade.length = grade then g.element blade else 0 := by
  have hword : (blade.map g.conformalAxis).Nodup := h.map g.conformalAxis.injective
  have hpart : Clifford.gradePart grade
      (((blade.map g.conformalAxis).map Clifford.axis).prod : Multivector.ConformalAlgebra) = _ :=
    Clifford.gradePart_prod_axes grade hword
  rw [List.map_map, List.length_map] at hpart
  exact hpart

/-- A combination of the blades of one grade is homogeneous. -/
theorem gradePart_combine (grade : Nat) (a : Blade → Polynomial) :
    Clifford.gradePart grade (g.combine (g.metric.basis grade) a)
      = g.combine (g.metric.basis grade) a := by
  have hterm : ∀ blade ∈ g.metric.basis grade,
      Clifford.gradePart grade ((a blade).value • g.element blade)
        = (a blade).value • g.element blade := by
    intro blade hblade
    have h := Metric.mem_basis.mp hblade
    rw [Clifford.gradePart_smul, gradePart_element grade h.nodup, if_pos h.length_eq]
  rw [combine, map_list_sum, List.map_map]
  exact congrArg List.sum (List.map_congr_left hterm)

namespace Accepted

variable (hg : g.Accepted)
include hg

/-- The step of a pair of blades is their product. -/
theorem element_pairTerm (lhs rhs : Blade) :
    (g.metric.pairTerm lhs rhs).sign.toInt • g.element (g.metric.pairTerm lhs rhs).out
      = g.element lhs * g.element rhs := by
  have h := Metric.prod_normalForm hg.represents_conformalVector (lhs ++ rhs)
  rw [List.map_append, List.prod_append] at h
  exact h.symm

/-- The target grade keeps the product of two blades or drops it. -/
theorem gradePart_mul (outGrade : Nat) (lhs rhs : Blade) :
    Clifford.gradePart outGrade (g.element lhs * g.element rhs)
      = if (g.metric.pairTerm lhs rhs).out.length = outGrade
          then g.element lhs * g.element rhs else 0 := by
  have hnodup : (g.metric.pairTerm lhs rhs).out.Nodup :=
    (g.metric.normalForm_increasing (lhs ++ rhs)).imp Nat.ne_of_lt
  rw [← hg.element_pairTerm, map_zsmul, gradePart_element outGrade hnodup, smul_ite, smul_zero]

/-- The steps of one left blade add up to a part of its product with the right
combination. -/
theorem sum_partners (r outGrade : Nat) (a b : Blade → Polynomial) (lhs : Blade) :
    ((g.metric.partners r outGrade lhs).map fun rhs =>
        ((a lhs).value * (b rhs).value) • (g.element lhs * g.element rhs)).sum
      = Clifford.gradePart outGrade
          ((a lhs).value • g.element lhs * g.combine (g.metric.basis r) b) := by
  -- a sum over the partners is one over all right blades that is zero elsewhere
  have hfilter := List.sum_map_ite (fun rhs => (g.metric.pairTerm lhs rhs).out.length = outGrade)
    (fun rhs => ((a lhs).value * (b rhs).value) • (g.element lhs * g.element rhs))
    (fun _ => 0) (g.metric.basis r)
  rw [List.map_const', List.sum_replicate, smul_zero, add_zero] at hfilter
  have hterm : ∀ rhs ∈ g.metric.basis r,
      (if (g.metric.pairTerm lhs rhs).out.length = outGrade
        then ((a lhs).value * (b rhs).value) • (g.element lhs * g.element rhs) else 0)
      = Clifford.gradePart outGrade
          ((a lhs).value • g.element lhs * (b rhs).value • g.element rhs) := by
    intro rhs _
    rw [smul_mul_smul_comm, Clifford.gradePart_smul, hg.gradePart_mul, smul_ite, smul_zero]
  rw [Metric.partners, ← hfilter, List.map_congr_left hterm, combine, ← List.sum_map_mul_left,
    map_list_sum, List.map_map]
  rfl

/-- **The steps of a kernel add up to a part of the geometric product.** -/
theorem sum_pairTerms (l r outGrade : Nat) (a b : Blade → Polynomial) :
    ((g.metric.pairTerms l r outGrade).map fun t =>
        ((a t.lhs).value * (b t.rhs).value) • (g.element t.lhs * g.element t.rhs)).sum
      = Clifford.gradePart outGrade
          (g.combine (g.metric.basis l) a * g.combine (g.metric.basis r) b) := by
  have hrow : ∀ lhs ∈ g.metric.basis l,
      (((g.metric.partners r outGrade lhs).map (g.metric.pairTerm lhs)).map fun t =>
        ((a t.lhs).value * (b t.rhs).value) • (g.element t.lhs * g.element t.rhs)).sum
      = Clifford.gradePart outGrade
          ((a lhs).value • g.element lhs * g.combine (g.metric.basis r) b) := by
    intro lhs _
    rw [List.map_map]
    exact hg.sum_partners r outGrade a b lhs
  rw [Metric.pairTerms, List.map_flatMap, List.flatMap_def, List.sum_flatten, List.map_map]
  apply (congrArg List.sum (List.map_congr_left hrow)).trans
  generalize g.combine (g.metric.basis r) b = y
  rw [combine, ← List.sum_map_mul_right, map_list_sum, List.map_map]
  rfl

end Accepted

/-! ## §5. The refinement. -/

namespace Accepted

variable (hg : g.Accepted) (hdim : g.settings.dimensions = 3)
include hg hdim

/-- **A step is exact**: it adds the product of its operands. -/
theorem addStep_yields {l r outGrade : Nat} {a b : Blade → Polynomial} {t : KernelTerm}
    {sum : Multivector} (ht : t ∈ g.metric.pairTerms l r outGrade)
    (ha : ∀ blade ∈ g.metric.basis l, (a blade).Canonical)
    (hb : ∀ blade ∈ g.metric.basis r, (b blade).Canonical) (hsum : sum.Canonical) :
    Yields (g.addStep a b sum t) (Multivector.Denotes (sum.value
      + ((a t.lhs).value * (b t.rhs).value) • (g.element t.lhs * g.element t.rhs))) := by
  obtain ⟨hlhs, hrhs, -, hterm⟩ := Metric.mem_pairTerms.mp ht
  have hpa := ha t.lhs (Metric.mem_basis.mpr hlhs)
  have hpb := hb t.rhs (Metric.mem_basis.mpr hrhs)
  -- the result of a step has no axis that its operands do not have
  have hout : g.metric.InAlphabet t.out := by
    rw [hterm]
    exact (Metric.InAlphabet.append hlhs.bounded hrhs.bounded).normalForm
  have helement : g.element t.lhs * g.element t.rhs = t.sign.toInt • g.element t.out := by
    rw [← hg.element_pairTerm t.lhs t.rhs, ← hterm]
  unfold addStep
  refine (Polynomial.Denotes.mul ⟨hpa, rfl⟩ ⟨hpb, rfl⟩).bind fun product hproduct => ?_
  refine (hproduct.scaleSign t.sign).bind fun signed hsigned => ?_
  rw [helement, smul_comm, ← smul_assoc]
  exact hg.addMultiple_yields hdim ⟨hsum, rfl⟩ hsigned hout

/-- **A kernel is exact**: it computes the part of the geometric product in its
target grade. -/
theorem evaluate_denotes {kernel : Kernel} {l r : Nat} {a b : Blade → Polynomial}
    (hterms : kernel.terms = g.metric.pairTerms l r kernel.outGrade)
    (ha : ∀ blade ∈ g.metric.basis l, (a blade).Canonical)
    (hb : ∀ blade ∈ g.metric.basis r, (b blade).Canonical) :
    Yields (g.evaluate kernel a b) (Multivector.Denotes (Clifford.gradePart kernel.outGrade
      (g.combine (g.metric.basis l) a * g.combine (g.metric.basis r) b))) := by
  have hloop : Yields (g.evaluate kernel a b) (fun sum => sum.Canonical ∧ sum.value
      = Multivector.zero.value + (kernel.terms.map fun t =>
        ((a t.lhs).value * (b t.rhs).value) • (g.element t.lhs * g.element t.rhs)).sum) := by
    apply Yields.foldlM Multivector.zero_denotes.1
    intro t ht sum hsum
    rw [hterms] at ht
    exact hg.addStep_yields hdim ht ha hb hsum
  rw [Multivector.zero_denotes.2, zero_add, hterms, hg.sum_pairTerms] at hloop
  exact hloop

end Accepted

/-- **GENERATED KERNELS REFINE THE SYMBOLIC ENGINE**: for every accepted
generator with three Euclidean axes and every kernel that it has, the steps of
the kernel add up to the symbolic product of the two combinations, whatever the
coefficients, unless one of the two computations overflows. -/
theorem kernel_refines_product {s : Settings} (h : ofSettings s = .ok g) (hdim : s.dimensions = 3)
    {product : GradedProduct} {l r : Nat} {kernel : Kernel}
    (hkernel : g.metric.kernel ⟨product, l, r⟩ = .ok (some kernel)) {a b : Blade → Polynomial}
    (ha : ∀ blade ∈ g.metric.basis l, (a blade).Canonical)
    (hb : ∀ blade ∈ g.metric.basis r, (b blade).Canonical) :
    Agree (g.evaluate kernel a b)
      (do product.apply (← g.combination l a) (← g.combination r b)) := by
  -- the kernel and the product of the combinations have one exact meaning
  obtain ⟨rfl, hg⟩ := ofSettings_accepted h
  obtain ⟨htarget, hterms⟩ := Metric.kernel_eq_some hkernel
  refine Multivector.agree_of_denotes (hg.evaluate_denotes hdim hterms ha hb) ?_
  refine (hg.combination_denotes hdim ha).bind fun x hx => ?_
  refine (hg.combination_denotes hdim hb).bind fun y hy => ?_
  have hl : x.Homogeneous l := (Multivector.homogeneous_iff hx).mpr (gradePart_combine l a)
  have hr : y.Homogeneous r := (Multivector.homogeneous_iff hy).mpr (gradePart_combine r b)
  cases product with
  | wedge =>
    obtain ⟨-, hgrade⟩ := Metric.targetGrade_wedge_iff.mp htarget
    rw [hgrade]
    exact hx.wedge hy hl hr
  | leftContraction =>
    obtain ⟨hle, hgrade⟩ := Metric.targetGrade_leftContraction_iff.mp htarget
    have hproduct := hx.leftContract hy hl hr
    rw [if_pos hle] at hproduct
    rw [hgrade]
    exact hproduct

/-- Conformal space with the second conformal axis squaring to −1. -/
def swappedSpace : Generator :=
  ⟨{ Settings.default with negativeAxis := 'p' },
    ⟨[('m', .positive), ('p', .negative), ('x', .positive), ('y', .positive), ('z', .positive)]⟩⟩

/-- The contraction of a vector into a bivector, with one coefficient each, where
the conformal axes change places. -/
theorem kernel_refines_product_swapped : ofSettings swappedSpace.settings = .ok swappedSpace
    ∧ ∃ kernel, swappedSpace.metric.kernel ⟨.leftContraction, 1, 2⟩ = .ok (some kernel)
      ∧ Agree
          (swappedSpace.evaluate kernel (fun _ => Polynomial.var "t") (fun _ => Polynomial.var "u"))
          (do
            let x ← swappedSpace.combination 1 fun _ => Polynomial.var "t"
            let y ← swappedSpace.combination 2 fun _ => Polynomial.var "u"
            x.leftContract y) := by
  have hsettings : ofSettings swappedSpace.settings = .ok swappedSpace := by decide
  have htarget : GradedProduct.leftContraction.targetGrade 1 2 = .ok (some 1) := by decide
  have hkernel : swappedSpace.metric.kernel ⟨.leftContraction, 1, 2⟩ = .ok (some _) :=
    Metric.kernel_eq_ok htarget (by decide) (by decide)
  have ht : (Polynomial.var "t").Canonical := by decide
  have hu : (Polynomial.var "u").Canonical := by decide
  exact ⟨hsettings, _, hkernel,
    kernel_refines_product hsettings rfl hkernel (fun _ _ => ht) (fun _ _ => hu)⟩

end Generator

end GeometricAlgebra
