/-
  GeometricAlgebra.Proofs.CanonicalForm
  ────────────────────────────────
  **NORMAL FORMS COMPUTE IN EVERY CLIFFORD ALGEBRA.**

  A word of axes can be brought into normal form without a loop: reading it
  from the right, each axis is multiplied into the canonical blade built so
  far.  It moves past each smaller axis at the price of one sign flip, and it
  vanishes against an equal axis at the price of its square.

      y x       =  − x y
      x − x y   =  − (−) x x y  =  −(−) y

  This is the form in which words are reasoned about; `Proofs.Reordering` shows
  that the loops of `Metric.reorder` compute it.

  Assign to each axis an element of a ring so that different axes anticommute
  and each axis squares to its square (`Metric.Represents`).  Then a word of
  axes multiplies to its normal form, sign included (`Metric.prod_normalForm`).
  In the algebra `Clifford metric ℤ` different signed blades are different
  elements, so the normal form is the only one with this property
  (`Metric.normalForm_eq_of_prod_eq`).

  Main result:
    * `Metric.normalForm_append` — a part of a word may be replaced by its
      normal form, at the price of its sign.
-/
import GeometricAlgebra.Proofs.CliffordRing

namespace GeometricAlgebra

namespace Metric

variable {metric : Metric}

/-! ## §1. Normal forms. -/

/-- The product of an axis and a canonical blade. -/
def insertAxis (metric : Metric) (axis : Axis) : Blade → SignedBlade
  | [] => ⟨[axis], .positive⟩
  | first :: rest =>
      if axis < first then ⟨axis :: first :: rest, .positive⟩
      else if axis = first then ⟨rest, metric.square axis⟩
      else
        let inner := insertAxis metric axis rest
        ⟨first :: inner.axes, -inner.sign⟩

/-- The product of an axis and a signed canonical blade. -/
def mulAxis (metric : Metric) (axis : Axis) (blade : SignedBlade) : SignedBlade :=
  let moved := metric.insertAxis axis blade.axes
  ⟨moved.axes, moved.sign * blade.sign⟩

/-- The product of the axes of a word, as a sign and a canonical blade. -/
def normalForm (metric : Metric) (word : Blade) : SignedBlade :=
  word.foldr metric.mulAxis ⟨[], .positive⟩

@[simp] theorem normalForm_nil (metric : Metric) : metric.normalForm [] = ⟨[], .positive⟩ := rfl

@[simp] theorem normalForm_cons (metric : Metric) (axis : Axis) (word : Blade) :
    metric.normalForm (axis :: word) = metric.mulAxis axis (metric.normalForm word) := rfl

/-! ## §2. The shape of a normal form. -/

/-- A word of axes of the alphabet. -/
def InAlphabet (metric : Metric) (word : Blade) : Prop := ∀ axis ∈ word, axis < metric.size

/-- Increasing words with the same axes are equal. -/
theorem eq_of_toFinset_eq {u v : Blade} (hu : u.Pairwise (· < ·)) (hv : v.Pairwise (· < ·))
    (h : u.toFinset = v.toFinset) : u = v := by
  have hperm : u.Perm v :=
    List.perm_of_nodup_nodup_toFinset_eq (hu.imp Nat.ne_of_lt) (hv.imp Nat.ne_of_lt) h
  exact List.Perm.eq_of_pairwise (fun _ _ _ _ hab hba => absurd hba (Nat.lt_asymm hab)) hu hv hperm

theorem mem_insertAxis {axis i : Axis} {word : Blade}
    (h : i ∈ (metric.insertAxis axis word).axes) : i = axis ∨ i ∈ word := by
  induction word with
  | nil => exact Or.inl (List.mem_singleton.mp h)
  | cons first rest ih =>
    unfold insertAxis at h
    split at h
    · exact List.mem_cons.mp h
    · split at h
      · exact Or.inr (List.mem_cons_of_mem first h)
      · rcases List.mem_cons.mp h with rfl | hmem
        · exact Or.inr List.mem_cons_self
        · exact (ih hmem).imp_right (List.mem_cons_of_mem first)

theorem insertAxis_increasing {axis : Axis} {word : Blade} (h : word.Pairwise (· < ·)) :
    (metric.insertAxis axis word).axes.Pairwise (· < ·) := by
  induction word with
  | nil => exact List.pairwise_singleton _ _
  | cons first rest ih =>
    obtain ⟨hfirst, hrest⟩ := List.pairwise_cons.mp h
    unfold insertAxis
    split
    next hlt =>
      refine List.pairwise_cons.mpr ⟨?_, h⟩
      intro i hi
      rcases List.mem_cons.mp hi with rfl | hi
      · exact hlt
      · exact hlt.trans (hfirst i hi)
    next hge =>
      split
      next => exact hrest
      next hne =>
        refine List.pairwise_cons.mpr ⟨?_, ih hrest⟩
        intro i hi
        rcases mem_insertAxis hi with rfl | hi
        · exact lt_of_le_of_ne (Nat.le_of_not_lt hge) (Ne.symm hne)
        · exact hfirst i hi

/-- **Normal forms increase strictly.** -/
theorem normalForm_increasing (metric : Metric) (word : Blade) :
    (metric.normalForm word).axes.Pairwise (· < ·) := by
  induction word with
  | nil => exact List.Pairwise.nil
  | cons axis word ih => exact insertAxis_increasing ih

/-- A normal form has no axis that the word does not have. -/
theorem mem_normalForm {i : Axis} {word : Blade} (h : i ∈ (metric.normalForm word).axes) :
    i ∈ word := by
  induction word with
  | nil => exact h
  | cons axis word ih =>
    rcases mem_insertAxis h with rfl | hmem
    · exact List.mem_cons_self
    · exact List.mem_cons_of_mem axis (ih hmem)

theorem InAlphabet.append {u v : Blade} (hu : metric.InAlphabet u) (hv : metric.InAlphabet v) :
    metric.InAlphabet (u ++ v) := by
  intro i hi
  rcases List.mem_append.mp hi with hi | hi
  · exact hu i hi
  · exact hv i hi

theorem InAlphabet.normalForm {word : Blade} (h : metric.InAlphabet word) :
    metric.InAlphabet (metric.normalForm word).axes :=
  fun i hi => h i (mem_normalForm hi)

/-! ## §3. Words in a ring. -/

/-- Elements of a ring for the axes: different ones anticommute, and each has
the square of its axis. -/
structure Represents {A : Type} [Ring A] (metric : Metric) (f : Axis → A) : Prop where
  anticommute : ∀ i j, i ≠ j → f i * f j = -(f j * f i)
  square : ∀ i, f i * f i = ((metric.square i).toInt : A)

section Represents

variable {A : Type} [Ring A] {f : Axis → A} (hf : metric.Represents f)
include hf

theorem prod_insertAxis (axis : Axis) (word : Blade) :
    f axis * (word.map f).prod = (metric.insertAxis axis word).sign.toInt
      • ((metric.insertAxis axis word).axes.map f).prod := by
  induction word with
  | nil => simp [insertAxis, Sign.toInt]
  | cons first rest ih =>
    rw [List.map_cons, List.prod_cons]
    unfold insertAxis
    split
    next =>
      -- a smaller axis belongs in front
      simp [Sign.toInt]
    next =>
      split
      next heq =>
        -- an equal axis vanishes at the price of its square
        subst heq
        rw [← mul_assoc, hf.square, ← zsmul_eq_mul]
      next hne =>
        -- a greater axis passes the one in front: one sign flip
        calc f axis * (f first * (rest.map f).prod)
            = -(f first * f axis) * (rest.map f).prod := by
              rw [← mul_assoc, hf.anticommute axis first hne]
          _ = -(f first * (f axis * (rest.map f).prod)) := by rw [neg_mul, mul_assoc]
          _ = _ := by
              rw [ih, mul_smul_comm, Sign.toInt_neg, neg_smul, List.map_cons, List.prod_cons]

/-- **A word multiplies to its normal form.** -/
theorem prod_normalForm (word : Blade) :
    (word.map f).prod
      = (metric.normalForm word).sign.toInt • ((metric.normalForm word).axes.map f).prod := by
  -- from the right, as the normal form is built
  induction word with
  | nil => simp [Sign.toInt]
  | cons axis word ih =>
    rw [List.map_cons, List.prod_cons, ih, mul_smul_comm, prod_insertAxis hf, smul_smul,
      ← Sign.toInt_mul, Sign.mul_comm]
    rfl

end Represents

/-! ## §4. Words in the Clifford algebra. -/

theorem represents_axis {R : Type} [CommRing R] :
    metric.Represents (Clifford.axis : Axis → Clifford metric R) :=
  ⟨fun _ _ => Clifford.axis_mul_axis, Clifford.axis_mul_self⟩

/-- The element of the Clifford algebra that a signed blade stands for. -/
noncomputable def element (metric : Metric) (blade : SignedBlade) : Clifford metric ℤ :=
  blade.sign.toInt • Clifford.single blade.axes.toFinset 1

theorem prod_eq_element (word : Blade) :
    (word.map Clifford.axis).prod = metric.element (metric.normalForm word) := by
  rw [prod_normalForm represents_axis, Clifford.prod_axes (metric.normalForm_increasing word)]
  rfl

/-- Different canonical blades, or different signs, are different elements. -/
theorem element_injective {u v : SignedBlade} (hu : u.axes.Pairwise (· < ·))
    (hv : v.axes.Pairwise (· < ·)) (h : metric.element u = metric.element v) : u = v := by
  unfold element at h
  rw [← map_zsmul, ← map_zsmul, smul_eq_mul, smul_eq_mul, mul_one, mul_one] at h
  obtain ⟨haxes, hsign⟩ := Clifford.single_inj (Sign.toInt_ne_zero u.sign) h
  cases u
  cases v
  cases eq_of_toFinset_eq hu hv haxes
  cases Sign.toInt_injective hsign
  rfl

/-- **The normal form is determined by the product of the word.** -/
theorem normalForm_eq_of_prod_eq {word : Blade} {blade : SignedBlade}
    (hblade : blade.axes.Pairwise (· < ·))
    (h : (word.map Clifford.axis).prod = metric.element blade) : metric.normalForm word = blade :=
  element_injective (metric.normalForm_increasing word) hblade ((prod_eq_element word).symm.trans h)

/-- The normal form of a word in order is the word itself. -/
theorem normalForm_of_increasing {word : Blade} (h : word.Pairwise (· < ·)) :
    metric.normalForm word = ⟨word, .positive⟩ := by
  refine normalForm_eq_of_prod_eq h ?_
  rw [Clifford.prod_axes h]
  exact (one_smul ℤ _).symm

/-! ## §5. Normal forms of parts. -/

/-- **Normal forms are compatible with concatenation**: in any context, a part of a
word may be replaced by its normal form, and the sign of the part multiplies the
sign of the whole. -/
theorem normalForm_append (metric : Metric) (a b c : Blade) :
    metric.normalForm (a ++ b ++ c)
      = ⟨(metric.normalForm (a ++ (metric.normalForm b).axes ++ c)).axes,
          (metric.normalForm b).sign
            * (metric.normalForm (a ++ (metric.normalForm b).axes ++ c)).sign⟩ := by
  refine normalForm_eq_of_prod_eq (metric.normalForm_increasing _) ?_
  -- as a factor of a product, a part may be replaced by what it is equal to
  have hpart : ((a ++ b ++ c).map Clifford.axis).prod
      = (metric.normalForm b).sign.toInt
        • (((a ++ (metric.normalForm b).axes ++ c).map Clifford.axis).prod : Clifford metric ℤ) := by
    simp only [List.map_append, List.prod_append]
    rw [prod_normalForm represents_axis b, mul_smul_comm, smul_mul_assoc]
  rw [hpart, prod_eq_element, element, smul_smul, ← Sign.toInt_mul]
  rfl

end Metric

end GeometricAlgebra
