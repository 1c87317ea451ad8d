/-
  GeometricAlgebra.Proofs.SortedSums
  ────────────────────────────────
  **A SORTED SUM IS ITS TOTAL.**

  The total of a list of terms is the function that gives each key the sum of
  its values.  Adding a term adds to the total and keeps the normal form,
  whether the key is new, is there already or cancels
  (`SortedTerms.insert_yields`).  A list in normal form is determined by its
  total (`SortedTerms.eq_of_total_eq`), so equal sums are equal lists.

  Both are stated once, for any values with an exact addition
  (`ExactSummand`): the coefficients of a polynomial are such values, and the
  polynomials of a multivector are too.
-/
import GeometricAlgebra.SortedTerms
import GeometricAlgebra.Proofs.Overflow

namespace GeometricAlgebra

open Outcome

/-- Values in normal form that stand for the elements of a group: the normal
form is unique, the test for zero is right, and addition is exact. -/
class ExactSummand (ν : Type) (M : outParam Type) [Summand ν] [AddCommGroup M] where
  /-- The normal form. -/
  Normal : ν → Prop
  /-- What a value stands for. -/
  value : ν → M
  value_injective : ∀ v w, Normal v → Normal w → value v = value w → v = w
  isZero_iff : ∀ v, Normal v → (Summand.isZero v = true ↔ value v = 0)
  add_yields : ∀ v w, Normal v → Normal w →
    Yields (Summand.add v w) (fun s => Normal s ∧ value s = value v + value w)

namespace SortedTerms

open ExactSummand

variable {κ ν M N : Type} [Summand ν] [AddCommGroup M] [ExactSummand ν M]

/-! ## §1. Totals. -/

/-- The function that gives each key the sum of its values. -/
noncomputable def total (terms : List (κ × ν)) : κ →₀ M :=
  (terms.map fun t => Finsupp.single t.1 (value t.2)).sum

@[simp] theorem total_nil : total ([] : List (κ × ν)) = 0 := rfl

@[simp] theorem total_cons (t : κ × ν) (terms : List (κ × ν)) :
    total (t :: terms) = Finsupp.single t.1 (value t.2) + total terms := List.sum_cons

/-- The sum of the terms, each read as an element of `N`. -/
def reading [AddCommMonoid N] (φ : κ → M →+ N) (terms : List (κ × ν)) : N :=
  (terms.map fun t => φ t.1 (value t.2)).sum

section Read

variable [AddCommMonoid N] (φ : κ → M →+ N)

@[simp] theorem reading_nil : reading φ ([] : List (κ × ν)) = 0 := rfl

@[simp] theorem reading_cons (t : κ × ν) (terms : List (κ × ν)) :
    reading φ (t :: terms) = φ t.1 (value t.2) + reading φ terms := List.sum_cons

theorem reading_flatten (rows : List (List (κ × ν))) :
    reading φ rows.flatten = (rows.map (reading φ)).sum := by
  induction rows with
  | nil => rfl
  | cons row rows ih =>
    rw [List.map_cons, List.sum_cons, ← ih]
    simp only [reading, List.flatten_cons, List.map_append, List.sum_append]

/-- Every reading of the terms is one of their total. -/
theorem reading_eq_liftAddHom (terms : List (κ × ν)) :
    reading φ terms = Finsupp.liftAddHom φ (total terms) := by
  induction terms with
  | nil => simp
  | cons t terms ih =>
    rw [reading_cons, ih, total_cons, map_add, Finsupp.liftAddHom_apply_single]

end Read

/-! ## §2. The normal form, from the left. -/

variable [Ord κ]

/-- The normal form of a sum whose keys have the property `K`: keys increase
strictly, and values are in normal form and not zero. -/
def IsNormal (K : κ → Prop) (terms : List (κ × ν)) : Prop :=
  Canonical terms ∧ ∀ t ∈ terms, K t.1 ∧ ExactSummand.Normal t.2

theorem isNormal_nil {K : κ → Prop} : IsNormal K ([] : List (κ × ν)) :=
  ⟨canonical_nil, by simp⟩

/-- Behind its first term, a normal form is one with greater keys. -/
theorem isNormal_cons {K : κ → Prop} {k : κ} {v : ν} {rest : List (κ × ν)} :
    IsNormal K ((k, v) :: rest) ↔
      (K k ∧ ExactSummand.Normal v ∧ Summand.isZero v = false)
        ∧ IsNormal (fun k' => K k' ∧ compare k k' = .lt) rest := by
  simp only [IsNormal, Canonical, List.pairwise_cons, List.forall_mem_cons]
  constructor
  · intro h
    obtain ⟨⟨⟨hlt, hsorted⟩, hv0, hrest0⟩, ⟨hk, hv⟩, hrest⟩ := h
    exact ⟨⟨hk, hv, hv0⟩, ⟨hsorted, hrest0⟩,
      fun t ht => ⟨⟨(hrest t ht).1, hlt t ht⟩, (hrest t ht).2⟩⟩
  · intro h
    obtain ⟨⟨hk, hv, hv0⟩, ⟨hsorted, hrest0⟩, hrest⟩ := h
    exact ⟨⟨⟨fun t ht => (hrest t ht).1.2, hsorted⟩, hv0, hrest0⟩, ⟨hk, hv⟩,
      fun t ht => ⟨(hrest t ht).1.1, (hrest t ht).2⟩⟩

theorem IsNormal.mono {K L : κ → Prop} {terms : List (κ × ν)} (h : IsNormal K terms)
    (hKL : ∀ k, K k → L k) : IsNormal L terms :=
  ⟨h.1, fun t ht => ⟨hKL t.1 (h.2 t ht).1, (h.2 t ht).2⟩⟩

theorem value_ne_zero {v : ν} (hv : ExactSummand.Normal v) (h : Summand.isZero v = false) :
    value v ≠ 0 := by
  intro h0
  rw [(isZero_iff v hv).mpr h0] at h
  exact absurd h (by decide)

theorem isZero_eq_false {v : ν} (hv : ExactSummand.Normal v) (h : value v ≠ 0) :
    Summand.isZero v = false := by
  rw [Bool.eq_false_iff]
  exact fun h0 => h ((isZero_iff v hv).mp h0)

variable [Std.LawfulEqOrd κ]

/-- A key below all keys has the total zero. -/
theorem total_apply_of_lt {K : κ → Prop} {k : κ} {terms : List (κ × ν)}
    (h : IsNormal (fun k' => K k' ∧ compare k k' = .lt) terms) : total terms k = 0 := by
  induction terms with
  | nil => rfl
  | cons t rest ih =>
    obtain ⟨⟨⟨_, hlt⟩, _⟩, hrest⟩ := isNormal_cons.mp h
    have hne : t.1 ≠ k := by
      intro heq
      have hself : compare k k = .eq := Std.ReflCmp.compare_self
      rw [heq, hself] at hlt
      exact absurd hlt (by decide)
    rw [total_cons, Finsupp.add_apply, Finsupp.single_eq_of_ne hne.symm, zero_add]
    exact ih (hrest.mono fun _ h => h.1)

/-- The first key of a normal form has a total other than zero. -/
theorem total_apply_head {K : κ → Prop} {k : κ} {v : ν} {rest : List (κ × ν)}
    (h : IsNormal K ((k, v) :: rest)) : total ((k, v) :: rest) k = value v := by
  rw [total_cons, Finsupp.add_apply, Finsupp.single_eq_same,
    total_apply_of_lt (isNormal_cons.mp h).2, add_zero]

/-- **In a normal form the total of a key is the value found there.** -/
theorem total_apply [BEq κ] [LawfulBEq κ] {K : κ → Prop} {terms : List (κ × ν)}
    (h : IsNormal K terms) (k : κ) : total terms k = ((terms.lookup k).map value).getD 0 := by
  induction terms generalizing K with
  | nil => rfl
  | cons t rest ih =>
    rw [List.lookup_cons]
    by_cases hk : k = t.1
    · subst hk
      rw [total_apply_head h]
      simp
    · have hbeq : (k == t.1) = false := by simpa using hk
      rw [hbeq, total_cons, Finsupp.add_apply, Finsupp.single_eq_of_ne hk, zero_add]
      exact ih (isNormal_cons.mp h).2

/-! ## §3. Adding terms. -/

variable [Std.TransOrd κ]

/-- **One more term**: the total grows by it and the normal form stays, also
where the sum of two values vanishes. -/
theorem insert_yields {K : κ → Prop} {key : κ} {v : ν} {terms : List (κ × ν)}
    (hterms : IsNormal K terms) (hkey : K key) (hv : ExactSummand.Normal v)
    (hv0 : Summand.isZero v = false) :
    Yields (insert key v terms)
      (fun sum => IsNormal K sum ∧ total sum = total terms + Finsupp.single key (value v)) := by
  induction terms generalizing K with
  | nil =>
    refine yields_ok ⟨isNormal_cons.mpr ⟨⟨hkey, hv, hv0⟩, isNormal_nil⟩, ?_⟩
    simp
  | cons head rest ih =>
    obtain ⟨k, w⟩ := head
    obtain ⟨hhead, hrest⟩ := isNormal_cons.mp hterms
    unfold insert
    cases hcmp : compare key k with
    | lt =>
      -- a new key in front of the head
      refine yields_ok ⟨isNormal_cons.mpr ⟨⟨hkey, hv, hv0⟩, ?_⟩, ?_⟩
      · refine isNormal_cons.mpr ⟨⟨⟨hhead.1, hcmp⟩, hhead.2⟩, hrest.mono ?_⟩
        intro k' h
        obtain ⟨hk', hlt⟩ := h
        exact ⟨⟨hk', Std.TransCmp.lt_trans hcmp hlt⟩, hlt⟩
      · rw [total_cons, add_comm]
    | eq =>
      -- the key of the head: the values add up, and the term goes if they cancel
      have hk : key = k := Std.LawfulEqCmp.eq_of_compare hcmp
      subst hk
      apply (add_yields w v hhead.2.1 hv).bind
      intro s h
      obtain ⟨hs, hsum⟩ := h
      have htotal : Finsupp.single key (value s) + total rest
          = total ((key, w) :: rest) + Finsupp.single key (value v) := by
        rw [total_cons, hsum, Finsupp.single_add, add_right_comm]
      split
      next hzero =>
        have hs0 : value s = 0 := (isZero_iff s hs).mp hzero
        rw [hs0, Finsupp.single_zero, zero_add] at htotal
        exact yields_pure ⟨hrest.mono fun _ h => h.1, htotal⟩
      next hzero =>
        refine yields_pure ⟨isNormal_cons.mpr ⟨⟨hkey, hs, ?_⟩, hrest⟩, ?_⟩
        · exact Bool.eq_false_iff.mpr hzero
        · rw [total_cons, htotal]
    | gt =>
      -- a place further right, where the head is still below every key
      have hlt : compare k key = .lt := Std.OrientedCmp.gt_iff_lt.mp hcmp
      apply (ih hrest ⟨hkey, hlt⟩).bind
      intro rest' h
      obtain ⟨hrest', htotal⟩ := h
      refine yields_pure ⟨isNormal_cons.mpr ⟨hhead, hrest'⟩, ?_⟩
      rw [total_cons, total_cons, htotal, add_assoc]

theorem accumulate_yields {K : κ → Prop} {term : κ × ν} {terms : List (κ × ν)}
    (hterms : IsNormal K terms) (hterm : K term.1 ∧ ExactSummand.Normal term.2) :
    Yields (accumulate terms term)
      (fun sum => IsNormal K sum
        ∧ total sum = total terms + Finsupp.single term.1 (value term.2)) := by
  cases h0 : Summand.isZero term.2 with
  | true =>
    rw [accumulate_of_isZero h0]
    refine yields_ok ⟨hterms, ?_⟩
    rw [(isZero_iff _ hterm.2).mp h0, Finsupp.single_zero, add_zero]
  | false =>
    rw [accumulate_of_not_isZero h0]
    exact insert_yields hterms hterm.1 hterm.2 h0

/-- **Many more terms**, in any order and with any repetitions. -/
theorem accumulateAll_yields {K : κ → Prop} {terms more : List (κ × ν)}
    (hterms : IsNormal K terms) (hmore : ∀ t ∈ more, K t.1 ∧ ExactSummand.Normal t.2) :
    Yields (accumulateAll terms more)
      (fun sum => IsNormal K sum ∧ total sum = total terms + total more) :=
  Yields.foldlM hterms fun t ht _ hsum => accumulate_yields hsum (hmore t ht)

theorem ofList_yields {K : κ → Prop} {terms : List (κ × ν)}
    (hterms : ∀ t ∈ terms, K t.1 ∧ ExactSummand.Normal t.2) :
    Yields (ofList terms) (fun sum => IsNormal K sum ∧ total sum = total terms) := by
  apply (accumulateAll_yields isNormal_nil hterms).mono
  intro sum h
  obtain ⟨hsum, htotal⟩ := h
  rw [total_nil, zero_add] at htotal
  exact ⟨hsum, htotal⟩

/-! ## §4. Readings. -/

variable [AddCommMonoid N] {φ : κ → M →+ N}

/-- A collected list reads as the list did. -/
theorem ofList_reading_yields {K : κ → Prop} {terms : List (κ × ν)}
    (hterms : ∀ t ∈ terms, K t.1 ∧ ExactSummand.Normal t.2) :
    Yields (ofList terms) (fun sum => IsNormal K sum ∧ reading φ sum = reading φ terms) := by
  apply (ofList_yields hterms).mono
  intro sum h
  obtain ⟨hsum, htotal⟩ := h
  refine ⟨hsum, ?_⟩
  rw [reading_eq_liftAddHom, reading_eq_liftAddHom, htotal]

theorem accumulate_reading_yields {K : κ → Prop} {term : κ × ν} {terms : List (κ × ν)}
    (hterms : IsNormal K terms) (hterm : K term.1 ∧ ExactSummand.Normal term.2) :
    Yields (accumulate terms term) (fun sum => IsNormal K sum
      ∧ reading φ sum = reading φ terms + φ term.1 (value term.2)) := by
  apply (accumulate_yields hterms hterm).mono
  intro sum h
  obtain ⟨hsum, htotal⟩ := h
  refine ⟨hsum, ?_⟩
  rw [reading_eq_liftAddHom, reading_eq_liftAddHom, htotal, map_add,
    Finsupp.liftAddHom_apply_single]

theorem accumulateAll_reading_yields {K : κ → Prop} {terms more : List (κ × ν)}
    (hterms : IsNormal K terms) (hmore : ∀ t ∈ more, K t.1 ∧ ExactSummand.Normal t.2) :
    Yields (accumulateAll terms more)
      (fun sum => IsNormal K sum ∧ reading φ sum = reading φ terms + reading φ more) := by
  apply (accumulateAll_yields hterms hmore).mono
  intro sum h
  obtain ⟨hsum, htotal⟩ := h
  refine ⟨hsum, ?_⟩
  rw [reading_eq_liftAddHom, reading_eq_liftAddHom, reading_eq_liftAddHom, htotal, map_add]

omit [Ord κ] [Std.LawfulEqOrd κ] [Std.TransOrd κ] in
/-- **A loop over terms is linear**: if each term is mapped by `g`, so is the sum. -/
theorem mapM_reading_yields {N' : Type} [AddCommMonoid N'] {ψ : κ → M →+ N'} {g : N' →+ N}
    {K : κ → Prop} {f : κ × ν → Outcome (κ × ν)} {terms : List (κ × ν)}
    (hf : ∀ t ∈ terms, Yields (f t)
      (fun u => (K u.1 ∧ ExactSummand.Normal u.2) ∧ φ u.1 (value u.2) = g (ψ t.1 (value t.2)))) :
    Yields (terms.mapM f)
      (fun us => (∀ u ∈ us, K u.1 ∧ ExactSummand.Normal u.2) ∧ reading φ us = g (reading ψ terms)) := by
  apply (Yields.mapM hf).mono
  intro us h
  obtain ⟨hus, hread⟩ := h
  refine ⟨hus, ?_⟩
  rw [reading, hread, reading, map_list_sum, List.map_map]
  rfl

omit [Ord κ] [Std.LawfulEqOrd κ] [Std.TransOrd κ] in
/-- **A loop over pairs of terms is bilinear**: if each pair is multiplied, so
are the sums. -/
theorem rows_reading_yields {R : Type} [NonUnitalNonAssocSemiring R] {φ : κ → M →+ R} {K : κ → Prop}
    {f : κ × ν → κ × ν → Outcome (κ × ν)} {a b : List (κ × ν)}
    (hf : ∀ s ∈ a, ∀ t ∈ b, Yields (f s t) (fun u => (K u.1 ∧ ExactSummand.Normal u.2)
      ∧ φ u.1 (value u.2) = φ s.1 (value s.2) * φ t.1 (value t.2))) :
    Yields (a.mapM fun s => b.mapM (f s))
      (fun rows => (∀ u ∈ rows.flatten, K u.1 ∧ ExactSummand.Normal u.2)
        ∧ reading φ rows.flatten = reading φ a * reading φ b) := by
  have hrow : ∀ s ∈ a, Yields (b.mapM (f s)) (fun row =>
      (∀ u ∈ row, K u.1 ∧ ExactSummand.Normal u.2)
        ∧ reading φ row = φ s.1 (value s.2) * reading φ b) := by
    intro s hs
    exact mapM_reading_yields (ψ := φ) (g := AddMonoidHom.mulLeft (φ s.1 (value s.2))) (hf s hs)
  apply (Yields.mapM hrow).mono
  intro rows h
  obtain ⟨hrows, hread⟩ := h
  constructor
  · intro u hu
    obtain ⟨row, hrow, hmem⟩ := List.mem_flatten.mp hu
    exact hrows row hrow u hmem
  · rw [reading_flatten, hread, List.sum_map_mul_right]
    rfl

omit [Std.LawfulEqOrd κ] [Std.TransOrd κ] in
/-- A loop that changes the values and not the keys keeps the normal form,
provided that no value becomes zero. -/
theorem mapValues_yields {K : κ → Prop} {f : κ × ν → Outcome (κ × ν)} {g : M → M}
    (hg : ∀ m, m ≠ 0 → g m ≠ 0) {terms : List (κ × ν)} (hterms : IsNormal K terms)
    (hf : ∀ t ∈ terms, Yields (f t)
      (fun u => ExactSummand.Normal u.2 ∧ (u.1, value u.2) = (t.1, g (value t.2)))) :
    Yields (terms.mapM f) (fun us => IsNormal K us
      ∧ us.map (fun u => (u.1, value u.2)) = terms.map fun t => (t.1, g (value t.2))) := by
  induction terms generalizing K with
  | nil => exact yields_pure ⟨isNormal_nil, rfl⟩
  | cons t rest ih =>
    obtain ⟨⟨hk, hv, hv0⟩, hrest⟩ := isNormal_cons.mp hterms
    rw [List.mapM_cons]
    apply (hf t List.mem_cons_self).bind
    intro u h
    obtain ⟨k, w⟩ := u
    obtain ⟨hw, hkw⟩ := h
    obtain ⟨rfl, hvalue⟩ := Prod.mk.inj hkw
    apply (ih hrest fun t' ht' => hf t' (List.mem_cons_of_mem t ht')).bind
    intro us h
    obtain ⟨hus, hmap⟩ := h
    have hw0 : value w ≠ 0 := by
      rw [hvalue]
      exact hg _ (value_ne_zero hv hv0)
    refine yields_pure ⟨isNormal_cons.mpr ⟨⟨hk, hw, isZero_eq_false hw hw0⟩, hus⟩, ?_⟩
    rw [List.map_cons, List.map_cons, hmap, hkw]

/-! ## §5. Uniqueness. -/

/-- A normal form whose keys are all above `k` is not one that starts with `k`. -/
theorem total_ne_of_lt {K L : κ → Prop} {k k' : κ} {v v' : ν} {s t : List (κ × ν)}
    (hs : IsNormal K ((k, v) :: s)) (ht : IsNormal L ((k', v') :: t)) (hlt : compare k k' = .lt) :
    total ((k, v) :: s) ≠ total ((k', v') :: t) := by
  intro h
  obtain ⟨⟨_, hv, hv0⟩, _⟩ := isNormal_cons.mp hs
  obtain ⟨⟨hL, hv'⟩, htail⟩ := isNormal_cons.mp ht
  have habove : IsNormal (fun x => L x ∧ compare k x = .lt) ((k', v') :: t) := by
    refine isNormal_cons.mpr ⟨⟨⟨hL, hlt⟩, hv'⟩, htail.mono ?_⟩
    intro x h
    obtain ⟨hx, hkx⟩ := h
    exact ⟨⟨hx, Std.TransCmp.lt_trans hlt hkx⟩, hkx⟩
  have hk := congrArg (fun f => f k) h
  simp only [total_apply_head hs, total_apply_of_lt habove] at hk
  exact value_ne_zero hv hv0 hk

/-- **A sum in normal form is determined by its total.** -/
theorem eq_of_total_eq {K : κ → Prop} {s t : List (κ × ν)} (hs : IsNormal K s)
    (ht : IsNormal K t) (h : total s = total t) : s = t := by
  induction s generalizing K t with
  | nil =>
    cases t with
    | nil => rfl
    | cons b t =>
      have hb := congrArg (fun f => f b.1) h
      simp only [total_apply_head ht, total_nil, Finsupp.zero_apply] at hb
      obtain ⟨⟨_, hv, hv0⟩, _⟩ := isNormal_cons.mp ht
      exact absurd hb.symm (value_ne_zero hv hv0)
  | cons a s ih =>
    cases t with
    | nil =>
      have ha := congrArg (fun f => f a.1) h
      simp only [total_apply_head hs, total_nil, Finsupp.zero_apply] at ha
      obtain ⟨⟨_, hv, hv0⟩, _⟩ := isNormal_cons.mp hs
      exact absurd ha (value_ne_zero hv hv0)
    | cons b t =>
      obtain ⟨k, v⟩ := a
      obtain ⟨k', v'⟩ := b
      -- if the first keys differ, the total at the smaller one tells the sums apart
      cases hcmp : compare k k' with
      | lt => exact absurd h (total_ne_of_lt hs ht hcmp)
      | gt => exact absurd h.symm (total_ne_of_lt ht hs (Std.OrientedCmp.gt_iff_lt.mp hcmp))
      | eq =>
        have hk : k = k' := Std.LawfulEqCmp.eq_of_compare hcmp
        subst hk
        obtain ⟨⟨_, hv, _⟩, hs'⟩ := isNormal_cons.mp hs
        obtain ⟨⟨_, hv', _⟩, ht'⟩ := isNormal_cons.mp ht
        have hvalue := congrArg (fun f => f k) h
        simp only [total_apply_head hs, total_apply_head ht] at hvalue
        have hvv : v = v' := value_injective v v' hv hv' hvalue
        subst hvv
        rw [total_cons, total_cons] at h
        rw [ih hs' ht' (add_left_cancel h)]

omit [Ord κ] [Std.LawfulEqOrd κ] [Std.TransOrd κ] in
theorem total_eq_zero {k : κ} {terms : List (κ × ν)} (h : ∀ t ∈ terms, t.1 ≠ k) :
    total terms k = 0 := by
  induction terms with
  | nil => rfl
  | cons t terms ih =>
    rw [total_cons, Finsupp.add_apply, Finsupp.single_eq_of_ne (h t List.mem_cons_self).symm,
      zero_add]
    exact ih fun t' ht' => h t' (List.mem_cons_of_mem t ht')

omit [Std.TransOrd κ] in
/-- A key of a normal form has a total other than zero. -/
theorem total_ne_zero_of_mem {K : κ → Prop} {terms : List (κ × ν)} (h : IsNormal K terms)
    {t : κ × ν} (ht : t ∈ terms) : total terms t.1 ≠ 0 := by
  induction terms generalizing K with
  | nil => cases ht
  | cons head rest ih =>
    obtain ⟨k, v⟩ := head
    obtain ⟨⟨-, hv, hv0⟩, hrest⟩ := isNormal_cons.mp h
    rcases List.mem_cons.mp ht with rfl | ht
    · rw [total_apply_head h]
      exact value_ne_zero hv hv0
    · have hne : t.1 ≠ k := by
        intro heq
        have hlt : compare k t.1 = .lt := (hrest.2 t ht).1.2
        have hself : compare k k = .eq := Std.ReflCmp.compare_self
        rw [heq, hself] at hlt
        cases hlt
      rw [total_cons, Finsupp.add_apply, Finsupp.single_eq_of_ne hne, zero_add]
      exact ih hrest ht

omit [Ord κ] [Std.LawfulEqOrd κ] [Std.TransOrd κ] in
/-- Coordinates that tell the terms apart are those of the total. -/
theorem coord_reading [DecidableEq κ] {K : κ → Prop} {coord : κ → N →+ M}
    (hcoord : ∀ k k', K k → K k' → ∀ m, coord k (φ k' m) = if k' = k then m else 0)
    {terms : List (κ × ν)} (hterms : ∀ t ∈ terms, K t.1) {k : κ} (hk : K k) :
    coord k (reading φ terms) = total terms k := by
  induction terms with
  | nil => exact map_zero (coord k)
  | cons t terms ih =>
    rw [reading_cons, map_add, hcoord k t.1 hk (hterms t List.mem_cons_self), total_cons,
      Finsupp.add_apply, Finsupp.single_apply, ih fun t' ht' => hterms t' (List.mem_cons_of_mem t ht')]

/-- **A sum in normal form is determined by every reading with coordinates.** -/
theorem eq_of_reading_eq [DecidableEq κ] {K : κ → Prop} {coord : κ → N →+ M}
    (hcoord : ∀ k k', K k → K k' → ∀ m, coord k (φ k' m) = if k' = k then m else 0)
    {s t : List (κ × ν)} (hs : IsNormal K s) (ht : IsNormal K t)
    (h : reading φ s = reading φ t) : s = t := by
  have hsK : ∀ u ∈ s, K u.1 := fun u hu => (hs.2 u hu).1
  have htK : ∀ u ∈ t, K u.1 := fun u hu => (ht.2 u hu).1
  refine eq_of_total_eq hs ht (Finsupp.ext fun k => ?_)
  by_cases hk : K k
  · rw [← coord_reading hcoord hsK hk, ← coord_reading hcoord htK hk, h]
  · have hne : ∀ {terms : List (κ × ν)}, (∀ u ∈ terms, K u.1) → ∀ u ∈ terms, u.1 ≠ k := by
      intro terms hterms u hu h
      subst h
      exact hk (hterms u hu)
    rw [total_eq_zero (hne hsK), total_eq_zero (hne htK)]

/-! ## §6. New keys. -/

omit [AddCommGroup M] [ExactSummand ν M] [Std.LawfulEqOrd κ] in
/-- No key is stored twice. -/
theorem Canonical.nodup_keys {terms : List (κ × ν)} (h : Canonical terms) :
    (terms.map Prod.fst).Nodup := by
  refine List.pairwise_map.mpr (h.1.imp ?_)
  intro s t hlt heq
  have hself : compare t.1 t.1 = .eq := Std.ReflCmp.compare_self
  rw [heq, hself] at hlt
  cases hlt

omit [Std.TransOrd κ] [AddCommGroup M] [ExactSummand ν M] in
/-- A term with a new key finds its place without an addition. -/
theorem insert_answers_of_new {key : κ} {v : ν} {terms : List (κ × ν)}
    (hnew : ∀ t ∈ terms, t.1 ≠ key) : Answers (insert key v terms) (·.Perm ((key, v) :: terms)) := by
  induction terms with
  | nil => exact answers_ok (List.Perm.refl _)
  | cons head rest ih =>
    obtain ⟨k, w⟩ := head
    unfold insert
    cases hcmp : compare key k with
    | lt => exact answers_ok (List.Perm.refl _)
    | eq =>
      have hkey : key = k := Std.LawfulEqCmp.eq_of_compare hcmp
      exact absurd hkey.symm (hnew (k, w) List.mem_cons_self)
    | gt =>
      refine (ih fun t ht => hnew t (List.mem_cons_of_mem _ ht)).bind fun rest' hrest' => ?_
      exact answers_ok ((hrest'.cons (k, w)).trans (List.Perm.swap _ _ _))

omit [Std.TransOrd κ] [AddCommGroup M] [ExactSummand ν M] in
/-- **Terms with new keys are only put in order**, so nothing can overflow. -/
theorem accumulateAll_answers_of_new {terms more : List (κ × ν)}
    (hkeys : ((more ++ terms).map Prod.fst).Nodup)
    (hmore : ∀ t ∈ more, Summand.isZero t.2 = false) :
    Answers (accumulateAll terms more) (·.Perm (more ++ terms)) := by
  induction more generalizing terms with
  | nil => exact answers_ok (List.Perm.refl _)
  | cons t more ih =>
    obtain ⟨ht, hmore⟩ := List.forall_mem_cons.mp hmore
    have hnew : ∀ u ∈ terms, u.1 ≠ t.1 := by
      intro u hu heq
      rw [List.cons_append, List.map_cons, List.nodup_cons] at hkeys
      exact hkeys.1 (heq ▸ List.mem_map_of_mem (List.mem_append_right more hu))
    rw [accumulateAll_cons, accumulate_of_not_isZero ht]
    refine (insert_answers_of_new hnew).bind fun sum hsum => ?_
    have hperm : (more ++ sum).Perm (t :: more ++ terms) :=
      (hsum.append_left more).trans List.perm_middle
    have hkeys' : ((more ++ sum).map Prod.fst).Nodup := (hperm.map _).nodup_iff.mpr hkeys
    exact (ih hkeys' hmore).mono fun _ h => h.trans hperm

/-- **The terms of a sum in normal form add up to what they are.** -/
theorem ofList_of_isNormal {K : κ → Prop} {terms : List (κ × ν)} (h : IsNormal K terms) :
    ofList terms = .ok terms := by
  have hkeys : ((terms ++ []).map Prod.fst).Nodup := by
    rw [List.append_nil]
    exact h.1.nodup_keys
  obtain ⟨sum, hsum, -⟩ := accumulateAll_answers_of_new hkeys h.1.2
  obtain ⟨hnormal, htotal⟩ := (ofList_yields h.2).ensures sum hsum
  rw [ofList, hsum, eq_of_total_eq hnormal h htotal]

end SortedTerms

end GeometricAlgebra
