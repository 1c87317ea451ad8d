/-
  GeometricAlgebra.Proofs.ExponentForms
  ────────────────────────────────
  **MONOMIALS ARE MULTISETS OF NAMES, AND POWERS COUNT THEM.**

  A monomial keeps its names as a sorted list.  Names in another order give the same
  list, and so do factors in another order, but nothing else is identified: monomials
  are the free commutative monoid on the names.  The same multiset is told by exponents,

      a a b c c c        ↔        a², b¹, c³ .

  Sorting has put equal names side by side, so it is enough to compare a name with its
  neighbour.  That an exponent form is found this way is an invariant of the loop
  (`Counts.push` for one factor, `Counts.foldlM` for all), and as exponent forms of the
  same names are equal (`IsExponentForm.eq_of_perm`), it does not matter from which end
  the names are counted.

  Main result:
    * `Monomial.free_commutative_monoid` — the laws of products, the values that extend
      from names to monomials, and the exponent form with its two round trips.
-/
import GeometricAlgebra.Proofs.PolynomialRing
import GeometricAlgebra.Proofs.ProductText

namespace GeometricAlgebra.Monomial

variable {m n : Monomial} {form : List (String × Nat)} {s t : String × Nat} {name : String}

/-! ## §1. The monoid of monomials. -/

/-- The monomials that can be built: products of names, and their products. -/
inductive Built : Monomial → Prop
  | one : Built one
  | ofNames (names : List String) : Built (ofNames names)
  | product {m n : Monomial} (hm : Built m) (hn : Built n) : Built (m.product n)

/-- Each way to build a monomial sorts its names. -/
theorem Built.sorted (hm : m.Built) : m.Sorted := by
  cases hm with
  | one => rfl
  | ofNames names => exact sorted_ofNames names
  | product => exact sorted_ofNames _

/-- **Products of names are equal exactly when the names are, up to their order.** -/
theorem ofNames_eq_iff {a b : List String} : ofNames a = ofNames b ↔ a.Perm b := by
  constructor
  · intro h
    have hsort : sortNames a = sortNames b := congrArg names h
    have hperm : a.Perm (sortNames b) := hsort ▸ (sortNames_perm a).symm
    exact hperm.trans (sortNames_perm b)
  · exact ofNames_eq_of_perm

theorem ofNames_append (a b : List String) : ofNames (a ++ b) = (ofNames a).product (ofNames b) :=
  ofNames_eq_of_perm ((sortNames_perm a).append (sortNames_perm b)).symm

theorem product_comm (m n : Monomial) : m.product n = n.product m :=
  ofNames_eq_of_perm List.perm_append_comm

theorem product_assoc (m n k : Monomial) :
    (m.product n).product k = m.product (n.product k) := by
  have hleft : (sortNames (m.names ++ n.names) ++ k.names).Perm ((m.names ++ n.names) ++ k.names) :=
    (sortNames_perm _).append_right k.names
  have hright : (m.names ++ sortNames (n.names ++ k.names)).Perm (m.names ++ (n.names ++ k.names)) :=
    (sortNames_perm _).append_left m.names
  rw [List.append_assoc] at hleft
  exact ofNames_eq_of_perm (hleft.trans hright.symm)

theorem Sorted.product_one (hm : m.Sorted) : m.product one = m := by
  show ofNames (m.names ++ []) = m
  rw [List.append_nil, ← hm]

theorem Sorted.one_product (hm : m.Sorted) : one.product m = m := hm.symm

/-- Monomials with any history. -/
abbrev Monomials : Type := {m : Monomial // m.Built}

instance : CommMonoid Monomials where
  mul m n := ⟨m.1.product n.1, .product m.2 n.2⟩
  one := ⟨one, .one⟩
  mul_assoc m n k := Subtype.ext (product_assoc m.1 n.1 k.1)
  mul_comm m n := Subtype.ext (product_comm m.1 n.1)
  mul_one m := Subtype.ext m.2.sorted.product_one
  one_mul m := Subtype.ext m.2.sorted.one_product

/-- A single name. -/
def ofName (name : String) : Monomials := ⟨ofNames [name], .ofNames [name]⟩

section Lift

variable {M : Type*} [CommMonoid M]

/-- Evaluate a monomial: the product of the values of its names. -/
def lift (f : String → M) : Monomials →* M where
  toFun m := (m.1.names.map f).prod
  map_one' := List.prod_nil
  map_mul' m n := by
    show ((sortNames (m.1.names ++ n.1.names)).map f).prod = _
    rw [((sortNames_perm _).map f).prod_eq, List.map_append, List.prod_append]

theorem lift_ofName (f : String → M) (name : String) : lift f (ofName name) = f name :=
  List.prod_singleton

/-- **A homomorphism is determined by the values of the names.** -/
theorem hom_ext {φ ψ : Monomials →* M} (h : ∀ name, φ (ofName name) = ψ (ofName name)) : φ = ψ := by
  have hnames : ∀ names, φ ⟨ofNames names, .ofNames names⟩ = ψ ⟨ofNames names, .ofNames names⟩ := by
    intro names
    induction names with
    | nil => exact (map_one φ).trans (map_one ψ).symm
    | cons name names ih =>
      have hcons : (⟨ofNames (name :: names), .ofNames _⟩ : Monomials)
          = ofName name * ⟨ofNames names, .ofNames names⟩ :=
        Subtype.ext (ofNames_append [name] names)
      rw [hcons, map_mul, map_mul, h name, ih]
  ext m
  have hm : m = ⟨ofNames m.1.names, .ofNames _⟩ := Subtype.ext m.2.sorted
  rw [hm]
  exact hnames m.1.names

end Lift

/-! ## §2. Exponent forms. -/

/-- Names in increasing order, each once, with exponents of at least 1. -/
structure IsExponentForm (form : List (String × Nat)) : Prop where
  increasing : form.Pairwise fun s t => compare s.1 t.1 = .lt
  positive : ∀ t ∈ form, 1 ≤ t.2

/-- The exponent of a name in a list of powers, 0 if the name is not in the list. -/
def exponentIn (name : String) (form : List (String × Nat)) : Nat := (form.lookup name).getD 0

theorem compare_lt_of_nameLE {a b : String} (h : NameLE a b) (hne : a ≠ b) : compare a b = .lt := by
  cases hab : compare a b with
  | lt => rfl
  | eq => exact absurd (Std.LawfulEqCmp.eq_of_compare hab) hne
  | gt =>
    unfold NameLE at h
    rw [hab] at h
    cases h

theorem ne_of_compare_lt {a b : String} (h : compare a b = .lt) : a ≠ b := by
  rintro rfl
  have hself : compare a a = .eq := Std.ReflCmp.compare_self
  rw [hself] at h
  cases h

theorem isExponentForm_nil : IsExponentForm [] := ⟨List.Pairwise.nil, by simp⟩

theorem isExponentForm_cons : IsExponentForm (t :: form)
    ↔ (∀ s ∈ form, compare t.1 s.1 = .lt) ∧ 1 ≤ t.2 ∧ IsExponentForm form := by
  constructor
  · intro h
    obtain ⟨hhead, htail⟩ := List.pairwise_cons.mp h.increasing
    obtain ⟨hpos, hrest⟩ := List.forall_mem_cons.mp h.positive
    exact ⟨hhead, hpos, htail, hrest⟩
  · intro h
    obtain ⟨hhead, hpos, htail⟩ := h
    exact ⟨List.pairwise_cons.mpr ⟨hhead, htail.increasing⟩,
      List.forall_mem_cons.mpr ⟨hpos, htail.positive⟩⟩

theorem expand_cons (t : String × Nat) (form : List (String × Nat)) :
    expand (t :: form) = List.replicate t.2 t.1 ++ expand form := rfl

theorem expand_concat (t : String × Nat) (form : List (String × Nat)) :
    expand (form ++ [t]) = expand form ++ List.replicate t.2 t.1 := by
  unfold expand
  rw [List.flatMap_append, List.flatMap_singleton]

theorem count_expand_eq_zero (h : ∀ t ∈ form, t.1 ≠ name) : (expand form).count name = 0 := by
  rw [List.count_eq_zero]
  intro hmem
  obtain ⟨t, ht, hname⟩ := List.mem_flatMap.mp hmem
  exact h t ht (List.eq_of_mem_replicate hname).symm

namespace IsExponentForm

/-- The names of all powers but the first are other ones. -/
theorem count_expand_cons (h : IsExponentForm (t :: form)) (name : String) :
    (expand (t :: form)).count name = if t.1 = name then t.2 else (expand form).count name := by
  rw [expand_cons, List.count_append, List.count_replicate]
  by_cases hname : t.1 = name
  · have hrest : (expand form).count name = 0 := by
      refine count_expand_eq_zero fun s hs => ?_
      rw [← hname]
      exact (ne_of_compare_lt ((isExponentForm_cons.mp h).1 s hs)).symm
    rw [if_pos hname, if_pos (by simpa using hname), hrest, Nat.add_zero]
  · rw [if_neg hname, if_neg (by simpa using hname), Nat.zero_add]

/-- **Exponents count names.** -/
theorem count_expand (h : IsExponentForm form) (name : String) :
    (expand form).count name = exponentIn name form := by
  induction form with
  | nil => rfl
  | cons t form ih =>
    rw [h.count_expand_cons, ih (isExponentForm_cons.mp h).2.2]
    unfold exponentIn
    rw [List.lookup_cons]
    by_cases hname : t.1 = name
    · rw [if_pos hname, beq_iff_eq.mpr hname.symm]
      rfl
    · rw [if_neg hname, beq_eq_false_iff_ne.mpr (Ne.symm hname)]

/-- **The powers of an exponent form can be read off its names.** -/
theorem mem_iff (h : IsExponentForm form) :
    t ∈ form ↔ 1 ≤ t.2 ∧ (expand form).count t.1 = t.2 := by
  induction form with
  | nil =>
    have hcount : (expand []).count t.1 = 0 := rfl
    rw [hcount]
    exact iff_of_false List.not_mem_nil (by omega)
  | cons s form ih =>
    obtain ⟨hhead, hpos, htail⟩ := isExponentForm_cons.mp h
    rw [h.count_expand_cons, List.mem_cons]
    by_cases hname : s.1 = t.1
    · have hnot : t ∉ form := fun ht => ne_of_compare_lt (hhead t ht) hname
      rw [if_pos hname]
      constructor
      · intro ht
        rcases ht with rfl | ht
        · exact ⟨hpos, rfl⟩
        · exact absurd ht hnot
      · intro ht
        exact Or.inl (Prod.ext hname.symm ht.2.symm)
    · have hne : t ≠ s := fun hts => hname (congrArg Prod.fst hts.symm)
      rw [if_neg hname, ← ih htail]
      exact or_iff_right hne

/-- **Exponent forms of the same names are equal.** -/
theorem eq_of_perm {other : List (String × Nat)} (h : IsExponentForm form)
    (hother : IsExponentForm other) (hperm : (expand form).Perm (expand other)) :
    form = other := by
  have hnodup : ∀ {l : List (String × Nat)}, IsExponentForm l → l.Nodup := fun hl =>
    hl.increasing.imp fun hlt heq => ne_of_compare_lt hlt (congrArg Prod.fst heq)
  have hmem : ∀ t, t ∈ form ↔ t ∈ other := by
    intro t
    rw [h.mem_iff, hother.mem_iff, hperm.count_eq]
  -- the same powers, in the same order
  have hpowers : form.Perm other := (List.perm_ext_iff_of_nodup (hnodup h) (hnodup hother)).mpr hmem
  refine hpowers.eq_of_pairwise (fun s t _ _ hst hts => ?_) h.increasing hother.increasing
  exact absurd rfl (ne_of_compare_lt (Std.TransCmp.lt_trans hst hts))

end IsExponentForm

/-- **One factor** in front that is not above the others. -/
theorem isExponentForm_countFactor (h : IsExponentForm form)
    (hle : ∀ t ∈ form, NameLE name t.1) : IsExponentForm (countFactor name form) := by
  unfold countFactor
  split
  next => exact isExponentForm_cons.mpr ⟨by simp, Nat.le_refl 1, isExponentForm_nil⟩
  next first exponent rest =>
    obtain ⟨hhead, hpos, htail⟩ := isExponentForm_cons.mp h
    split
    next => exact isExponentForm_cons.mpr ⟨hhead, Nat.le_add_left 1 exponent, htail⟩
    next hne =>
      have hfirst : compare name first = .lt :=
        compare_lt_of_nameLE (hle (first, exponent) List.mem_cons_self) hne
      refine isExponentForm_cons.mpr ⟨List.forall_mem_cons.mpr ⟨hfirst, ?_⟩, Nat.le_refl 1, h⟩
      exact fun s hs => Std.TransCmp.lt_trans hfirst (hhead s hs)

/-- **All factors**: counted from the last one on, names in order give an exponent form. -/
theorem isExponentForm_powers {names : List String} (h : names.Pairwise NameLE) :
    IsExponentForm (powers ⟨names⟩) := by
  induction names with
  | nil => exact isExponentForm_nil
  | cons name names ih =>
    obtain ⟨hname, hrest⟩ := List.pairwise_cons.mp h
    show IsExponentForm (countFactor name (powers ⟨names⟩))
    exact isExponentForm_countFactor (ih hrest) fun t ht => hname t.1 (fst_mem_names ht)

theorem Sorted.isExponentForm (hm : m.Sorted) : IsExponentForm m.powers :=
  isExponentForm_powers hm.ordered

/-- The powers list the exponents of the names. -/
theorem Sorted.exponentIn_powers (hm : m.Sorted) (name : String) :
    exponentIn name m.powers = m.exponents name := by
  rw [← hm.isExponentForm.count_expand, expand_powers, exponents, Multiset.toFinsupp_apply,
    Multiset.coe_count]

/-- **Exponents add up in products.** -/
theorem exponentIn_product (hm : m.Sorted) (hn : n.Sorted) (name : String) :
    exponentIn name (m.product n).powers = exponentIn name m.powers + exponentIn name n.powers := by
  have hproduct : (m.product n).Sorted := sorted_ofNames _
  rw [hproduct.exponentIn_powers, hm.exponentIn_powers, hn.exponentIn_powers, exponents_product]
  rfl

/-- Every exponent form is that of a monomial. -/
theorem powers_ofNames_expand (h : IsExponentForm form) :
    (ofNames (expand form)).powers = form := by
  refine (sorted_ofNames _).isExponentForm.eq_of_perm h ?_
  rw [expand_powers]
  exact sortNames_perm _

theorem powers_inj : m.powers = n.powers ↔ m = n := by
  constructor
  · intro h
    have hnames : m.names = n.names := by rw [← m.expand_powers, ← n.expand_powers, h]
    cases m
    cases n
    exact congrArg _ hnames
  · exact congrArg _

/-! ## §3. Counting with exponents in words. -/

/-- The number of words that an exponent can be, 2³². -/
def exponentBound : Nat := 4294967296

/-- Count one more factor behind a list of powers.  It is compared with the last power
only, and an exponent that its word cannot hold is an overflow. -/
def pushFactor (form : List (String × Nat)) (name : String) : Outcome (List (String × Nat)) :=
  match form.getLast? with
  | some (last, exponent) =>
      if last = name then
        if exponent + 1 < exponentBound then .ok (form.dropLast ++ [(last, exponent + 1)])
        else .error .overflow
      else .ok (form ++ [(name, 1)])
  | none => .ok [(name, 1)]

/-- The powers of a monomial, counted from the first name to the last. -/
def countPowers (m : Monomial) : Outcome (List (String × Nat)) := m.names.foldlM pushFactor []

theorem pushFactor_concat (init : List (String × Nat)) (t : String × Nat) (name : String) :
    pushFactor (init ++ [t]) name
      = if t.1 = name then
          if t.2 + 1 < exponentBound then .ok (init ++ [(t.1, t.2 + 1)]) else .error .overflow
        else .ok (init ++ [t] ++ [(name, 1)]) := by
  unfold pushFactor
  rw [List.getLast?_concat, List.dropLast_concat]

theorem isExponentForm_concat : IsExponentForm (form ++ [t])
    ↔ IsExponentForm form ∧ 1 ≤ t.2 ∧ ∀ s ∈ form, compare s.1 t.1 = .lt := by
  constructor
  · intro h
    obtain ⟨hinit, -, hlt⟩ := List.pairwise_append.mp h.increasing
    exact ⟨⟨hinit, fun s hs => h.positive s (List.mem_append_left [t] hs)⟩,
      h.positive t List.mem_concat_self, fun s hs => hlt s hs t List.mem_cons_self⟩
  · intro h
    obtain ⟨hinit, hpos, hlt⟩ := h
    refine ⟨List.pairwise_append.mpr ⟨hinit.increasing, List.pairwise_singleton _ _, ?_⟩, ?_⟩
    · intro s hs last hlast
      rw [List.mem_singleton.mp hlast]
      exact hlt s hs
    · exact List.forall_mem_append.mpr ⟨hinit.positive, List.forall_mem_singleton.mpr hpos⟩

/-- The exponent form of the names that were seen so far. -/
structure Counts (seen : List String) (form : List (String × Nat)) : Prop where
  isExponentForm : IsExponentForm form
  expand_eq : expand form = seen

namespace Counts

variable {seen rest : List String}

/-- The name of the last power once more. -/
theorem raise {init : List (String × Nat)} (h : Counts seen (init ++ [t])) :
    seen.count t.1 = t.2 ∧ Counts (seen ++ [t.1]) (init ++ [(t.1, t.2 + 1)]) := by
  obtain ⟨hform, rfl⟩ := h
  obtain ⟨hinit, -, hlt⟩ := isExponentForm_concat.mp hform
  refine ⟨(hform.mem_iff.mp List.mem_concat_self).2, ?_, ?_⟩
  · exact isExponentForm_concat.mpr ⟨hinit, Nat.le_add_left 1 t.2, hlt⟩
  · rw [expand_concat, expand_concat, List.replicate_succ', List.append_assoc]

/-- A name above all others. -/
theorem start (h : Counts seen form) (name : String)
    (hlt : ∀ s ∈ form, compare s.1 name = .lt) :
    seen.count name = 0 ∧ Counts (seen ++ [name]) (form ++ [(name, 1)]) := by
  obtain ⟨hform, rfl⟩ := h
  refine ⟨count_expand_eq_zero fun s hs => ne_of_compare_lt (hlt s hs), ?_, ?_⟩
  · exact isExponentForm_concat.mpr ⟨hform, Nat.le_refl 1, hlt⟩
  · exact expand_concat (name, 1) form

/-- A name that is not below the last one seen is either this one or above all others. -/
theorem compare_lt_of_ne {init : List (String × Nat)} (h : Counts seen (init ++ [t]))
    (hle : ∀ other ∈ seen, NameLE other name) (hne : t.1 ≠ name) :
    ∀ s ∈ init ++ [t], compare s.1 name = .lt := by
  obtain ⟨hform, rfl⟩ := h
  obtain ⟨-, hpos, hlt⟩ := isExponentForm_concat.mp hform
  have hmem : t.1 ∈ expand (init ++ [t]) := by
    rw [expand_concat]
    exact List.mem_append_right _ (List.mem_replicate.mpr ⟨by omega, rfl⟩)
  have hlast : compare t.1 name = .lt := compare_lt_of_nameLE (hle t.1 hmem) hne
  refine List.forall_mem_append.mpr ⟨fun s hs => ?_, List.forall_mem_singleton.mpr hlast⟩
  exact Std.TransCmp.lt_trans (hlt s hs) hlast

/-- **One factor** that is not below those seen: the last power is raised, unless its
exponent leaves its word, or a new power is started. -/
theorem push (h : Counts seen form) (hle : ∀ other ∈ seen, NameLE other name) :
    (seen.count name + 1 < exponentBound
        ∧ ∃ counted, pushFactor form name = .ok counted ∧ Counts (seen ++ [name]) counted)
      ∨ (exponentBound ≤ seen.count name + 1 ∧ pushFactor form name = .error .overflow) := by
  have hone : 0 + 1 < exponentBound := by decide
  rcases List.eq_nil_or_concat' form with rfl | ⟨init, last, rfl⟩
  · obtain ⟨hcount, hcounts⟩ := h.start name (by simp)
    rw [hcount]
    exact Or.inl ⟨hone, _, rfl, hcounts⟩
  · rw [pushFactor_concat]
    by_cases hname : last.1 = name
    · obtain ⟨hcount, hcounts⟩ := h.raise
      rw [hname] at hcount hcounts
      rw [if_pos hname, hcount, hname]
      by_cases hbound : last.2 + 1 < exponentBound
      · rw [if_pos hbound]
        exact Or.inl ⟨hbound, _, rfl, hcounts⟩
      · rw [if_neg hbound]
        exact Or.inr ⟨Nat.le_of_not_lt hbound, rfl⟩
    · obtain ⟨hcount, hcounts⟩ := h.start name (h.compare_lt_of_ne hle hname)
      rw [if_neg hname, hcount]
      exact Or.inl ⟨hone, _, rfl, hcounts⟩

/-- **All factors**: the loop ends with the powers of the names, unless one of them is
repeated too often. -/
theorem foldlM (h : Counts seen form) (hordered : (seen ++ rest).Pairwise NameLE)
    (hseen : ∀ name, seen.count name < exponentBound) :
    rest.foldlM pushFactor form
      = if ∀ name ∈ seen ++ rest, (seen ++ rest).count name < exponentBound
          then .ok (Monomial.powers ⟨seen ++ rest⟩) else .error .overflow := by
  -- on the names that are left, for all that were seen
  induction rest generalizing seen form with
  | nil =>
    rw [List.append_nil] at hordered ⊢
    -- both count the names that were seen
    have hpowers : form = Monomial.powers ⟨seen⟩ := by
      refine h.isExponentForm.eq_of_perm (isExponentForm_powers hordered) ?_
      rw [h.expand_eq, expand_powers]
    rw [if_pos fun name _ => hseen name, ← hpowers]
    rfl
  | cons name rest ih =>
    have hle : ∀ other ∈ seen, NameLE other name := fun other hother =>
      (List.pairwise_append.mp hordered).2.2 other hother name List.mem_cons_self
    rw [List.foldlM_cons]
    rcases h.push hle with ⟨hbound, counted, hpush, hcounts⟩ | ⟨hbound, hpush⟩
    · have hnext : seen ++ name :: rest = seen ++ [name] ++ rest := List.append_cons seen name rest
      rw [hnext] at hordered ⊢
      rw [hpush]
      refine ih hcounts hordered fun other => ?_
      by_cases hother : other = name
      · rw [hother, List.count_append, List.count_singleton_self]
        exact hbound
      · rw [List.count_append, List.count_singleton, if_neg (by simpa using Ne.symm hother)]
        exact hseen other
    · have hmany : exponentBound ≤ (seen ++ name :: rest).count name := by
        rw [List.count_append, List.count_cons_self]
        omega
      rw [hpush, if_neg fun hall => Nat.not_lt_of_le hmany (hall name (by simp))]
      rfl

end Counts

/-- **Counting in words** answers with the powers of a sorted monomial exactly if no name
is repeated 2³² times. -/
theorem Sorted.countPowers_eq (hm : m.Sorted) : m.countPowers
    = if ∀ name ∈ m.names, m.names.count name < exponentBound
        then .ok m.powers else .error .overflow := by
  have hnone : Counts [] [] := ⟨isExponentForm_nil, rfl⟩
  have hzero : ∀ name : String, [].count name < exponentBound := fun name => Nat.zero_lt_succ _
  exact hnone.foldlM hm.ordered hzero

/-! ## §4. The laws. -/

/-- **MONOMIALS ARE A FREE COMMUTATIVE MONOID**, and powers are its exponent form.  The
names of a product tell it up to their order.  Multiplication is commutative and
associative, the constant monomial is its unit, and degrees add up; values for the names
extend to all monomials in exactly one way.  The names of a monomial are in order.  Its
powers list them strictly increasing with exponents of at least 1, which add up to the
degree, and give the names back; the loop with exponents in words finds the same powers as
long as no name is repeated 2³² times, and overflows then.  Conversely every exponent form
is that of a monomial, different monomials have different ones, and in products the
exponents add up. -/
theorem free_commutative_monoid.{u} {m n : Monomial} (hm : m.Built) (hn : n.Built) (k : Monomial) :
    (∀ a b : List String, ofNames a = ofNames b ↔ a.Perm b)
      ∧ (m.product n = n.product m
        ∧ (m.product n).product k = m.product (n.product k)
        ∧ m.product one = m ∧ one.product m = m
        ∧ (m.product n).degree = m.degree + n.degree)
      ∧ (∀ (M : Type u) [CommMonoid M] (f : String → M),
          ∃! φ : Monomials →* M, ∀ name, φ (ofName name) = f name)
      ∧ (m.names.Pairwise NameLE
        ∧ IsExponentForm m.powers
        ∧ (m.powers.map fun t => t.2).sum = m.degree
        ∧ expand m.powers = m.names
        ∧ m.countPowers = if ∀ name ∈ m.names, m.names.count name < exponentBound
            then .ok m.powers else .error .overflow)
      ∧ (∀ form, IsExponentForm form → (ofNames (expand form)).powers = form)
      ∧ (m.powers = n.powers ↔ m = n)
      ∧ ∀ name, exponentIn name (m.product n).powers
          = exponentIn name m.powers + exponentIn name n.powers := by
  have hsm : m.Sorted := hm.sorted
  have hsn : n.Sorted := hn.sorted
  refine ⟨fun a b => ofNames_eq_iff, ⟨product_comm m n, product_assoc m n k, hsm.product_one,
    hsm.one_product, degree_product m n⟩, ?_, ⟨hsm.ordered, hsm.isExponentForm,
    (degree_eq_sum m).symm, expand_powers m, hsm.countPowers_eq⟩,
    fun form => powers_ofNames_expand, powers_inj, exponentIn_product hsm hsn⟩
  -- values for the names
  intro M _ f
  refine ⟨lift f, lift_ofName f, fun φ hφ => hom_ext fun name => ?_⟩
  rw [hφ, lift_ofName]

/-- A name and one that it begins, out of order. -/
def mixed : Monomial := ofNames ["b", "a", "ab", "a"]

/-- A name behind all of ASCII, before one of `mixed`. -/
def accented : Monomial := ofNames ["é", "a"]

/-- Two products of names, the lengths of names as values, and an exponent form that is given. -/
theorem free_commutative_monoid_mixed :
    (mixed.Built ∧ accented.Built ∧ IsExponentForm [("x", 2), ("y", 1)])
      ∧ mixed.product accented = accented.product mixed
      ∧ (mixed.product accented).powers = [("a", 3), ("ab", 1), ("b", 1), ("é", 1)]
      ∧ exponentIn "a" (mixed.product accented).powers
          = exponentIn "a" mixed.powers + exponentIn "a" accented.powers
      ∧ expand mixed.powers = ["a", "a", "ab", "b"]
      ∧ mixed.countPowers = .ok [("a", 2), ("ab", 1), ("b", 1)]
      ∧ (ofNames (expand [("x", 2), ("y", 1)])).powers = [("x", 2), ("y", 1)]
      ∧ ∃! φ : Monomials →* Multiplicative ℕ, ∀ name, φ (ofName name) = .ofAdd name.length := by
  have hm : mixed.Built := .ofNames _
  have hn : accented.Built := .ofNames _
  have hform : IsExponentForm [("x", 2), ("y", 1)] := ⟨by decide, by decide⟩
  obtain ⟨-, ⟨hcomm, -⟩, hfree, ⟨-, -, -, hexpand, hcount⟩, hback, -, hproduct⟩ :=
    free_commutative_monoid hm hn one
  have hfew : ∀ name ∈ mixed.names, mixed.names.count name < exponentBound := by decide
  rw [if_pos hfew] at hcount
  exact ⟨⟨hm, hn, hform⟩, hcomm, by decide, hproduct "a", hexpand, hcount, hback _ hform, hfree _ _⟩

end GeometricAlgebra.Monomial
