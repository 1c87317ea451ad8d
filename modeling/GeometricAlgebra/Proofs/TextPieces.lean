/-
  GeometricAlgebra.Proofs.TextPieces
  ────────────────────────────────
  **A PIECE OF TEXT TELLS ITS BLADE AND ITS COEFFICIENT.**

  A piece is a product with the name of a blade among its factors, or a polynomial
  in parentheses in front of such a name.  The parenthesis tells the two kinds
  apart, and both are delimited (`Multivector.isBody_delimited`).

  There are 32 names, and none of them is written like a number or like a power of
  a variable that is not reserved.  This is checked name by name
  (`Multivector.foreign_nameFactors`); everything else follows from the way
  products and polynomials are written.

  Main result:
    * `Multivector.ShowsTerm.injective` — a piece tells its name and coefficient.
-/
import GeometricAlgebra.Proofs.NullBasis
import GeometricAlgebra.Proofs.PolynomialText

namespace GeometricAlgebra

open Outcome Text

namespace Multivector

/-! ## §1. The names of places. -/

/-- The names that stand for blades in the text. -/
def bladeNames : TextForm → List String
  | .plain => (Subsets.powerset metric.pseudoscalar).map bladeName
  | .latex => nullPlaces.map placeName

/-- The identifiers that could be taken for a blade or a factor of one. -/
def reserved : TextForm → List String
  | .plain => ["eminus", "eplus"]
  | .latex => (Subsets.powerset euclideanAxes).flatMap fun tail =>
      ["", "o", "E"].map (· ++ metric.label tail)

/-- An identifier that is not reserved. -/
def IsVariable (form : TextForm) (name : String) : Prop :=
  IsIdentifier name ∧ name ∉ reserved form

instance (form : TextForm) (name : String) : Decidable (IsVariable form name) :=
  inferInstanceAs (Decidable (_ ∧ _))

/-- A name, as factors of a product. -/
def nameFactors (name : String) : List (List Char) :=
  if name = "" then [] else name.toList.splitOn ' '

theorem isNumber_plain {w : List Char} (h : IsNumber .plain w) :
    w.all fun c => c.isDigit || c == '/' := by
  obtain ⟨x, hx, rfl⟩ := h
  have hdigits : ∀ {n : Int}, 0 ≤ n → (Int.repr n).toList.all fun c => c.isDigit || c == '/' := by
    intro n hn
    rw [List.all_eq_true]
    intro c hc
    rw [isDigit_of_mem_repr hn c hc]
    rfl
  rw [Fraction.render_plain, List.all_append, hdigits hx.2, Bool.true_and, Fraction.overDen]
  split
  · rfl
  · rw [List.all_cons, hdigits (Int.le_of_lt hx.1.1)]
    rfl

theorem isNumber_latex {w : List Char} (h : IsNumber .latex w) :
    w.head?.any Char.isDigit ∨ w.take 2 = ['\\', 'f'] := by
  obtain ⟨x, hx, rfl⟩ := h
  cases hxi : x.isInteger with
  | true =>
    left
    obtain ⟨c, cs, hcs⟩ := List.exists_cons_of_ne_nil (isFactor_repr hx.2).1
    rw [Fraction.render_of_isInteger hxi, hcs]
    exact isDigit_of_mem_repr hx.2 c (by simp [hcs])
  | false =>
    right
    rw [Fraction.render_latex hxi]
    rfl

theorem isPower_plain {N : String → Prop} (hN : ∀ name, N name → IsIdentifier name) {w : List Char}
    (h : IsPower .plain N w) : N (String.ofList (w.takeWhile (· != '*'))) := by
  obtain ⟨t, ht, rfl⟩ := h
  have hname : ∀ c ∈ t.1.toList, (c != '*') = true := by
    intro c hc
    rw [bne_iff_ne]
    rintro rfl
    exact (hN t.1 ht).notMem (by decide) hc
  have hraised : (Monomial.raised t.2).takeWhile (· != '*') = [] := by
    unfold Monomial.raised
    split <;> rfl
  rw [Monomial.renderPower_plain, List.takeWhile_append_of_pos hname, hraised, List.append_nil,
    String.ofList_toList]
  exact ht

theorem isPower_latex {N : String → Prop} {w : List Char} (h : IsPower .latex N w) :
    w.head? = some '\x7b' ∨ N (String.ofList w) := by
  obtain ⟨t, ht, rfl⟩ := h
  by_cases h1 : t.2 = 1
  · right
    rw [Monomial.renderPower_one h1, String.ofList_toList]
    exact ht
  · left
    rw [Monomial.renderPower_latex h1]
    rfl

/-- A check that a factor is neither a number nor a power of a variable. -/
def isForeign (form : TextForm) (w : List Char) : Bool :=
  match form with
  | .plain => !(w.all fun c => c.isDigit || c == '/')
      && !decide (IsVariable .plain (String.ofList (w.takeWhile (· != '*'))))
  | .latex => !w.head?.any Char.isDigit && w.take 2 != ['\\', 'f'] && w.head? != some '\x7b'
      && !decide (IsVariable .latex (String.ofList w))

theorem foreign_of_isForeign {form : TextForm} {w : List Char} (hw : IsFactor w)
    (h : isForeign form w = true) : Foreign form (IsVariable form) w := by
  cases form with
  | plain =>
    simp only [isForeign, Bool.and_eq_true, Bool.not_eq_true', decide_eq_false_iff_not] at h
    refine ⟨hw, ?_, ?_⟩
    · intro hnumber
      rw [isNumber_plain hnumber] at h
      cases h.1
    · exact fun hpower => h.2 (isPower_plain (fun _ hname => hname.1) hpower)
  | latex =>
    simp only [isForeign, Bool.and_eq_true, Bool.not_eq_true', decide_eq_false_iff_not,
      bne_iff_ne] at h
    obtain ⟨⟨⟨hdigit, hfrac⟩, hbrace⟩, hvariable⟩ := h
    refine ⟨hw, ?_, ?_⟩
    · intro hnumber
      rcases isNumber_latex hnumber with hhead | hhead
      · rw [hhead] at hdigit
        cases hdigit
      · exact hfrac hhead
    · intro hpower
      rcases isPower_latex hpower with hhead | hname
      · exact hbrace hhead
      · exact hvariable hname

/-- **No name of a blade is written like a number or a power of a variable.** -/
theorem foreign_nameFactors {form : TextForm} {name : String} (h : name ∈ bladeNames form) :
    ∀ w ∈ nameFactors name, Foreign form (IsVariable form) w := by
  have hcheck : ∀ name ∈ bladeNames form, ∀ w ∈ nameFactors name,
      IsFactor w ∧ isForeign form w = true := by
    cases form <;> decide +kernel
  -- the check is about all numbers and powers at once, so it is only needed for 32 names
  intro w hw
  obtain ⟨hfactor, hforeign⟩ := hcheck name h w hw
  exact foreign_of_isForeign hfactor hforeign

/-- A name is the product of its factors. -/
theorem toList_name {form : TextForm} {name : String} (h : name ∈ bladeNames form) :
    name.toList = form.times.toList.intercalate (nameFactors name) := by
  have hcheck : ∀ name ∈ bladeNames form,
      name.toList = form.times.toList.intercalate (nameFactors name) := by
    cases form <;> decide +kernel
  exact hcheck name h

theorem nameFactors_injective {form : TextForm} {name name' : String} (h : name ∈ bladeNames form)
    (h' : name' ∈ bladeNames form) (heq : nameFactors name = nameFactors name') : name = name' := by
  rw [← String.toList_inj, toList_name h, toList_name h', heq]

theorem nodup_bladeNames (form : TextForm) : (bladeNames form).Nodup := by
  cases form <;> decide +kernel

theorem nameFactors_eq_nil_iff {name : String} : nameFactors name = [] ↔ name = "" := by
  unfold nameFactors
  split
  next h => simp [h]
  next h => simp [h, List.splitOn_ne_nil]

/-! ## §2. Pieces. -/

section Simple

variable {form : TextForm} {name : String} {m : Monomial} {c x : Fraction}

/-- The opposite of a negative fraction is its distance from zero. -/
theorem isMagnitude_mul_minusOne (hc : c.Normal) (hneg : c.isNegative = true)
    (h : c.mul Fraction.minusOne = .ok x) : c.IsMagnitude x := by
  have hproduct := Fraction.Denotes.mul ⟨hc, rfl⟩ (Fraction.ofInt_denotes (-1))
  obtain ⟨hx, hvalue⟩ := hproduct.ensures x h
  have hvalue : x.value = -c.value := by
    rw [hvalue]
    push_cast
    ring
  have hden : (0 : ℚ) < c.den := by exact_mod_cast hc.1
  have hxden : (0 : ℚ) < x.den := by exact_mod_cast hx.1
  have hnum : (c.num : ℚ) < 0 := by exact_mod_cast of_decide_eq_true hneg
  have hpos : 0 < x.value := by
    rw [hvalue, Fraction.value, neg_pos]
    exact div_neg_of_neg_of_pos hnum hden
  refine ⟨⟨hx, ?_⟩, by rw [hneg, if_pos rfl, hvalue, neg_neg]⟩
  rw [Fraction.value, div_pos_iff_of_pos_right hxden] at hpos
  exact Int.le_of_lt (by exact_mod_cast hpos)

theorem neg_single : Polynomial.neg ⟨[(m, c)]⟩ = (do
    let x ← c.mul Fraction.minusOne
    return ⟨[(m, x)]⟩) := by
  have hone : Fraction.minusOne.isZero ≠ true := by decide
  rw [Polynomial.neg, Polynomial.scale, if_neg hone, List.mapM_cons, List.mapM_nil,
    Polynomial.scaleTerm]
  cases c.mul Fraction.minusOne <;> rfl

/-- **A single term without its sign** is the same monomial with the magnitude. -/
theorem unsigned_eq_ok (hc : c.Normal) {magnitude : Polynomial}
    (h : unsigned ⟨[(m, c)]⟩ = .ok magnitude) :
    ∃ x, c.IsMagnitude x ∧ magnitude = ⟨[(m, x)]⟩ := by
  have hsign : unsigned ⟨[(m, c)]⟩ = if c.isNegative then Polynomial.neg ⟨[(m, c)]⟩
      else .ok ⟨[(m, c)]⟩ := by
    simp [unsigned]
  rw [hsign] at h
  cases hneg : c.isNegative with
  | false =>
    rw [hneg] at h
    obtain rfl := Except.ok.inj h
    have hnum : 0 ≤ c.num := by simpa [Fraction.isNegative] using hneg
    exact ⟨c, ⟨⟨hc, hnum⟩, by rw [hneg]; rfl⟩, rfl⟩
  | true =>
    rw [hneg, if_pos rfl, neg_single] at h
    obtain ⟨x, hx, h⟩ := bind_eq_ok_iff.mp h
    exact ⟨x, isMagnitude_mul_minusOne hc hneg hx, (Except.ok.inj h).symm⟩

/-- The text of a single term that is not negative. -/
theorem render_single (hx : x.Unsigned) :
    Polynomial.render form ⟨[(m, x)]⟩ = .ok (Polynomial.renderMagnitude form m x) := by
  have hneg : x.isNegative = false := by
    rw [Fraction.isNegative, decide_eq_false_iff_not]
    exact Int.not_lt.mpr hx.2
  have habs : x.abs = .ok x := by rw [Fraction.abs, hneg, if_neg Bool.false_ne_true]
  have hterm : Polynomial.renderTerm form (m, x)
      = .ok ⟨false, Polynomial.renderMagnitude form m x⟩ := by
    rw [Polynomial.renderTerm, habs, hneg]
    rfl
  rw [Polynomial.render, List.mapM_cons, List.mapM_nil, hterm]
  simp [SignedText.sum, SignedText.opening, bind, Except.bind, pure, Except.pure]

/-- The text of a product in front of a name. -/
theorem toList_beforeBlade (hname : name ∈ bladeNames form)
    (h : ¬ (name ≠ "" ∧ x = Fraction.one ∧ m.isOne = true)) :
    (beforeBlade form (Polynomial.renderMagnitude form m x) name).toList
      = product form x m (nameFactors name) := by
  unfold beforeBlade
  split
  next hempty =>
    rw [nameFactors_eq_nil_iff.mpr hempty, Polynomial.toList_renderMagnitude]
  next hempty =>
    have hmore : nameFactors name ≠ [] := fun hnil => hempty (nameFactors_eq_nil_iff.mp hnil)
    rw [product_append hmore fun hone => h ⟨hempty, hone⟩, ← toList_name hname,
      String.toList_append, String.toList_append, Polynomial.toList_renderMagnitude,
      List.append_assoc]

theorem isNumber_single : Polynomial.isNumber ⟨[(m, x)]⟩ Fraction.one = true
    ↔ x = Fraction.one ∧ m.isOne = true := by
  cases m
  simp [Polynomial.isNumber, Monomial.isOne, Monomial.one, and_comm]

/-- A name alone is a product with the number 1. -/
theorem toList_name_product (hname : name ∈ bladeNames form) (hempty : name ≠ "")
    (hm : m.isOne = true) : name.toList = product form Fraction.one m (nameFactors name) := by
  have hmore : nameFactors name ≠ [] := fun hnil => hempty (nameFactors_eq_nil_iff.mp hnil)
  have hpowers : powerFactors form m = [] := (powerFactors_eq_nil_iff form m).mpr hm
  rw [product, factors, hpowers, List.nil_append, if_pos ⟨rfl, hmore⟩, List.nil_append]
  exact toList_name hname

/-- **A coefficient of one term is shown as a product** with the name of its blade. -/
theorem renderSimple_product (hc : c.Normal) (hm : ∀ v ∈ m.names, IsVariable form v)
    (hname : name ∈ bladeNames form) {piece : SignedText}
    (h : renderSimple form ⟨[(m, c)]⟩ name = .ok piece) :
    ∃ x, c.IsMagnitude x ∧ Readable form (IsVariable form) x m (nameFactors name)
      ∧ piece.negative = c.isNegative
      ∧ piece.body.toList = product form x m (nameFactors name) := by
  rw [renderSimple_eq] at h
  obtain ⟨magnitude, hmagnitude, h⟩ := bind_eq_ok_iff.mp h
  obtain ⟨x, hx, rfl⟩ := unsigned_eq_ok hc hmagnitude
  refine ⟨x, hx, ⟨hx.unsigned, hm, foreign_nameFactors hname⟩, ?_⟩
  split at h
  next hone =>
    -- the name alone stands for the coefficient 1
    obtain ⟨hempty, hnumber⟩ := hone
    obtain ⟨rfl, hm1⟩ := isNumber_single.mp hnumber
    obtain rfl := Except.ok.inj h
    exact ⟨by simp, toList_name_product hname hempty hm1⟩
  next hone =>
    rw [isNumber_single] at hone
    rw [render_single hx.unsigned] at h
    obtain rfl := Except.ok.inj h
    exact ⟨by simp, toList_beforeBlade hname hone⟩

end Simple

/-! ## §3. A piece tells its name and its coefficient. -/

/-- What stands behind a polynomial in parentheses. -/
def behind (form : TextForm) (name : String) : List Char :=
  if name = "" then [] else form.times.toList ++ name.toList

/-- A polynomial in parentheses in front of a name. -/
def compound (form : TextForm) (text name : String) : List Char :=
  '(' :: (text.toList ++ ')' :: behind form name)

section Pieces

variable {form : TextForm} {name name' : String} {p q : Polynomial} {piece : SignedText}

theorem solid_behind (h : name ∈ bladeNames form) : Solid (behind form name) := by
  unfold behind
  split
  · exact ⟨by simp, by simp⟩
  next hempty =>
    have hsolid : Solid name.toList := by
      rw [toList_name h]
      exact solid_product form fun w hw => (foreign_nameFactors h w hw).isFactor
    exact hsolid.prepend (times_free form) (by simpa using hempty)

theorem behind_injective (h : behind form name = behind form name') : name = name' := by
  unfold behind at h
  have htimes : form.times.toList ≠ [] := by cases form <;> decide
  split at h <;> split at h
  next hn hn' => rw [hn, hn']
  next => simp [htimes] at h
  next => simp [htimes] at h
  next => exact String.toList_inj.mp (List.append_cancel_left h)

/-- The text shows the polynomial behind a name. -/
structure ShowsCompound (form : TextForm) (p : Polynomial) (text name : String) : Prop where
  legible : p.Legible (IsVariable form)
  terms_ne_nil : p.terms ≠ []
  name_mem : name ∈ bladeNames form
  render_eq : p.render form = .ok text

/-- **A compound piece tells its polynomial and its name**, in front of a stop. -/
theorem ShowsCompound.injective {text text' : String} (h : ShowsCompound form p text name)
    (h' : ShowsCompound form q text' name') {s t : List Char} (hs : Stop s) (ht : Stop t)
    (heq : compound form text name ++ s = compound form text' name' ++ t) :
    p = q ∧ name = name' ∧ s = t := by
  have hinner : text.toList ++ (')' :: (behind form name ++ s))
      = text'.toList ++ (')' :: (behind form name' ++ t)) := by
    simpa [compound] using heq
  obtain ⟨hpq, hrest⟩ := Polynomial.text_delimited (fun _ hv => hv.1) h.legible h'.legible
    h.terms_ne_nil h'.terms_ne_nil h.render_eq h'.render_eq (Or.inr ⟨_, rfl⟩) (Or.inr ⟨_, rfl⟩) hinner
  obtain ⟨hbehind, hst⟩ := solid_delimited (solid_behind h.name_mem) (solid_behind h'.name_mem)
    hs ht (List.cons.inj hrest).2
  exact ⟨hpq, behind_injective hbehind, hst⟩

/-- The body of a piece: a product, or a polynomial in parentheses. -/
def IsBody (form : TextForm) (u : List Char) : Prop :=
  IsPiece u ∨ ∃ p text name, ShowsCompound form p text name ∧ u = compound form text name

/-- A product does not begin with a parenthesis. -/
theorem piece_ne_compound {u s t : List Char} (hu : IsPiece u) {text : String} :
    u ++ s ≠ compound form text name ++ t := by
  intro h
  obtain ⟨c, u', rfl, hc⟩ := hu.head
  obtain rfl := (List.cons.inj h).1
  exact hc (by simp [marks])

/-- **Pieces of both kinds are delimited.** -/
theorem isBody_delimited : Delimited (IsBody form) := by
  intro u v s t hu hv hs ht h
  rcases hu with hu | ⟨p, text, name, hp, rfl⟩ <;> rcases hv with hv | ⟨q, text', name', hq, rfl⟩
  · exact isPiece_delimited hu hv hs ht h
  · exact absurd h (piece_ne_compound hu)
  · exact absurd h.symm (piece_ne_compound hv)
  · obtain ⟨rfl, rfl, rfl⟩ := hp.injective hq hs ht h
    exact ⟨List.append_cancel_right h, rfl⟩

theorem IsBody.unsigned {u : List Char} (h : IsBody form u) : ∃ c u', u = c :: u' ∧ c ≠ '-' := by
  rcases h with h | ⟨p, text, name, -, rfl⟩
  · exact IsPiece.unsigned h
  · exact ⟨'(', _, rfl, by decide⟩

/-- The piece shows the coefficient behind the name. -/
structure ShowsTerm (form : TextForm) (name : String) (p : Polynomial) (piece : SignedText) :
    Prop where
  legible : p.Legible (IsVariable form)
  name_mem : name ∈ bladeNames form
  renderTerm_eq : renderTerm form name p = .ok [piece]

/-- **The two kinds of pieces.** -/
theorem ShowsTerm.kinds (h : ShowsTerm form name p piece) :
    (∃ m c x, p = ⟨[(m, c)]⟩ ∧ c.IsMagnitude x
      ∧ Readable form (IsVariable form) x m (nameFactors name) ∧ piece.negative = c.isNegative
      ∧ piece.body.toList = product form x m (nameFactors name))
    ∨ ∃ text, ShowsCompound form p text name ∧ piece.negative = false
      ∧ piece.body.toList = compound form text name := by
  obtain ⟨hlegible, hname, htext⟩ := h
  obtain ⟨_ | ⟨⟨m, c⟩, _ | ⟨t, rest⟩⟩⟩ := p
  · cases htext
  · -- one term
    left
    change (do return [← renderSimple form ⟨[(m, c)]⟩ name] : Outcome (List SignedText)) = _ at htext
    obtain ⟨piece', hsimple, htext⟩ := bind_eq_ok_iff.mp htext
    obtain rfl := List.singleton_inj.mp (Except.ok.inj htext)
    have hmem : (m, c) ∈ [(m, c)] := List.mem_singleton_self _
    obtain ⟨x, hx⟩ := renderSimple_product (hlegible.canonical.2 (m, c) hmem).2
      (hlegible.named (m, c) hmem) hname hsimple
    exact ⟨m, c, x, rfl, hx⟩
  · -- several terms
    right
    set p : Polynomial := ⟨(m, c) :: t :: rest⟩
    change (do return [← renderCompound form p name] : Outcome (List SignedText)) = _ at htext
    obtain ⟨piece', hcompound, htext⟩ := bind_eq_ok_iff.mp htext
    obtain rfl := List.singleton_inj.mp (Except.ok.inj htext)
    unfold renderCompound at hcompound
    obtain ⟨text, hrender, hcompound⟩ := bind_eq_ok_iff.mp hcompound
    obtain rfl := Except.ok.inj hcompound
    refine ⟨text, ⟨hlegible, List.cons_ne_nil _ _, hname, hrender⟩, rfl, ?_⟩
    unfold beforeBlade compound behind
    split <;> simp

theorem ShowsTerm.isBody (h : ShowsTerm form name p piece) : IsBody form piece.body.toList := by
  rcases h.kinds with ⟨m, c, x, -, -, hx, -, hbody⟩ | ⟨text, htext, -, hbody⟩
  · exact Or.inl (hbody ▸ hx.piece fun _ hv => hv.1)
  · exact Or.inr ⟨p, text, name, htext, hbody⟩

/-- **A piece tells its name and its coefficient.** -/
theorem ShowsTerm.injective (h : ShowsTerm form name p piece) (h' : ShowsTerm form name' q piece) :
    p = q ∧ name = name' := by
  have hidentifier : ∀ v, IsVariable form v → IsIdentifier v := fun _ hv => hv.1
  rcases h.kinds with ⟨m, c, x, hp, hcx, hx, hsign, hbody⟩ | ⟨text, htext, -, hbody⟩ <;>
    rcases h'.kinds with ⟨n, d, y, hq, hdy, hy, hsign', hbody'⟩ | ⟨text', htext', -, hbody'⟩
  · -- two products
    obtain ⟨rfl, rfl, hfactors⟩ :=
      hx.product_injective hidentifier hy (hbody.symm.trans hbody')
    have hc : c.Normal := (h.legible.canonical.2 (m, c) (by simp [hp])).2
    have hd : d.Normal := (h'.legible.canonical.2 (m, d) (by simp [hq])).2
    rw [hp, hq, hcx.eq hc hd hdy (hsign.symm.trans hsign')]
    exact ⟨rfl, nameFactors_injective h.name_mem h'.name_mem hfactors⟩
  · have hsame : product form x m (nameFactors name) ++ [] = compound form text' name' ++ [] := by
      rw [← hbody, ← hbody']
    exact absurd hsame (piece_ne_compound (hx.piece hidentifier))
  · have hsame : product form y n (nameFactors name') ++ [] = compound form text name ++ [] := by
      rw [← hbody, ← hbody']
    exact absurd hsame (piece_ne_compound (hy.piece hidentifier))
  · -- two polynomials in parentheses
    obtain ⟨hpq, hname, -⟩ := htext.injective htext' (Or.inl rfl) (Or.inl rfl)
      (congrArg (· ++ []) (hbody.symm.trans hbody'))
    exact ⟨hpq, hname⟩

/-- No piece is the text of zero. -/
theorem ShowsTerm.body_ne_zero (h : ShowsTerm form name p piece) : piece.body ≠ "0" := by
  have hzero : Readable form (IsVariable form) Fraction.zero Monomial.one [] :=
    ⟨⟨Fraction.normal_ofInt 0, by decide⟩, by simp [Monomial.one], by simp⟩
  have hproduct : "0".toList = product form Fraction.zero Monomial.one [] := by
    cases form <;> decide
  intro heq
  rcases h.kinds with ⟨m, c, x, hp, hcx, hx, -, hbody⟩ | ⟨text, -, -, hbody⟩ <;> rw [heq] at hbody
  · -- the number zero does not occur as a coefficient
    obtain ⟨rfl, -, -⟩ := hx.product_injective (fun _ hv => hv.1) hzero
      (hbody.symm.trans hproduct)
    have hmem : (m, c) ∈ p.terms := by simp [hp]
    have hc : c.value ≠ 0 := SortedTerms.value_ne_zero (v := c) (h.legible.canonical.2 _ hmem).2
      (h.legible.canonical.1.2 _ hmem)
    apply hc
    rw [hcx.value_eq]
    simp [Fraction.zero, Fraction.ofInt, Fraction.value]
  · cases (List.cons.inj hbody).1

end Pieces

end Multivector

end GeometricAlgebra
