/-
  GeometricAlgebra.Proofs.Spellings
  ────────────────────────────────
  **THE MANY SPELLINGS OF A BLADE.**

  A blade has labels without end: its axes in any order, with pairs of equal axes
  anywhere among them.  Each of them spells the blade up to a sign, and the sign is
  applied twice: when a labelled term is added, and when a coefficient is asked for
  under a label.  If each `labelᵢ` spells the blade with the sign `σᵢ`,

      (Σ pᵢ · labelᵢ)[label]  =  Σ σᵢ σ · pᵢ     over the spellings of one blade.

  A coefficient asked for under the label of a single term is therefore the one that
  was given (`σ² = 1`), and as the sum forgets in which order it was made, so does
  the multivector.

  Main result:
    * `Multivector.labelled_coefficients` — the coefficients of every sum of labelled
      terms under every label, and which sums are refused.
-/
import GeometricAlgebra.Proofs.BuiltValues
import GeometricAlgebra.Proofs.LabelledBlades

namespace GeometricAlgebra

open Outcome

/-! ## §1. Labels. -/

namespace Metric

variable {metric : Metric} {label : String}

/-- The label is written with symbols of the alphabet only. -/
def IsLabel (metric : Metric) (label : String) : Prop := ∀ c ∈ label.toList, c ∈ metric.symbols

instance : Decidable (metric.IsLabel label) :=
  inferInstanceAs (Decidable (∀ c ∈ label.toList, c ∈ metric.symbols))

/-- The word that a label spells.  A symbol outside the alphabet spells nothing. -/
def wordOf (metric : Metric) (label : String) : Blade := label.toList.filterMap metric.axisOf

/-- The signed blade that a label spells. -/
def spelled (metric : Metric) (label : String) : SignedBlade := metric.normalForm (metric.wordOf label)

theorem axisOf_eq_none_iff {c : Char} : metric.axisOf c = none ↔ c ∉ metric.symbols := by
  simp only [axisOf, symbols, List.findIdx?_eq_none_iff, List.mem_map, beq_eq_false_iff_ne,
    not_exists, not_and]

/-- The one failure of a symbol is to be foreign. -/
theorem parseSymbol_eq_error {c : Char} {failure : Failure} :
    metric.parseSymbol label c = .error failure
      ↔ c ∉ metric.symbols ∧ failure = .malformedBlade (.foreignSymbol c label metric.alphabet) := by
  rw [← axisOf_eq_none_iff]
  unfold parseSymbol
  cases metric.axisOf c with
  | some axis => exact ⟨nofun, nofun⟩
  | none => exact ⟨fun h => ⟨rfl, (Except.error.inj h).symm⟩, fun h => congrArg _ h.2.symm⟩

/-- **A label is read as the word that it spells.** -/
theorem parse_of_isLabel (h : metric.IsLabel label) :
    metric.parse label = .ok (metric.wordOf label) := by
  unfold IsLabel at h
  rw [parse_eq_ok_iff, wordOf]
  generalize label.toList = symbols at h
  induction symbols with
  | nil => exact List.Forall₂.nil
  | cons c symbols ih =>
    obtain ⟨hc, hsymbols⟩ := List.forall_mem_cons.mp h
    obtain ⟨axis, haxis⟩ : ∃ axis, metric.axisOf c = some axis := by
      rw [← Option.ne_none_iff_exists']
      exact fun hnone => axisOf_eq_none_iff.mp hnone hc
    rw [List.filterMap_cons_some haxis]
    exact List.Forall₂.cons haxis (ih hsymbols)

/-- **Every other text is refused**, and a foreign symbol of it is named. -/
theorem parse_of_not_isLabel (h : ¬ metric.IsLabel label) : ∃ c ∈ label.toList, c ∉ metric.symbols
    ∧ metric.parse label = .error (.malformedBlade (.foreignSymbol c label metric.alphabet)) := by
  rcases mapM_cases (metric.parseSymbol label) label.toList with ⟨word, hword⟩ | hfail
  · -- every symbol of a text that was read has an axis
    refine absurd (fun c hc => ?_) h
    obtain ⟨axis, haxis⟩ := exists_ok_of_mapM hword hc
    rw [parseSymbol_eq_ok] at haxis
    by_contra hforeign
    rw [axisOf_eq_none_iff.mpr hforeign] at haxis
    cases haxis
  · obtain ⟨c, hc, failure, hstep, hparse⟩ := hfail
    obtain ⟨hforeign, rfl⟩ := parseSymbol_eq_error.mp hstep
    exact ⟨c, hc, hforeign, hparse⟩

theorem inAlphabet_wordOf (h : metric.IsLabel label) : metric.InAlphabet (metric.wordOf label) :=
  inAlphabet_of_parse (parse_of_isLabel h)

theorem canonicalizeWord_of_isLabel (h : metric.IsLabel label) :
    metric.canonicalizeWord label = .ok (metric.spelled label) := by
  rw [canonicalizeWord, parse_of_isLabel h]
  exact canonicalize_of_lt (inAlphabet_wordOf h)

end Metric

namespace Multivector

open SortedTerms

variable {terms : List (String × Polynomial)} {label : String}

/-! ## §2. Foreign symbols. -/

/-- Some label has a foreign symbol, and the failure names it. -/
def NamesForeignSymbol (terms : List (String × Polynomial)) (failure : Failure) : Prop :=
  ∃ t ∈ terms, ∃ c ∈ t.1.toList, c ∉ metric.symbols
    ∧ failure = .malformedBlade (.foreignSymbol c t.1 metric.alphabet)

theorem addLabelled_of_not_isLabel {t : String × Polynomial} (h : ¬ metric.IsLabel t.1)
    (sum : List (Blade × Polynomial)) :
    ∃ failure, NamesForeignSymbol [t] failure ∧ addLabelled sum t = .error failure := by
  obtain ⟨c, hc, hforeign, hparse⟩ := Metric.parse_of_not_isLabel h
  refine ⟨_, ⟨t, List.mem_singleton_self t, c, hc, hforeign, rfl⟩, ?_⟩
  rw [addLabelled, Metric.canonicalizeWord, hparse]
  rfl

/-- A sum that has met no foreign symbol yet will meet one, or overflow before. -/
theorem foldlM_of_not_isLabel (hterms : ∀ t ∈ terms, t.2.Canonical)
    (hforeign : ∃ t ∈ terms, ¬ metric.IsLabel t.1) {sum : List (Blade × Polynomial)}
    (hsum : IsNormal CanonicalBlade sum) : terms.foldlM addLabelled sum = .error .overflow
      ∨ ∃ failure, NamesForeignSymbol terms failure
        ∧ terms.foldlM addLabelled sum = .error failure := by
  induction terms generalizing sum with
  | nil =>
    obtain ⟨t, ht, -⟩ := hforeign
    cases ht
  | cons t terms ih =>
    obtain ⟨hp, hterms⟩ := List.forall_mem_cons.mp hterms
    rw [List.foldlM_cons]
    by_cases hlabel : metric.IsLabel t.1
    · cases addLabelled_yields hsum (Metric.parse_of_isLabel hlabel) hp with
      | overflow hadd => exact Or.inl (by rw [hadd]; rfl)
      | answer sum' hadd hsum' =>
        -- the foreign symbol is in one of the other labels
        have hrest : ∃ u ∈ terms, ¬ metric.IsLabel u.1 := by
          obtain ⟨u, hu, hnot⟩ := hforeign
          rcases List.mem_cons.mp hu with rfl | hu
          · exact absurd hlabel hnot
          · exact ⟨u, hu, hnot⟩
        rw [hadd]
        rcases ih hterms hrest hsum'.1 with hover | ⟨failure, ⟨u, hu, hnamed⟩, hfail⟩
        · exact Or.inl hover
        · exact Or.inr ⟨failure, ⟨u, List.mem_cons_of_mem t hu, hnamed⟩, hfail⟩
    · obtain ⟨failure, ⟨u, hu, hnamed⟩, hadd⟩ := addLabelled_of_not_isLabel hlabel sum
      obtain rfl := List.mem_singleton.mp hu
      exact Or.inr ⟨failure, ⟨u, List.mem_cons_self, hnamed⟩, by rw [hadd]; rfl⟩

/-- **A sum with a foreign symbol is refused**, unless it overflows before. -/
theorem ofTerms_of_not_isLabel (hterms : ∀ t ∈ terms, t.2.Canonical)
    (hforeign : ∃ t ∈ terms, ¬ metric.IsLabel t.1) : ofTerms terms = .error .overflow
      ∨ ∃ failure, NamesForeignSymbol terms failure ∧ ofTerms terms = .error failure := by
  rcases foldlM_of_not_isLabel hterms hforeign isNormal_nil with hover | ⟨failure, hnamed, hfail⟩
  · exact Or.inl (by rw [ofTerms, hover]; rfl)
  · exact Or.inr ⟨failure, hnamed, by rw [ofTerms, hfail]; rfl⟩

/-! ## §3. Coefficients under a label. -/

/-- The polynomials of all terms whose label spells the blade of the given one, each
with both signs. -/
noncomputable def spelledSum (terms : List (String × Polynomial)) (label : String) :
    MvPolynomial String ℚ :=
  ((terms.filter fun t => (metric.spelled t.1).axes = (metric.spelled label).axes).map fun t =>
    ((metric.spelled t.1).sign * (metric.spelled label).sign).toInt • t.2.value).sum

/-- The element that labelled terms stand for. -/
noncomputable def labelledSum (terms : List (String × Polynomial)) : ConformalAlgebra :=
  (terms.map fun t => t.2.value • ((metric.wordOf t.1).map Clifford.axis).prod).sum

/-- **Labelled terms add up exactly.** -/
theorem ofTerms_yields (hlabels : ∀ t ∈ terms, metric.IsLabel t.1)
    (hterms : ∀ t ∈ terms, t.2.Canonical) :
    Yields (ofTerms terms) (Denotes (labelledSum terms)) :=
  ofTerms_denotes metric.wordOf fun t ht =>
    ⟨Metric.parse_of_isLabel (hlabels t ht), hterms t ht⟩

/-- A coefficient has the sign of the label under which it is asked for. -/
theorem Denotes.coefficient {x : ConformalAlgebra} {a : Multivector} (ha : Denotes x a)
    (hlabel : metric.IsLabel label) : Yields (a.coefficient label) (Polynomial.Denotes
      ((metric.spelled label).sign.toInt
        • Clifford.coord (metric.spelled label).axes.toFinset x)) := by
  have hblade : CanonicalBlade (metric.spelled label).axes :=
    normalForm_canonicalBlade (Metric.inAlphabet_wordOf hlabel)
  unfold Multivector.coefficient
  rw [Metric.canonicalizeWord_of_isLabel hlabel, ← ha.2, ha.1.coord_value hblade]
  exact Polynomial.Denotes.scaleSign ⟨ha.1.coefficientOf _, rfl⟩ _

/-- A word contributes to the blade of its canonical form, with the sign of that form. -/
theorem coord_word {word K : Blade} (hword : metric.InAlphabet word) (hK : CanonicalBlade K)
    (f : MvPolynomial String ℚ) :
    Clifford.coord K.toFinset (f • ((word.map Clifford.axis).prod : ConformalAlgebra))
      = if (metric.normalForm word).axes = K then (metric.normalForm word).sign.toInt • f else 0 := by
  have hblade := normalForm_canonicalBlade hword
  have hcoord := coord_algebraTerm hK hblade f
  rw [Metric.prod_normalForm Metric.represents_axis, Clifford.prod_axes hblade.1, smul_comm,
    ← Clifford.single_eq_smul, map_zsmul]
  show _ • Clifford.coord K.toFinset (algebraTerm _ f) = _
  rw [hcoord, smul_ite, smul_zero]

/-- **The two signs of a spelling multiply.** -/
theorem coord_labelledSum (hlabels : ∀ t ∈ terms, metric.IsLabel t.1)
    (hlabel : metric.IsLabel label) : (metric.spelled label).sign.toInt
      • Clifford.coord (metric.spelled label).axes.toFinset (labelledSum terms)
      = spelledSum terms label := by
  have hblade : CanonicalBlade (metric.spelled label).axes :=
    normalForm_canonicalBlade (Metric.inAlphabet_wordOf hlabel)
  -- one term contributes if its label spells the same blade, and nothing otherwise
  have hterm : ∀ t ∈ terms, (metric.spelled label).sign.toInt
      • Clifford.coord (metric.spelled label).axes.toFinset
        (t.2.value • ((metric.wordOf t.1).map Clifford.axis).prod : ConformalAlgebra)
      = if (metric.spelled t.1).axes = (metric.spelled label).axes
        then ((metric.spelled t.1).sign * (metric.spelled label).sign).toInt • t.2.value else 0 := by
    intro t ht
    rw [coord_word (Metric.inAlphabet_wordOf (hlabels t ht)) hblade, smul_ite, smul_zero, smul_smul,
      ← Sign.toInt_mul, Sign.mul_comm]
    rfl
  rw [labelledSum, map_list_sum, List.smul_sum, List.map_map, List.map_map]
  calc _ = _ := congrArg List.sum (List.map_congr_left hterm)
    _ = _ := by rw [List.sum_map_ite, List.sum_map_zero, add_zero, spelledSum]

/-- **The coefficient under a label is the sum over the spellings of its blade.** -/
theorem coefficient_yields (hlabels : ∀ t ∈ terms, metric.IsLabel t.1)
    (hterms : ∀ t ∈ terms, t.2.Canonical) (hlabel : metric.IsLabel label) :
    Yields (do (← ofTerms terms).coefficient label)
      (Polynomial.Denotes (spelledSum terms label)) := by
  rw [← coord_labelledSum hlabels hlabel]
  exact (ofTerms_yields hlabels hterms).bind fun _ ha => ha.coefficient hlabel

/-- Under its own label a single term has its own coefficient. -/
theorem spelledSum_singleton (label : String) (p : Polynomial) :
    spelledSum [(label, p)] label = p.value := by
  simp [spelledSum, Sign.toInt]

/-! ## §4. The laws of labelled sums. -/

/-- **A single term keeps its polynomial under its label.** -/
theorem coefficient_singleton {p : Polynomial} (hlabel : metric.IsLabel label)
    (hp : p.Canonical) : Agree (do (← ofTerms [(label, p)]).coefficient label) (.ok p) := by
  have hsingle : Yields (do (← ofTerms [(label, p)]).coefficient label)
      (Polynomial.Denotes (spelledSum [(label, p)] label)) :=
    coefficient_yields (by simpa using hlabel) (by simpa using hp) hlabel
  rw [spelledSum_singleton] at hsingle
  exact Yields.agree (fun _ _ => Polynomial.value_injective) hsingle (yields_ok ⟨hp, rfl⟩)

section Order

variable {terms' : List (String × Polynomial)} (hperm : terms'.Perm terms)
  (hlabels : ∀ t ∈ terms, metric.IsLabel t.1) (hterms : ∀ t ∈ terms, t.2.Canonical)
include hperm hlabels hterms

/-- **The order of the terms does not matter** for their sum. -/
theorem ofTerms_agree_of_perm : Agree (ofTerms terms') (ofTerms terms) := by
  have hsum : labelledSum terms' = labelledSum terms := (hperm.map _).sum_eq
  have hyields := ofTerms_yields (fun t ht => hlabels t (hperm.mem_iff.mp ht))
    (fun t ht => hterms t (hperm.mem_iff.mp ht))
  exact agree_of_denotes (hsum ▸ hyields) (ofTerms_yields hlabels hterms)

/-- Nor does it for the coefficients. -/
theorem coefficient_agree_of_perm (hlabel : metric.IsLabel label) :
    Agree (do (← ofTerms terms').coefficient label) (do (← ofTerms terms).coefficient label) := by
  have hsum : spelledSum terms' label = spelledSum terms label := ((hperm.filter _).map _).sum_eq
  have hyields := coefficient_yields (fun t ht => hlabels t (hperm.mem_iff.mp ht))
    (fun t ht => hterms t (hperm.mem_iff.mp ht)) hlabel
  exact Yields.agree (fun _ _ => Polynomial.value_injective) (hsum ▸ hyields)
    (coefficient_yields hlabels hterms hlabel)

end Order

/-- **A sum that does not overflow is refused for a foreign symbol, and for nothing
else.** -/
theorem ofTerms_cases (hterms : ∀ t ∈ terms, t.2.Canonical)
    (hover : ofTerms terms ≠ .error .overflow) :
    ((∃ a, ofTerms terms = .ok a) ∧ ∀ t ∈ terms, metric.IsLabel t.1)
      ∨ (∃ fault, ofTerms terms = .error (.malformedBlade fault))
        ∧ ∃ t ∈ terms, ∃ c ∈ t.1.toList, c ∉ metric.symbols := by
  by_cases hlabels : ∀ t ∈ terms, metric.IsLabel t.1
  · cases ofTerms_yields hlabels hterms with
    | overflow h => exact absurd h hover
    | answer a h _ => exact Or.inl ⟨⟨a, h⟩, hlabels⟩
  · have hforeign : ∃ t ∈ terms, ¬ metric.IsLabel t.1 := by
      by_contra hnone
      exact hlabels fun t ht => not_not.mp fun hnot => hnone ⟨t, ht, hnot⟩
    rcases ofTerms_of_not_isLabel hterms hforeign with h | ⟨_, ⟨t, ht, c, hc, hnot, rfl⟩, h⟩
    · exact absurd h hover
    · exact Or.inr ⟨⟨_, h⟩, t, ht, c, hc, hnot⟩

/-- **EVERY SPELLING OF A BLADE NAMES IT**: the coefficient of a sum of labelled terms
under a label is the sum over the spellings of the same blade, each polynomial with
the sign of its own label and that of the one asked for.  So a single term keeps its
polynomial under its label, and the terms may be given in any order; all this unless a
step overflows.  A sum that does not overflow is refused for a malformed blade exactly
if some label has a foreign symbol, and is answered exactly if none has. -/
theorem labelled_coefficients {terms : List (String × Polynomial)}
    (hterms : ∀ t ∈ terms, t.2.Canonical) :
    ((∀ t ∈ terms, metric.IsLabel t.1) →
        (∀ label, metric.IsLabel label → metric.canonicalizeWord label = .ok (metric.spelled label)
          ∧ Yields (do (← ofTerms terms).coefficient label)
              (Polynomial.Denotes (spelledSum terms label)))
        ∧ ∀ terms' : List (String × Polynomial), terms'.Perm terms →
          Agree (ofTerms terms') (ofTerms terms)
            ∧ ∀ label, metric.IsLabel label →
              Agree (do (← ofTerms terms').coefficient label)
                (do (← ofTerms terms).coefficient label))
      ∧ (∀ label p, metric.IsLabel label → p.Canonical →
        Agree (do (← ofTerms [(label, p)]).coefficient label) (.ok p))
      ∧ (ofTerms terms ≠ .error .overflow →
        ((∃ fault, ofTerms terms = .error (.malformedBlade fault))
            ↔ ∃ t ∈ terms, ∃ c ∈ t.1.toList, c ∉ metric.symbols)
          ∧ ((∃ a, ofTerms terms = .ok a) ↔ ∀ t ∈ terms, metric.IsLabel t.1)) := by
  refine ⟨fun hlabels => ⟨fun label hlabel => ⟨?_, ?_⟩, fun terms' hperm => ⟨?_, ?_⟩⟩, ?_, ?_⟩
  · exact Metric.canonicalizeWord_of_isLabel hlabel
  · exact coefficient_yields hlabels hterms hlabel
  · exact ofTerms_agree_of_perm hperm hlabels hterms
  · exact fun label hlabel => coefficient_agree_of_perm hperm hlabels hterms hlabel
  · exact fun label p hlabel hp => coefficient_singleton hlabel hp
  · intro hover
    rcases ofTerms_cases hterms hover with ⟨⟨a, h⟩, hlabels⟩ | ⟨⟨fault, h⟩, t, ht, c, hc, hnot⟩
    · rw [h]
      refine ⟨iff_of_false nofun ?_, iff_of_true ⟨a, rfl⟩ hlabels⟩
      rintro ⟨t, ht, c, hc, hnot⟩
      exact hnot (hlabels t ht c hc)
    · rw [h]
      exact ⟨iff_of_true ⟨fault, rfl⟩ ⟨t, ht, c, hc, hnot⟩,
        iff_of_false nofun fun hlabels => hnot (hlabels t ht c hc)⟩

/-- The terms `a · e₋x`, `2 · x e₋` and `b · e₋e₋x e₋`, of which the last two are spelled
out of order. -/
def respelled : List (String × Polynomial) :=
  [("-x", .var "a"), ("x-", .ofInt 2), ("--x-", .var "b")]

/-- Under the label `x-` the three terms have the coefficient `2 − a − b`, and one with a
foreign symbol is refused. -/
theorem labelled_coefficients_respelled : (∀ t ∈ respelled, t.2.Canonical)
    ∧ (∀ t ∈ respelled, metric.IsLabel t.1) ∧ metric.IsLabel "x-"
    ∧ (∃ p, (do (← ofTerms respelled).coefficient "x-") = .ok p
      ∧ p = ⟨[(⟨[]⟩, .ofInt 2), (⟨["a"]⟩, .ofInt (-1)), (⟨["b"]⟩, .ofInt (-1))]⟩
      ∧ Polynomial.Denotes (spelledSum respelled "x-") p)
    ∧ Agree (ofTerms respelled.reverse) (ofTerms respelled)
    ∧ ∃ fault, ofTerms (("xq", .one) :: respelled) = .error (.malformedBlade fault) := by
  have hterms : ∀ t ∈ respelled, t.2.Canonical := by decide
  have hlabels : ∀ t ∈ respelled, metric.IsLabel t.1 := by
    simp [respelled, Metric.IsLabel, metric, Metric.conformalSpace, Metric.symbols]
  have hlabel : metric.IsLabel "x-" := hlabels _ (List.mem_cons_of_mem _ List.mem_cons_self)
  have hforeign : ∀ t ∈ ("xq", Polynomial.one) :: respelled, t.2.Canonical := by decide
  have hcoefficient : (do (← ofTerms respelled).coefficient "x-")
      = .ok ⟨[(⟨[]⟩, .ofInt 2), (⟨["a"]⟩, .ofInt (-1)), (⟨["b"]⟩, .ofInt (-1))]⟩ := by decide +kernel
  have hfinite : ofTerms (("xq", .one) :: respelled) ≠ .error .overflow := by decide +kernel
  obtain ⟨hspelled, -, -⟩ := labelled_coefficients hterms
  obtain ⟨hsum, hperm⟩ := hspelled hlabels
  obtain ⟨-, -, hrefused⟩ := labelled_coefficients hforeign
  exact ⟨hterms, hlabels, hlabel, ⟨_, hcoefficient, rfl, (hsum _ hlabel).2.ensures _ hcoefficient⟩,
    (hperm _ respelled.reverse_perm).1, (hrefused hfinite).1.mpr ⟨_, List.mem_cons_self, 'q',
      by simp, by simp [metric, Metric.conformalSpace, Metric.symbols]⟩⟩

end Multivector

end GeometricAlgebra
