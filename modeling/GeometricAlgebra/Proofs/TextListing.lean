/-
  GeometricAlgebra.Proofs.TextListing
  ────────────────────────────────
  **A TEXT LISTS THE COEFFICIENTS THAT ARE NOT ZERO.**

  Both forms of text go through some places, find the coefficient at each and
  write it in front of the name of the place.  Plain text goes through the blades
  and LaTeX through the parts of the null basis; what is said here holds of any
  places.

  Main result:
    * `Multivector.listing_yields` — the pieces show the places whose coefficient
      is not zero, each once and in their order.
-/
import GeometricAlgebra.Multivector.Text
import GeometricAlgebra.Proofs.Inverses

namespace GeometricAlgebra

open Outcome

namespace Multivector

/-! ## §1. One piece. -/

/-- A coefficient of one term without its sign. -/
def unsigned (p : Polynomial) : Outcome Polynomial :=
  if p.terms.any (·.2.isNegative) then p.neg else .ok p

/-- A coefficient of one term, in steps: pull the sign out, then write the rest. -/
theorem renderSimple_eq (form : TextForm) (p : Polynomial) (name : String) :
    renderSimple form p name = (do
      let magnitude ← unsigned p
      if name ≠ "" ∧ magnitude.isNumber Fraction.one then
        return ⟨p.terms.any (·.2.isNegative), name⟩
      else do
        let text ← magnitude.render form
        return ⟨p.terms.any (·.2.isNegative), beforeBlade form text name⟩) := by
  unfold renderSimple unsigned
  cases p.terms.any (·.2.isNegative) with
  | true => rfl
  | false => rfl

theorem renderSimple_yields (form : TextForm) {p : Polynomial} (hp : p.Canonical)
    (name : String) : Yields (renderSimple form p name) (fun _ => True) := by
  have hmagnitude : Yields (unsigned p) (fun _ => True) := by
    unfold unsigned
    split
    · exact (Polynomial.Denotes.neg ⟨hp, rfl⟩).mono fun _ _ => trivial
    · exact yields_ok trivial
  rw [renderSimple_eq]
  refine hmagnitude.bind fun magnitude _ => ?_
  split
  · exact yields_pure trivial
  · exact (magnitude.render_yields form).bind fun _ _ => yields_pure trivial

/-- **One piece for a coefficient that is not zero**, and none for zero. -/
theorem renderTerm_yields (form : TextForm) {p : Polynomial} (hp : p.Canonical) (name : String) :
    Yields (renderTerm form name p)
      (fun pieces => pieces.length = if p.isZero then 0 else 1) := by
  -- no term, one term, or several: the cases of the text itself
  unfold renderTerm Polynomial.isZero
  split
  next h =>
    rw [h]
    exact yields_ok rfl
  next h =>
    rw [h]
    exact (renderSimple_yields form hp name).bind fun _ _ => yields_pure rfl
  next hnil _ =>
    rw [List.isEmpty_eq_false_iff.mpr hnil]
    have hcompound : Yields (renderCompound form p name) (fun _ => True) :=
      (p.render_yields form).bind fun _ _ => yields_pure trivial
    exact hcompound.bind fun _ _ => yields_pure rfl

/-! ## §2. The pieces of a text. -/

section Listing

variable {ι : Type} {form : TextForm} {name : ι → String} {coefficient : ι → Outcome Polynomial}

/-- True if the coefficient at a place is known and not zero. -/
def occurs (coefficient : ι → Outcome Polynomial) (place : ι) : Bool :=
  match coefficient place with
  | .ok p => !p.isZero
  | .error _ => false

/-- The piece shows the coefficient at a place behind the name of the place. -/
def Shows (form : TextForm) (name : ι → String) (coefficient : ι → Outcome Polynomial)
    (place : ι) (piece : SignedText) : Prop :=
  ∃ p, coefficient place = .ok p ∧ renderTerm form (name place) p = .ok [piece]

theorem shows_yields {place : ι} (h : Yields (coefficient place) Polynomial.Canonical) :
    Yields (do renderTerm form (name place) (← coefficient place))
      (List.Forall₂ (Shows form name coefficient) ([place].filter (occurs coefficient))) := by
  cases h with
  | overflow h =>
    rw [h]
    exact yields_overflow
  | answer p h hp =>
    -- the number of pieces says whether the coefficient is zero
    cases renderTerm_yields form hp (name place) with
    | overflow hr =>
      rw [h]
      exact .overflow hr
    | answer pieces hr hlength =>
      rw [h]
      refine .answer pieces hr ?_
      have hoccurs : occurs coefficient place = !p.isZero := by rw [occurs, h]
      rw [List.filter_singleton, hoccurs]
      cases h0 : p.isZero with
      | true =>
        rw [h0, if_pos rfl] at hlength
        rw [List.length_eq_zero_iff.mp hlength]
        exact List.Forall₂.nil
      | false =>
        rw [h0, if_neg Bool.false_ne_true] at hlength
        obtain ⟨piece, rfl⟩ := List.length_eq_one_iff.mp hlength
        exact List.Forall₂.cons ⟨p, h, hr⟩ List.Forall₂.nil

/-- **A listing shows the places whose coefficient is not zero**, each once and in
their order. -/
theorem listing_yields {places : List ι}
    (hcoefficient : ∀ place ∈ places, Yields (coefficient place) Polynomial.Canonical) :
    Yields (places.mapM fun place => do renderTerm form (name place) (← coefficient place))
      (fun pieces => List.Forall₂ (Shows form name coefficient)
        (places.filter (occurs coefficient)) pieces.flatten) := by
  induction places with
  | nil => exact yields_pure List.Forall₂.nil
  | cons place places ih =>
    have hrest := ih fun place' h' => hcoefficient place' (List.mem_cons_of_mem _ h')
    rw [List.mapM_cons]
    refine (shows_yields (hcoefficient place List.mem_cons_self)).bind fun pieces hpieces => ?_
    refine hrest.bind fun rest hrest => yields_pure ?_
    rw [← List.singleton_append, List.filter_append, List.flatten_cons]
    exact List.rel_append hpieces hrest

end Listing

end Multivector

end GeometricAlgebra
