/-
  GeometricAlgebra.Proofs.Overflow
  ────────────────────────────────
  **ANSWERS UP TO OVERFLOW.**

  Exact arithmetic on machine words has one excuse for not answering: a step
  left the range of a word.  `Yields x P` says that `x` answers with a value
  that has the property `P`, or overflows; any other failure refutes it.  The
  rules below follow the shape of a program, so each operation of the library
  gets one such statement and its callers never look inside.

  Main results:
    * `Yields.bind`, `Yields.mapM`, `Yields.foldlM` — sequencing and loops.
    * `Yields.agree` — two programs with the same exact meaning `Agree`: unless
      one of them overflows, both answer, with the same value.
    * `Ensures.bind`, `Ensures.mapM`, `Ensures.foldlM` — the same rules for
      programs that may fail for other reasons too.
    * `Answers.bind`, `Answers.mapM` — the same rules for programs that do answer.
-/
import GeometricAlgebra.Failure
import Mathlib

namespace GeometricAlgebra.Outcome

variable {α β γ : Type}

/-! ## §1. Postconditions. -/

/-- The outcome is an answer with the property `P`, or an overflow. -/
inductive Yields (x : Outcome α) (P : α → Prop) : Prop where
  /-- The program answers. -/
  | answer (a : α) (hx : x = .ok a) (h : P a)
  /-- A step left the range of a word. -/
  | overflow (hx : x = .error .overflow)

theorem yields_ok {P : α → Prop} {a : α} (h : P a) : Yields (.ok a) P := .answer a rfl h

theorem yields_pure {P : α → Prop} {a : α} (h : P a) : Yields (pure a) P := .answer a rfl h

theorem yields_overflow {P : α → Prop} : Yields (.error .overflow) P := .overflow rfl

theorem Yields.mono {P Q : α → Prop} {x : Outcome α} (h : Yields x P) (hPQ : ∀ a, P a → Q a) :
    Yields x Q := by
  cases h with
  | answer a hx h => exact .answer a hx (hPQ a h)
  | overflow hx => exact .overflow hx

/-- The only failure is an overflow. -/
theorem Yields.failure_eq {P : α → Prop} {x : Outcome α} {failure : Failure} (h : Yields x P)
    (hx : x = .error failure) : failure = .overflow := by
  cases h with
  | answer a ha _ =>
    rw [ha] at hx
    cases hx
  | overflow ho =>
    rw [ho] at hx
    exact (Except.error.inj hx).symm

/-- **Sequencing**: what follows may rely on what came before. -/
theorem Yields.bind {P : α → Prop} {Q : β → Prop} {x : Outcome α} {f : α → Outcome β}
    (hx : Yields x P) (hf : ∀ a, P a → Yields (f a) Q) : Yields (x >>= f) Q := by
  cases hx with
  | answer a hx h =>
    rw [hx]
    exact hf a h
  | overflow hx =>
    rw [hx]
    exact yields_overflow

/-- What follows an exact step sees its exact value. -/
theorem Yields.bind_eq {Q : β → Prop} {x : Outcome α} {a : α} {f : α → Outcome β}
    (hx : Yields x (· = a)) (hf : Yields (f a) Q) : Yields (x >>= f) Q := by
  apply hx.bind
  intro b hb
  rw [hb]
  exact hf

/-- **A sequence answers exactly when both steps do.** -/
theorem bind_eq_ok_iff {x : Outcome α} {f : α → Outcome β} {b : β} :
    x >>= f = .ok b ↔ ∃ a, x = .ok a ∧ f a = .ok b := by
  constructor
  · intro h
    cases x with
    | error failure => cases h
    | ok a => exact ⟨a, rfl, h⟩
  · intro h
    obtain ⟨a, rfl, hb⟩ := h
    exact hb

/-! ## §2. Loops. -/

/-- A loop over a list that computes a value for each item: what holds of each
value holds of all, and a view `φ` of the values is the view `ψ` of the items. -/
theorem Yields.mapM {P : β → Prop} {φ : β → γ} {ψ : α → γ} {f : α → Outcome β} {xs : List α}
    (hf : ∀ x ∈ xs, Yields (f x) (fun y => P y ∧ φ y = ψ x)) :
    Yields (xs.mapM f) (fun ys => (∀ y ∈ ys, P y) ∧ ys.map φ = xs.map ψ) := by
  induction xs with
  | nil => exact yields_pure ⟨by simp, rfl⟩
  | cons x xs ih =>
    rw [List.mapM_cons]
    refine (hf x List.mem_cons_self).bind fun y hy => ?_
    refine (ih fun x' hx' => hf x' (List.mem_cons_of_mem x hx')).bind fun ys hys => ?_
    refine yields_pure ⟨?_, ?_⟩
    · intro y' hy'
      rcases List.mem_cons.mp hy' with rfl | hmem
      · exact hy.1
      · exact hys.1 y' hmem
    · rw [List.map_cons, List.map_cons, hy.2, hys.2]

/-- A loop over a list that adds to a total: each step keeps the invariant `I`
and moves the measured total `φ` by the share `ψ` of its item. -/
theorem Yields.foldlM {M : Type} [AddMonoid M] {I : β → Prop} {φ : β → M} {ψ : α → M}
    {step : β → α → Outcome β} {xs : List α} {b : β} (hb : I b)
    (hstep : ∀ x ∈ xs, ∀ b, I b → Yields (step b x) (fun b' => I b' ∧ φ b' = φ b + ψ x)) :
    Yields (xs.foldlM step b) (fun b' => I b' ∧ φ b' = φ b + (xs.map ψ).sum) := by
  induction xs generalizing b with
  | nil => exact yields_pure ⟨hb, by simp⟩
  | cons x xs ih =>
    -- the share of the first item, then those of the others
    rw [List.foldlM_cons]
    refine (hstep x List.mem_cons_self b hb).bind fun b' hb' => ?_
    refine (ih hb'.1 fun x' hx' => hstep x' (List.mem_cons_of_mem x hx')).mono fun b'' hb'' => ?_
    refine ⟨hb''.1, ?_⟩
    rw [hb''.2, hb'.2, List.map_cons, List.sum_cons, add_assoc]

/-- **A loop answers exactly when all its steps do**, with their answers. -/
theorem mapM_eq_ok_iff {f : α → Outcome β} {xs : List α} {ys : List β} :
    xs.mapM f = .ok ys ↔ List.Forall₂ (fun x y => f x = .ok y) xs ys := by
  induction xs generalizing ys with
  | nil =>
    rw [List.mapM_nil, List.forall₂_nil_left_iff]
    exact ⟨fun h => (Except.ok.inj h).symm, fun h => h ▸ rfl⟩
  | cons x xs ih =>
    rw [List.mapM_cons, List.forall₂_cons_left_iff, bind_eq_ok_iff]
    constructor
    · intro h
      obtain ⟨y, hy, h⟩ := h
      obtain ⟨ys, hys, h⟩ := bind_eq_ok_iff.mp h
      exact ⟨y, ys, hy, ih.mp hys, (Except.ok.inj h).symm⟩
    · intro h
      obtain ⟨y, ys, hy, hys, rfl⟩ := h
      exact ⟨y, hy, bind_eq_ok_iff.mpr ⟨ys, ih.mpr hys, rfl⟩⟩

/-- A loop whose steps all answer. -/
theorem mapM_eq_ok {f : α → Outcome β} {g : α → β} {xs : List α}
    (hf : ∀ x ∈ xs, f x = .ok (g x)) : xs.mapM f = .ok (xs.map g) := by
  rw [mapM_eq_ok_iff, List.forall₂_map_right_iff, List.forall₂_same]
  exact hf

/-- A loop that answers has answered at each item. -/
theorem exists_ok_of_mapM {f : α → Outcome β} {xs : List α} {ys : List β}
    (h : xs.mapM f = .ok ys) {x : α} (hx : x ∈ xs) : ∃ y, f x = .ok y := by
  have hsteps := mapM_eq_ok_iff.mp h
  induction hsteps with
  | nil => cases hx
  | cons hhead htail ih =>
    rcases List.mem_cons.mp hx with rfl | hx
    · exact ⟨_, hhead⟩
    · exact ih (mapM_eq_ok_iff.mpr htail) hx

/-- **A loop that has no answer fails as one of its steps does.** -/
theorem mapM_cases (f : α → Outcome β) (xs : List α) : (∃ ys, xs.mapM f = .ok ys)
    ∨ ∃ x ∈ xs, ∃ failure, f x = .error failure ∧ xs.mapM f = .error failure := by
  induction xs with
  | nil => exact Or.inl ⟨[], rfl⟩
  | cons x xs ih =>
    rw [List.mapM_cons]
    cases hx : f x with
    | error failure => exact Or.inr ⟨x, List.mem_cons_self, failure, hx, rfl⟩
    | ok y =>
      rcases ih with ⟨ys, hys⟩ | ⟨x', hmem, failure, hx', hxs⟩
      · exact Or.inl ⟨y :: ys, by rw [hys]; rfl⟩
      · exact Or.inr ⟨x', List.mem_cons_of_mem x hmem, failure, hx', by rw [hxs]; rfl⟩

theorem mapM_congr {f g : α → Outcome β} {xs : List α} (h : ∀ x ∈ xs, f x = g x) :
    xs.mapM f = xs.mapM g := by
  induction xs with
  | nil => rfl
  | cons x xs ih =>
    rw [List.mapM_cons, List.mapM_cons, h x List.mem_cons_self,
      ih fun x' hx' => h x' (List.mem_cons_of_mem x hx')]

section Tables

variable {δ : Type} (f : α → β → Outcome γ) (xs : List α) (k : List γ → Outcome δ)

/-- A table without columns has nothing to collect. -/
theorem table_nil : (do k (← xs.mapM fun x => [].mapM (f x)).flatten) = k [] := by
  have hrows : xs.mapM (fun x => [].mapM (f x)) = .ok (xs.map fun _ => []) :=
    mapM_eq_ok fun x _ => rfl
  rw [hrows]
  show k (xs.map fun _ => []).flatten = k []
  rw [List.flatten_eq_nil_iff.mpr (by simp)]

theorem rows_singleton (y : β) :
    xs.mapM (fun x => [y].mapM (f x)) = (do return (← xs.mapM (f · y)).map ([·])) := by
  induction xs with
  | nil => rfl
  | cons x xs ih =>
    have hrow : [y].mapM (f x) = (do return [← f x y]) := by
      rw [List.mapM_cons]
      rfl
    rw [List.mapM_cons, ih, List.mapM_cons (f := (f · y)), hrow]
    cases f x y with
    | error failure => rfl
    | ok z => cases xs.mapM (f · y) <;> rfl

/-- A table of one column is a loop. -/
theorem table_singleton (y : β) :
    (do k (← xs.mapM fun x => [y].mapM (f x)).flatten) = (do k (← xs.mapM (f · y))) := by
  rw [rows_singleton, bind_assoc]
  refine congrArg _ (funext fun zs => ?_)
  show k (zs.map ([·])).flatten = k zs
  rw [← List.flatMap_def, List.flatMap_singleton']

end Tables

/-! ## §3. Agreement. -/

/-- Two programs agree: unless one of them overflows, both answer, and with the
same value. -/
def Agree (x y : Outcome α) : Prop :=
  x = .error .overflow ∨ y = .error .overflow ∨ ∃ a, x = .ok a ∧ y = .ok a

/-- **Programs with the same exact meaning agree**, provided that answers with
the invariant `I` are determined by their meaning `φ`. -/
theorem Yields.agree {I : α → Prop} {φ : α → γ} {m : γ} {x y : Outcome α}
    (hinj : ∀ a b, I a → I b → φ a = φ b → a = b)
    (hx : Yields x (fun a => I a ∧ φ a = m)) (hy : Yields y (fun a => I a ∧ φ a = m)) :
    Agree x y := by
  cases hx with
  | overflow hx => exact Or.inl hx
  | answer a hx ha =>
    cases hy with
    | overflow hy => exact Or.inr (Or.inl hy)
    | answer b hy hb =>
      have hab : a = b := hinj a b ha.1 hb.1 (ha.2.trans hb.2.symm)
      exact Or.inr (Or.inr ⟨a, hx, hab ▸ hy⟩)

/-! ## §4. Answers alone. -/

/-- Every answer of the program has the property `P`, whatever its failures are. -/
def Ensures (x : Outcome α) (P : α → Prop) : Prop := ∀ a, x = .ok a → P a

theorem ensures_ok {P : α → Prop} {a : α} (h : P a) : Ensures (.ok a) P := by
  rintro _ ⟨⟩
  exact h

theorem ensures_error {P : α → Prop} (failure : Failure) : Ensures (.error failure) P := nofun

theorem Yields.ensures {P : α → Prop} {x : Outcome α} (h : Yields x P) : Ensures x P := by
  cases h with
  | answer a hx h =>
    rw [hx]
    exact ensures_ok h
  | overflow hx =>
    rw [hx]
    exact ensures_error .overflow

theorem Ensures.bind {P : α → Prop} {Q : β → Prop} {x : Outcome α} {f : α → Outcome β}
    (hx : Ensures x P) (hf : ∀ a, P a → Ensures (f a) Q) : Ensures (x >>= f) Q := by
  cases x with
  | error failure => exact ensures_error failure
  | ok a => exact hf a (hx a rfl)

/-- What follows a step whose answer does not matter. -/
theorem ensures_bind {Q : β → Prop} {x : Outcome α} {f : α → Outcome β}
    (hf : ∀ a, Ensures (f a) Q) : Ensures (x >>= f) Q :=
  Ensures.bind (P := fun _ => True) (fun _ _ => trivial) fun a _ => hf a

theorem Ensures.mapM {P : β → Prop} {f : α → Outcome β} {xs : List α}
    (hf : ∀ x ∈ xs, Ensures (f x) P) : Ensures (xs.mapM f) (fun ys => ∀ y ∈ ys, P y) := by
  induction xs with
  | nil => exact ensures_ok (by simp)
  | cons x xs ih =>
    rw [List.mapM_cons]
    refine (hf x List.mem_cons_self).bind fun y hy => ?_
    refine (ih fun x' hx' => hf x' (List.mem_cons_of_mem x hx')).bind fun ys hys => ?_
    exact ensures_ok (List.forall_mem_cons.mpr ⟨hy, hys⟩)

theorem Ensures.foldlM {I : β → Prop} {step : β → α → Outcome β} {xs : List α} {b : β}
    (hb : I b) (hstep : ∀ x ∈ xs, ∀ b, I b → Ensures (step b x) I) :
    Ensures (xs.foldlM step b) I := by
  induction xs generalizing b with
  | nil => exact ensures_ok hb
  | cons x xs ih =>
    rw [List.foldlM_cons]
    refine (hstep x List.mem_cons_self b hb).bind fun b' hb' => ?_
    exact ih hb' fun x' hx' => hstep x' (List.mem_cons_of_mem x hx')

/-! ## §5. Programs that answer. -/

/-- The outcome is an answer with the property `P`: nothing fails, and nothing
overflows on the way. -/
def Answers (x : Outcome α) (P : α → Prop) : Prop := ∃ a, x = .ok a ∧ P a

theorem answers_ok {P : α → Prop} {a : α} (h : P a) : Answers (.ok a) P := ⟨a, rfl, h⟩

theorem Answers.mono {P Q : α → Prop} {x : Outcome α} (h : Answers x P) (hPQ : ∀ a, P a → Q a) :
    Answers x Q := by
  obtain ⟨a, hx, ha⟩ := h
  exact ⟨a, hx, hPQ a ha⟩

theorem Answers.bind {P : α → Prop} {Q : β → Prop} {x : Outcome α} {f : α → Outcome β}
    (hx : Answers x P) (hf : ∀ a, P a → Answers (f a) Q) : Answers (x >>= f) Q := by
  obtain ⟨a, hx, ha⟩ := hx
  rw [hx]
  exact hf a ha

/-- A loop over a list whose steps all answer: what holds of each value holds of
all, and if each value has at most the size `ψ` of its item, so have their sums. -/
theorem Answers.mapM {P : β → Prop} {φ : β → Nat} {ψ : α → Nat} {f : α → Outcome β} {xs : List α}
    (hf : ∀ x ∈ xs, Answers (f x) (fun y => P y ∧ φ y ≤ ψ x)) :
    Answers (xs.mapM f) (fun ys => (∀ y ∈ ys, P y) ∧ (ys.map φ).sum ≤ (xs.map ψ).sum) := by
  induction xs with
  | nil => exact answers_ok ⟨by simp, Nat.le_refl 0⟩
  | cons x xs ih =>
    rw [List.mapM_cons]
    refine (hf x List.mem_cons_self).bind fun y hy => ?_
    refine (ih fun x' hx' => hf x' (List.mem_cons_of_mem x hx')).bind fun ys hys => ?_
    refine answers_ok ⟨List.forall_mem_cons.mpr ⟨hy.1, hys.1⟩, ?_⟩
    simp only [List.map_cons, List.sum_cons]
    exact Nat.add_le_add hy.2 hys.2

end GeometricAlgebra.Outcome
