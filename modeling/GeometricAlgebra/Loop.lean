/-
  GeometricAlgebra.Loop
  ────────────────────────────────
  **LOOPS THAT RUN UNTIL NOTHING IS LEFT TO DO.**

  A step takes a state to the next one, or to none if there is nothing left to
  do.  `run` takes steps until there is none to take, and no more steps than it
  is given rounds:

      s₀  →  s₁  →  …  →  sₙ  ↛

  The rounds make the loop structural and are never the reason why it ends: if
  a measure falls with every step and starts within the rounds, then the last
  state has no step (`step_run`).

  Main results:
    * `run_induction` — what every step preserves holds of the last state.
    * `step_run` — the loop comes to its own end.
-/

namespace GeometricAlgebra.Loop

variable {State : Type} {step : State → Option State}

/-- Take steps until there is none to take, at most `rounds` of them. -/
def run (step : State → Option State) : Nat → State → State
  | 0, state => state
  | rounds + 1, state =>
      match step state with
      | some next => run step rounds next
      | none => state

/-- **The rule for invariants.** -/
theorem run_induction {P : State → Prop} (hstep : ∀ s t, P s → step s = some t → P t)
    (rounds : Nat) {state : State} (h : P state) : P (run step rounds state) := by
  induction rounds generalizing state with
  | zero => exact h
  | succ rounds ih =>
    unfold run
    split
    next next hnext => exact ih (hstep state next h hnext)
    next => exact h

/-- **The rule for termination.** -/
theorem step_run (measure : State → Nat) (hless : ∀ s t, step s = some t → measure t < measure s)
    {rounds : Nat} {state : State} (h : measure state ≤ rounds) :
    step (run step rounds state) = none := by
  induction rounds generalizing state with
  | zero =>
    -- no state is below one of measure 0
    cases hnext : step state with
    | none => exact hnext
    | some next =>
      have := hless state next hnext
      omega
  | succ rounds ih =>
    unfold run
    split
    next next hnext =>
      have := hless state next hnext
      exact ih (by omega)
    next hnone => exact hnone

end GeometricAlgebra.Loop
