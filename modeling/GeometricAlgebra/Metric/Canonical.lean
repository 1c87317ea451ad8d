/-
  GeometricAlgebra.Metric.Canonical
  ────────────────────────────────
  **THE CANONICAL FORM OF A WORD OF AXES.**

  Different axes anticommute and an axis times itself is its square, so every
  word over the alphabet is a canonical blade up to its sign.  Two loops find
  it.  The first brings the word into order: for each axis of the alphabet in
  turn it looks for the first occurrence in what is left of the word, moves it
  to the front, and counts the axes that it passes.

      z − x −   ⟶   − | z x −     passes 1
                ⟶   − − | z x     passes 2
                ⟶   − − x | z     passes 1
                ⟶   − − x z |     passes 0

  The second loop goes through the runs of equal axes.  A run vanishes by pairs
  and leaves one axis if its length is odd; a pair counts as one more swap if
  the axis squares to −1.  The sign is the parity of the count, which is a number
  without a bound here; `Proofs.Reordering` tells when 64 bits hold it.  Axes that
  the alphabet does not have are never looked for, so they are left over.
-/
import GeometricAlgebra.Loop
import GeometricAlgebra.Metric

namespace GeometricAlgebra.Metric

/-! ## §1. Bringing a word into order. -/

/-- A word on its way into order. -/
structure Sorting where
  /-- The axes not moved so far, in the order of the word. -/
  remaining : Blade
  /-- The axes moved to the front so far. -/
  placed : Blade
  /-- The swaps so far. -/
  swaps : Nat
  deriving DecidableEq, Repr

/-- Move the first occurrence of an axis to the front, past the axes before it. -/
def Sorting.draw? (axis : Axis) (state : Sorting) : Option Sorting :=
  match state.remaining.idxOf? axis with
  | some index =>
      some ⟨state.remaining.eraseIdx index, state.placed ++ [axis], state.swaps + index⟩
  | none => none

/-- Move every occurrence of an axis, one at a time. -/
def Sorting.drawAll (axis : Axis) (state : Sorting) : Sorting :=
  Loop.run (draw? axis) state.remaining.length state

/-- Move the axes of the alphabet, in their order. -/
def sort (metric : Metric) (word : Blade) : Sorting :=
  (List.range metric.size).foldl (fun state axis => state.drawAll axis) ⟨word, [], 0⟩

/-! ## §2. Contracting runs. -/

/-- A word in order of which the runs up to a position are contracted. -/
structure Contraction where
  /-- The position at which the next run starts. -/
  start : Nat
  /-- What the runs so far leave. -/
  canonical : Blade
  /-- The swaps so far. -/
  swaps : Nat
  deriving DecidableEq, Repr

/-- Contract the run at the next position. -/
def contractRun? (metric : Metric) (placed : Blade) (state : Contraction) : Option Contraction :=
  match placed[state.start]? with
  | some axis =>
      let run := ((placed.drop state.start).takeWhile (· == axis)).length
      some {
        start := state.start + run
        canonical := if run % 2 = 1 then state.canonical ++ [axis] else state.canonical
        swaps := if (metric.square axis).isNegative then state.swaps + run / 2 else state.swaps }
  | none => none

/-- Contract every run of a word in order, which took a number of swaps to get there. -/
def contractRuns (metric : Metric) (placed : Blade) (swaps : Nat) : Contraction :=
  Loop.run (metric.contractRun? placed) placed.length ⟨0, [], swaps⟩

/-! ## §3. Whole words. -/

/-- What becomes of a word. -/
structure Reordered where
  /-- The canonical blade, with the sign of the swaps. -/
  blade : SignedBlade
  /-- The axes left over. -/
  unconsumed : Blade
  deriving DecidableEq, Repr

/-- Bring a word into order, and contract its runs. -/
def reorder (metric : Metric) (word : Blade) : Reordered :=
  let sorted := metric.sort word
  let contracted := metric.contractRuns sorted.placed sorted.swaps
  ⟨⟨contracted.canonical, Sign.ofParity contracted.swaps⟩, sorted.remaining⟩

/-- The canonical form of a word, which must keep to the alphabet. -/
def canonicalize (metric : Metric) (word : Blade) : Outcome SignedBlade :=
  let reordered := metric.reorder word
  if reordered.unconsumed = [] then .ok reordered.blade
  else .error (.malformedBlade (.foreignAxes reordered.unconsumed metric.size))

/-- The canonical form of a word that is known to keep to the alphabet. -/
def canonicalizeKnown (metric : Metric) (word : Blade) : SignedBlade :=
  (metric.reorder word).blade

end GeometricAlgebra.Metric
