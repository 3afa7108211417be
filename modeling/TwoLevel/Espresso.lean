import TwoLevel.Espresso.Rounds
import TwoLevel.Outcome

/-!
# The Espresso engine

The engine starts from the explicit points as a cover, works on it in rounds
(`TwoLevel.Espresso.Rounds`) against the don't cares and the off-set, and answers with the best
cover it met.  A formula without explicit points has an empty cover and nothing to work on.

A trace keeps the formula as it was before the run and, for every phase of every round, a formula
over the cover that the phase left.  The answer itself is its last step.
-/

set_option autoImplicit false

namespace TwoLevel.Espresso

variable {n : Nat}

/-- The covers of a run: what every phase left, and the answer. -/
structure Run (n : Nat) where
  /-- What every phase left. -/
  snapshots : List (Snapshot n)
  /-- The answer. -/
  cover : Cover n

/-- A run over a divided space. -/
def Run.ofPartition (cap : Option Nat) (p : Partition n) : Run n :=
  if p.on.isEmpty then ⟨[], []⟩
  else
    let initial := ofPoints p.on
    let snapshots :=
      rounds (p.dontCare.map Cube.minterm) (p.off.map Cube.minterm) cap initial
    ⟨snapshots, best (cubes initial) snapshots⟩

/-- One step of a trace. -/
structure Step (n : Nat) where
  /-- The phase that was done. -/
  phase : Phase
  /-- The formula over the cover it left. -/
  formula : Formula n

/-- The record of a run. -/
structure Trace (n : Nat) where
  /-- The formula before the run. -/
  given : Formula n
  /-- The steps, the last of which is the answer. -/
  steps : List (Step n)

/-- The record of a run over a formula. -/
def Trace.ofRun (f : Formula n) (run : Run n) : Trace n where
  given := f
  steps :=
    run.snapshots.map (fun s ↦ ⟨s.phase, { f.derive s.cover with phase := s.phase }⟩)
      ++ [⟨.minimized, f.minimizedTo run.cover⟩]

/-- Minimizes a formula in at most `cap` rounds, if there is a cap. -/
def minimize (cap : Option Nat) (f : Formula n) (debug : Bool) : Outcome n (Trace n) :=
  let run := Run.ofPartition cap f.partition
  ⟨f.mark, f.minimizedTo run.cover, if debug then some (Trace.ofRun f run) else none⟩

end TwoLevel.Espresso
