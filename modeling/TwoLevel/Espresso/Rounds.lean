import TwoLevel.Phase
import TwoLevel.Espresso.Growth
import TwoLevel.Espresso.Redundancy
import TwoLevel.Espresso.Shrinkage

/-!
# Rounds of improvement

A round is EXPAND, IRREDUNDANT and REDUCE, each working on what the one before left.  The rounds go
on until a phase leaves the cost as it was, which may be in the middle of a round, or until there
have been as many as allowed.  `rounds` lists what every phase left.

**Rounds end by themselves.**  A round that goes all the way has changed the cost in its second
phase, which only ever drops cubes; expanding adds none and reducing adds none.  So the cover that a
full round leaves has fewer cubes than the one it found (`length_fullRound_lt`).

The answer is the cheapest cover met with, the initial one and those left by the first two phases
considered, and the latest of equally cheap ones (`best`).  Reduced covers are stepping stones and
are never the answer.
-/

set_option autoImplicit false

namespace TwoLevel.Espresso

variable {n : Nat}

/-- The cover that a phase left. -/
structure Snapshot (n : Nat) where
  /-- The phase. -/
  phase : Phase
  /-- The cover. -/
  cover : Cover n

/-- A round that changes the cost in its last two phases leaves fewer cubes than it found. -/
theorem length_fullRound_lt {d off : Cover n} {f : List (Marked n)}
    (hi : cost (irredundant (expand f off) d) ≠ cost (expand f off))
    (hr : cost (reduce (irredundant (expand f off) d) d) ≠ cost (irredundant (expand f off) d)) :
    (reduce (irredundant (expand f off) d) d).length < f.length := by
  have he := length_expand_le f off
  have hi' := length_irredundant_lt hi
  have hr' := length_reduce_le (irredundant (expand f off) d) d
  rcases Nat.eq_zero_or_pos f.length with h0 | hpos
  · have hnil : irredundant (expand f off) d = [] := List.length_eq_zero_iff.1 (by omega)
    have hred : reduce (irredundant (expand f off) d) d = [] :=
      List.length_eq_zero_iff.1 (by omega)
    rw [hred, hnil] at hr
    exact absurd rfl hr
  · omega

/-- What the phases leave, round after round, at most `cap` rounds if there is a cap. -/
def rounds (d off : Cover n) (cap : Option Nat) (f : List (Marked n)) : List (Snapshot n) :=
  if cap = some 0 then []
  else
    let expanded := expand f off
    ⟨.expanded, cubes expanded⟩ ::
      if cost expanded = cost f then []
      else
        let kept := irredundant expanded d
        ⟨.irredundant, cubes kept⟩ ::
          if _hi : cost kept = cost expanded then []
          else
            let reduced := reduce kept d
            ⟨.reduced, cubes reduced⟩ ::
              if _hr : cost reduced = cost kept then []
              else rounds d off (cap.map (· - 1)) reduced
termination_by f.length
decreasing_by exact length_fullRound_lt _hi _hr

/-- The cheaper of the best cover so far and a snapshot, which wins a tie unless it is reduced. -/
def better (best : Cover n) (s : Snapshot n) : Cover n :=
  if s.phase ≠ .reduced ∧ (Cost.ofCover s.cover).noMoreThan (Cost.ofCover best) = true then s.cover
  else best

/-- The cheapest of the initial cover and the snapshots. -/
def best (initial : Cover n) (snapshots : List (Snapshot n)) : Cover n :=
  snapshots.foldl better initial

end TwoLevel.Espresso
