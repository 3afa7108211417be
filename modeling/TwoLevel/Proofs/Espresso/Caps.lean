import TwoLevel.Proofs.Espresso
import TwoLevel.Proofs.Espresso.Stages

/-!
# What a cap on the rounds changes

Without a cap the run of the engine ends by itself, after at most as many rounds as the formula has
explicit points, for each round but the last leaves a cube less.  A cap keeps the first rounds and
cuts off the others.  So a cap of as many rounds as there are explicit points is none
(`minimize_some_of_le`), and as the answer is the best of what was met with, a larger cap never
makes it dearer (`cost_ofPartition_some`).
-/

set_option autoImplicit false

namespace TwoLevel

variable {n : Nat}

/-! ## Explicit points -/

/-- The number of explicit points of a formula. -/
def Formula.explicitCount (f : Formula n) : Nat :=
  (allPoints n).countP fun x ↦ decide (f.store.value x = f.form.explicit)

theorem Formula.length_partition_on (f : Formula n) : f.partition.on.length = f.explicitCount := by
  have heq : f.partition.on =
      (allPoints n).filter fun x ↦ decide (f.store.value x = f.form.explicit) := by
    refine eq_of_increasing f.store.expandedTerms_increasing ((allPoints_increasing n).filter _) ?_
    intro x
    rw [mem_partition_on, List.mem_filter, decide_eq_true_iff]
    exact (and_iff_right (mem_allPoints x)).symm
  rw [heq, explicitCount, List.countP_eq_length_filter]

namespace Espresso

variable {p : Partition n} {f : Formula n}

/-! ## Runs over a partition -/

/-- **A cap keeps the first rounds of a run.** -/
theorem snapshots_ofPartition_some (p : Partition n) (k : Nat) :
    (Run.ofPartition (some k) p).snapshots =
      (Run.ofPartition none p).snapshots.take (3 * k) := by
  rw [Run.ofPartition, Run.ofPartition]
  split
  · rw [List.take_nil]
  · exact rounds_some _ _ k _

/-- The answer is the best of the explicit points and the snapshots. -/
theorem cover_ofPartition (cap : Option Nat) (p : Partition n) :
    (Run.ofPartition cap p).cover =
      best (cubes (ofPoints p.on)) (Run.ofPartition cap p).snapshots := by
  obtain ⟨k, hk, _⟩ := exists_ofPartition_eq cap p
  rw [hk]
  rfl

/-- A run has no more rounds than there are explicit points. -/
theorem roundCount_ofPartition_le (hp : p.IsValid) (cap : Option Nat) :
    roundCount (Run.ofPartition cap p).snapshots ≤ p.on.length := by
  rw [Run.ofPartition]
  split
  · exact Nat.zero_le _
  · next hon =>
    rw [List.isEmpty_iff] at hon
    have hle := roundCount_rounds_le hp hon (isWorking_ofPoints hp) cap
    rwa [ofPoints, List.length_map] at hle

/-- No round has more than three snapshots. -/
theorem length_snapshots_le (cap : Option Nat) (p : Partition n) :
    (Run.ofPartition cap p).snapshots.length ≤
      3 * roundCount (Run.ofPartition cap p).snapshots := by
  obtain ⟨k, hk, _⟩ := exists_ofPartition_eq cap p
  rw [hk, Run.ofStages, firstSnapshots, List.length_map, List.length_range]
  exact le_three_mul_roundCount _ _ _ k

/-- A cap of as many rounds as there are explicit points is none. -/
theorem ofPartition_some_of_le (hp : p.IsValid) {k : Nat} (hk : p.on.length ≤ k) :
    Run.ofPartition (some k) p = Run.ofPartition none p := by
  have hlen := length_snapshots_le none p
  have hcount := roundCount_ofPartition_le hp none
  have hsnapshots :
      (Run.ofPartition (some k) p).snapshots = (Run.ofPartition none p).snapshots := by
    rw [snapshots_ofPartition_some, List.take_of_length_le]
    omega
  have hcover : (Run.ofPartition (some k) p).cover = (Run.ofPartition none p).cover := by
    rw [cover_ofPartition, cover_ofPartition, hsnapshots]
  exact congrArg₂ Run.mk hsnapshots hcover

/-- **A larger cap never makes the answer dearer.** -/
theorem cost_ofPartition_some (p : Partition n) {j k : Nat} (hjk : j ≤ k) :
    (Cost.ofCover (Run.ofPartition (some k) p).cover).noMoreThan
      (Cost.ofCover (Run.ofPartition (some j) p).cover) = true := by
  have hprefix : (Run.ofPartition (some j) p).snapshots <+:
      (Run.ofPartition (some k) p).snapshots := by
    rw [snapshots_ofPartition_some, snapshots_ofPartition_some]
    exact List.take_prefix_take_left (Nat.mul_le_mul_left 3 hjk)
  obtain ⟨rest, hrest⟩ := hprefix
  rw [cover_ofPartition, cover_ofPartition, ← hrest, best_append]
  exact best_noMoreThan _ rest

/-! ## Runs over a formula -/

/-- The answer is the cover that was found, for no cube is there twice. -/
theorem terms_minimize (h : f.Reachable) (cap : Option Nat) (debug : Bool) :
    (minimize cap f debug).minimized.terms = (Run.ofPartition cap f.partition).cover :=
  firsts_eq_self (nodup_ofPartition h.isValid_partition cap)

/-- **The rounds end without a cap, and a cap only cuts them off.**  There are no more rounds than
explicit points, so a cap of that many or more makes no difference; and a larger cap never makes the
answer dearer. -/
theorem cap_only_truncates (h : f.Reachable) (debug : Bool) :
    roundCount (Run.ofPartition none f.partition).snapshots ≤ f.explicitCount ∧
    (∀ k, f.explicitCount ≤ k → minimize (some k) f debug = minimize none f debug) ∧
    (∀ k, (Run.ofPartition (some k) f.partition).snapshots =
      (Run.ofPartition none f.partition).snapshots.take (3 * k)) ∧
    ∀ j k, j ≤ k →
      (Cost.ofCover (minimize (some k) f debug).minimized.terms).noMoreThan
        (Cost.ofCover (minimize (some j) f debug).minimized.terms) = true := by
  have hp := h.isValid_partition
  rw [← f.length_partition_on]
  refine ⟨roundCount_ofPartition_le hp none, fun k hk ↦ ?_, snapshots_ofPartition_some _,
    fun j k hjk ↦ ?_⟩
  · rw [minimize, minimize, ofPartition_some_of_le hp hk]
  · rw [terms_minimize h, terms_minimize h]
    exact cost_ofPartition_some _ hjk

/-- The function with two explicit points ends within two rounds. -/
theorem cap_only_truncates_lowZeros :
    lowZeros.Reachable ∧ lowZeros.explicitCount = 2 ∧
    roundCount (Run.ofPartition none lowZeros.partition).snapshots ≤ 2 ∧
    minimize (some 2) lowZeros false = minimize none lowZeros false := by
  have hcount : lowZeros.explicitCount = 2 := by decide
  obtain ⟨hrounds, hnone, _⟩ := cap_only_truncates reachable_lowZeros false
  rw [hcount] at hrounds hnone
  exact ⟨reachable_lowZeros, hcount, hrounds, hnone 2 (Nat.le_refl 2)⟩

end Espresso

end TwoLevel
