import TwoLevel.Proofs.Espresso.Rounds
import Mathlib.Order.Monotone.Basic

/-!
# A run is the beginning of an unending sequence

Left to themselves the three phases would go round for ever: `stage` is the working cover after so
many of them, and `phaseAt` says which one is next.  When a run ends is a matter of its costs and of
its cap; what it leaves behind until then is always the beginning of that one sequence
(`exists_rounds_eq`).  So whatever is to be shown of all snapshots is shown of the stages:

* one lemma for what every phase preserves (`stage_induction`), and with it that each stage is a
  working cover (`isWorking_stage`) in which no cube is there twice (`nodup_stage`);
* no phase adds a cube (`length_stage_succ_le`), and reducing takes none away
  (`length_stage_succ_of_reduced`).

A cap ends the run earlier and does nothing else (`rounds_some`).  Without one the run ends all the
same, and each round but the last costs a cube (`roundCount_rounds_le`).
-/

set_option autoImplicit false

namespace TwoLevel.Espresso

variable {n : Nat}

/-! ## Stages -/

/-- The phase that follows after so many phases. -/
def phaseAt : Nat → Phase
  | 0 => .expanded
  | 1 => .irredundant
  | 2 => .reduced
  | i + 3 => phaseAt i

/-- The working cover after so many phases, if nothing ends the run. -/
def stage (d off : Cover n) : Nat → List (Marked n) → List (Marked n)
  | 0, f => f
  | 1, f => expand f off
  | 2, f => irredundant (expand f off) d
  | i + 3, f => stage d off i (reduce (irredundant (expand f off) d) d)

/-- The snapshots of the first phases. -/
def firstSnapshots (d off : Cover n) (f : List (Marked n)) (k : Nat) : List (Snapshot n) :=
  (List.range k).map fun i ↦ ⟨phaseAt i, cubes (stage d off (i + 1) f)⟩

theorem firstSnapshots_add_three (d off : Cover n) (f : List (Marked n)) (k : Nat) :
    firstSnapshots d off f (k + 3) =
      ⟨.expanded, cubes (expand f off)⟩ ::
      ⟨.irredundant, cubes (irredundant (expand f off) d)⟩ ::
      ⟨.reduced, cubes (reduce (irredundant (expand f off) d) d)⟩ ::
      firstSnapshots d off (reduce (irredundant (expand f off) d) d) k := by
  rw [firstSnapshots, List.range_succ_eq_map, List.range_succ_eq_map, List.range_succ_eq_map]
  simp only [List.map_cons, List.map_map, firstSnapshots]
  rfl

/-- **What the rounds leave is the beginning of the sequence of stages.** -/
theorem exists_rounds_eq (d off : Cover n) (cap : Option Nat) (f : List (Marked n)) :
    ∃ k, rounds d off cap f = firstSnapshots d off f k := by
  have h := trail_rounds d off cap f
  generalize rounds d off cap f = left at h
  induction h with
  | stop f => exact ⟨0, rfl⟩
  | expanded => exact ⟨1, rfl⟩
  | irredundant hcap hexp =>
    subst hexp
    exact ⟨2, rfl⟩
  | reduced hcap hexp hirr =>
    subst hexp hirr
    exact ⟨3, rfl⟩
  | round hcap hexp hirr hred he hk hr tail ih =>
    subst hexp hirr hred
    obtain ⟨k, rfl⟩ := ih
    exact ⟨k + 3, (firstSnapshots_add_three d off _ k).symm⟩

/-- **What every phase preserves holds of all stages.** -/
theorem stage_induction {d off : Cover n} {q : List (Marked n) → Prop}
    (hexpand : ∀ f, q f → q (expand f off)) (hirredundant : ∀ f, q f → q (irredundant f d))
    (hreduce : ∀ f, q f → q (reduce f d)) {f : List (Marked n)} (hf : q f) (i : Nat) :
    q (stage d off i f) := by
  fun_induction stage d off i f with
  | case1 f => exact hf
  | case2 f => exact hexpand f hf
  | case3 f => exact hirredundant _ (hexpand f hf)
  | case4 i f ih => exact ih (hreduce _ (hirredundant _ (hexpand f hf)))

theorem nodup_stage {f : List (Marked n)} (hf : (cubes f).Nodup) (d off : Cover n) (i : Nat) :
    (cubes (stage d off i f)).Nodup := by
  refine stage_induction (q := fun g ↦ (cubes g).Nodup) (fun g hg ↦ ?_) (fun g hg ↦ ?_)
    (fun g _ ↦ ?_) hf i
  · exact nodup_expand (hg.sublist (sublist_cubes List.filter_sublist)) off
  · exact hg.sublist (sublist_cubes (sublist_irredundant g d))
  · exact (isIrredundant_reduce g d).nodup

variable {p : Partition n}

theorem isWorking_stage (hp : p.IsValid) {f : List (Marked n)} (hf : IsWorking p f) (i : Nat) :
    IsWorking p (stage p.dontCareCover p.offCover i f) :=
  stage_induction (fun _ hg ↦ hg.expand) (fun _ hg ↦ hg.irredundant hp)
    (fun _ hg ↦ hg.reduce hp) hf i

/-! ## The number of cubes -/

/-- Where there is an explicit point a working cover has a cube. -/
theorem IsWorking.length_pos {f : List (Marked n)} (hf : IsWorking p f) (hon : p.on ≠ []) :
    0 < f.length := by
  obtain ⟨x, hx⟩ := List.exists_mem_of_ne_nil p.on hon
  obtain ⟨c, hc, _⟩ := Cover.covers_iff.1 (hf.covers_on x hx)
  obtain ⟨m, hm, _⟩ := mem_cubes.1 hc
  exact List.length_pos_of_mem hm

/-- Expanding a working cover adds no cube. -/
theorem length_expand_le_of_isWorking {f : List (Marked n)} (hf : IsWorking p f) (hon : p.on ≠ []) :
    (expand f p.offCover).length ≤ f.length := by
  have hle := length_expand_le f p.offCover
  have hpos := hf.length_pos hon
  omega

/-- **No phase adds a cube.** -/
theorem length_stage_succ_le (hp : p.IsValid) (hon : p.on ≠ []) {f : List (Marked n)}
    (hf : IsWorking p f) (i : Nat) :
    (stage p.dontCareCover p.offCover (i + 1) f).length ≤
      (stage p.dontCareCover p.offCover i f).length := by
  fun_induction stage p.dontCareCover p.offCover i f with
  | case1 f => exact length_expand_le_of_isWorking hf hon
  | case2 f => exact (sublist_irredundant _ _).length_le
  | case3 f => exact length_reduce_le _ _
  | case4 i f ih => exact ih ((hf.expand.irredundant hp).reduce hp)

/-- **Reducing takes no cube away**, for what is reduced is irredundant. -/
theorem length_stage_succ_of_reduced (d off : Cover n) {i : Nat} (h : phaseAt i = .reduced)
    (f : List (Marked n)) : (stage d off (i + 1) f).length = (stage d off i f).length := by
  fun_induction stage d off i f with
  | case1 f => cases h
  | case2 f => cases h
  | case3 f => exact length_reduce (isIrredundant_irredundant _ _)
  | case4 i f ih => exact ih h

/-- Reducing comes after dropping cubes. -/
theorem exists_phaseAt_of_reduced {i : Nat} (h : phaseAt i = .reduced) :
    ∃ j, i = j + 1 ∧ phaseAt j = .irredundant := by
  fun_induction phaseAt i with
  | case1 => cases h
  | case2 => cases h
  | case3 => exact ⟨1, rfl, rfl⟩
  | case4 i ih =>
    obtain ⟨j, rfl, hj⟩ := ih h
    exact ⟨j + 3, rfl, hj⟩

/-! ## The best cover -/

theorem better_noMoreThan (b : Cover n) (s : Snapshot n) :
    (Cost.ofCover (better b s)).noMoreThan (Cost.ofCover b) = true := by
  rw [better]
  split
  · next h => exact h.2
  · exact Cost.noMoreThan_refl _

theorem better_noMoreThan_cover (b : Cover n) {s : Snapshot n} (hs : s.phase ≠ .reduced) :
    (Cost.ofCover (better b s)).noMoreThan (Cost.ofCover s.cover) = true := by
  rw [better]
  split
  · exact Cost.noMoreThan_refl _
  · next h =>
    refine Cost.noMoreThan_total ?_
    rw [← Bool.not_eq_true]
    exact fun hle ↦ h ⟨hs, hle⟩

theorem best_append (b : Cover n) (left right : List (Snapshot n)) :
    best b (left ++ right) = best (best b left) right :=
  List.foldl_append

/-- **Going on never makes the best cover dearer.** -/
theorem best_noMoreThan (b : Cover n) (ss : List (Snapshot n)) :
    (Cost.ofCover (best b ss)).noMoreThan (Cost.ofCover b) = true := by
  induction ss generalizing b with
  | nil => exact Cost.noMoreThan_refl _
  | cons s ss ih => exact Cost.noMoreThan_trans (ih (better b s)) (better_noMoreThan b s)

/-- **The best cover is no dearer than any that is not reduced.** -/
theorem best_noMoreThan_of_mem (b : Cover n) {ss : List (Snapshot n)} {s : Snapshot n}
    (hs : s ∈ ss) (hphase : s.phase ≠ .reduced) :
    (Cost.ofCover (best b ss)).noMoreThan (Cost.ofCover s.cover) = true := by
  obtain ⟨left, right, rfl⟩ := List.append_of_mem hs
  rw [best_append]
  exact Cost.noMoreThan_trans (best_noMoreThan _ right) (better_noMoreThan_cover _ hphase)

theorem mem_firstSnapshots_iff {d off : Cover n} {f : List (Marked n)} {k : Nat} {s : Snapshot n} :
    s ∈ firstSnapshots d off f k ↔ ∃ i < k, ⟨phaseAt i, cubes (stage d off (i + 1) f)⟩ = s := by
  simp only [firstSnapshots, List.mem_map, List.mem_range]

/-- The best cover has no more cubes than any snapshot, the reduced ones included. -/
theorem length_best_le (b d off : Cover n) (f : List (Marked n)) {i k : Nat} (hi : i < k) :
    (best b (firstSnapshots d off f k)).length ≤ (stage d off (i + 1) f).length := by
  have hle : ∀ j < k, phaseAt j ≠ .reduced →
      (best b (firstSnapshots d off f k)).length ≤ (stage d off (j + 1) f).length := by
    intro j hj hphase
    have hmem : ⟨phaseAt j, cubes (stage d off (j + 1) f)⟩ ∈ firstSnapshots d off f k :=
      mem_firstSnapshots_iff.2 ⟨j, hj, rfl⟩
    have hlen := Cost.length_le_of_noMoreThan (best_noMoreThan_of_mem b hmem hphase)
    rwa [length_cubes] at hlen
  by_cases hphase : phaseAt i = .reduced
  · obtain ⟨j, rfl, hj⟩ := exists_phaseAt_of_reduced hphase
    rw [length_stage_succ_of_reduced d off hphase]
    refine hle j (by omega) ?_
    rw [hj]
    decide
  · exact hle i hi hphase

/-! ## Rounds -/

/-- **A cap cuts the run off after so many rounds** and changes nothing else. -/
theorem rounds_some (d off : Cover n) (k : Nat) (f : List (Marked n)) :
    rounds d off (some k) f = (rounds d off none f).take (3 * k) := by
  induction k generalizing f with
  | zero => rw [rounds, if_pos rfl, Nat.mul_zero, List.take_zero]
  | succ k ih =>
    have hk : 3 * (k + 1) = 3 * k + 1 + 1 + 1 := by omega
    have htake (c : Prop) [Decidable c] (l : List (Snapshot n)) (m : Nat) :
        (if c then [] else l).take m = if c then [] else l.take m := by
      rw [apply_ite (List.take m), List.take_nil]
    rw [rounds, if_neg (by simp), rounds, if_neg (by simp), hk]
    simp only [dite_eq_ite, htake, List.take_succ_cons, Option.map_some, Option.map_none,
      Nat.add_sub_cancel, ih]

/-- The number of rounds begun, each of which begins with the same phase. -/
def roundCount (ss : List (Snapshot n)) : Nat := ss.countP fun s ↦ decide (s.phase = .expanded)

theorem roundCount_cons_round (e k r : Cover n) (ss : List (Snapshot n)) :
    roundCount (⟨.expanded, e⟩ :: ⟨.irredundant, k⟩ :: ⟨.reduced, r⟩ :: ss) =
      roundCount ss + 1 := by
  simp [roundCount]

/-- No round has more than three snapshots. -/
theorem le_three_mul_roundCount (d off : Cover n) (f : List (Marked n)) (k : Nat) :
    k ≤ 3 * roundCount (firstSnapshots d off f k) := by
  induction k using phaseAt.induct generalizing f with
  | case1 => exact Nat.zero_le _
  | case2 =>
    show 1 ≤ 3 * 1
    decide
  | case3 =>
    show 2 ≤ 3 * 1
    decide
  | case4 k ih =>
    have hle := ih (reduce (irredundant (expand f off) d) d)
    rw [firstSnapshots_add_three, roundCount_cons_round]
    omega

/-- **There are no more rounds than cubes to begin with**, for all but the last lose one. -/
theorem roundCount_rounds_le (hp : p.IsValid) (hon : p.on ≠ []) {f : List (Marked n)}
    (hf : IsWorking p f) (cap : Option Nat) :
    roundCount (rounds p.dontCareCover p.offCover cap f) ≤ f.length := by
  have hpos := hf.length_pos hon
  have h := trail_rounds p.dontCareCover p.offCover cap f
  generalize rounds p.dontCareCover p.offCover cap f = ss at h
  induction h with
  | stop f => exact Nat.zero_le _
  | expanded => exact hpos
  | irredundant => exact hpos
  | reduced => exact hpos
  | round hcap hexp hirr hred he hk hr tail ih =>
    subst hexp hirr hred
    have hrest := (hf.expand.irredundant hp).reduce hp
    have hle := ih hrest (hrest.length_pos hon)
    rw [roundCount_cons_round]
    exact Nat.lt_of_le_of_lt hle (length_fullRound_lt hk hr)

/-! ## A whole run -/

/-- The beginning of the stages of a partition, and the best cover among them. -/
def Run.ofStages (p : Partition n) (k : Nat) : Run n where
  snapshots := firstSnapshots p.dontCareCover p.offCover (ofPoints p.on) k
  cover := best (cubes (ofPoints p.on))
    (firstSnapshots p.dontCareCover p.offCover (ofPoints p.on) k)

/-- **A run is so many stages**, none where there is no explicit point. -/
theorem exists_ofPartition_eq (cap : Option Nat) (p : Partition n) :
    ∃ k, Run.ofPartition cap p = Run.ofStages p k ∧ (p.on = [] → k = 0) := by
  rw [Run.ofPartition]
  split
  · next hon =>
    rw [List.isEmpty_iff] at hon
    refine ⟨0, ?_, fun _ ↦ rfl⟩
    rw [Run.ofStages, hon]
    rfl
  · next hon =>
    obtain ⟨k, hk⟩ := exists_rounds_eq p.dontCareCover p.offCover cap (ofPoints p.on)
    refine ⟨k, ?_, fun hnil ↦ absurd (List.isEmpty_iff.2 hnil) hon⟩
    rw [Run.ofStages, ← hk]
    rfl

theorem nodup_cubes_ofPoints (hp : p.IsValid) : (cubes (ofPoints p.on)).Nodup := by
  rw [cubes_ofPoints]
  exact nodup_map_minterm hp.nodup_on

/-- No cube is twice in a snapshot. -/
theorem nodup_of_mem_snapshots (hp : p.IsValid) {k : Nat} {s : Snapshot n}
    (hs : s ∈ (Run.ofStages p k).snapshots) : s.cover.Nodup := by
  obtain ⟨i, _, rfl⟩ := mem_firstSnapshots_iff.1 hs
  exact nodup_stage (nodup_cubes_ofPoints hp) _ _ _

/-- No cube is twice in the answer. -/
theorem nodup_ofPartition (hp : p.IsValid) (cap : Option Nat) :
    (Run.ofPartition cap p).cover.Nodup := by
  obtain ⟨k, hk, _⟩ := exists_ofPartition_eq cap p
  rw [hk]
  exact best_of_forall (nodup_cubes_ofPoints hp) fun _ hs ↦ nodup_of_mem_snapshots hp hs

end TwoLevel.Espresso
