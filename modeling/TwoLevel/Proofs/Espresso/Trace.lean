import TwoLevel.Proofs.Espresso
import TwoLevel.Proofs.Espresso.Stages

/-!
# What a trace shows

A traced run records a formula for every stage it went through, and the answer after them.
`Trace.IsSound` collects what can be read off such a record, whatever ended the run: the order of
the phases, that each step is a cover of the formula, that there are never more cubes than the step
before, and that nothing but a reduced step can be cheaper than the answer.

All of that is known of the stages.  What is left to see is that a formula made from a stage holds
the very cubes of the stage: it would leave out repetitions, but there are none (`terms_stepOf`).
-/

set_option autoImplicit false

namespace TwoLevel.Espresso

variable {n : Nat} {f : Formula n}

/-- What holds of the record of a run over a formula. -/
structure Trace.IsSound (t : Trace n) (f : Formula n) : Prop where
  /-- The three phases take turns, however often, and the answer comes last. -/
  phases : ∃ k, t.steps.map Step.phase = (List.range k).map phaseAt ++ [.minimized]
  /-- The formula of a step is in the phase of the step. -/
  phase_formula : ∀ s ∈ t.steps, s.formula.phase = s.phase
  /-- Every step is a cover. -/
  isCover : ∀ s ∈ t.steps, f.IsCover s.formula.terms
  /-- No step has more cubes than an earlier one. -/
  size_le : t.steps.Pairwise fun s s' ↦ s'.formula.size ≤ s.formula.size
  /-- The answer is no dearer than any step that is not reduced. -/
  cost_le : ∀ a ∈ t.steps, a.phase = .minimized → ∀ s ∈ t.steps, s.phase ≠ .reduced →
    (Cost.ofCover a.formula.terms).noMoreThan (Cost.ofCover s.formula.terms) = true
  /-- The answer is no dearer than the explicit points. -/
  cost_le_points : ∀ a ∈ t.steps, a.phase = .minimized →
    (Cost.ofCover a.formula.terms).noMoreThan
      (Cost.ofCover (f.store.expandedTerms.map Cube.minterm)) = true

/-! ## Steps made from stages -/

/-- The working cover of a formula after so many phases. -/
def stageOf (f : Formula n) (i : Nat) : List (Marked n) :=
  stage f.partition.dontCareCover f.partition.offCover i (ofPoints f.partition.on)

/-- The step that records a stage. -/
def stepOf (f : Formula n) (i : Nat) : Step n where
  phase := phaseAt i
  formula := { f.derive (cubes (stageOf f (i + 1))) with phase := phaseAt i }

/-- The step that records the answer after so many phases. -/
def answerOf (f : Formula n) (k : Nat) : Step n where
  phase := .minimized
  formula := f.minimizedTo (Run.ofStages f.partition k).cover

theorem steps_ofStages (f : Formula n) (k : Nat) :
    (Trace.ofRun f (Run.ofStages f.partition k)).steps =
      (List.range k).map (stepOf f) ++ [answerOf f k] := by
  rw [Trace.ofRun, Run.ofStages, firstSnapshots]
  simp only [List.map_map]
  rfl

theorem mem_steps_ofStages {k : Nat} {s : Step n} :
    s ∈ (Trace.ofRun f (Run.ofStages f.partition k)).steps ↔
      (∃ i < k, stepOf f i = s) ∨ s = answerOf f k := by
  rw [steps_ofStages, List.mem_append, List.mem_map, List.mem_singleton]
  simp only [List.mem_range]

theorem phaseAt_ne_minimized (i : Nat) : phaseAt i ≠ .minimized := by
  fun_induction phaseAt i with
  | case1 => decide
  | case2 => decide
  | case3 => decide
  | case4 i ih => exact ih

/-- The answer is the only step of its phase. -/
theorem eq_answerOf {k : Nat} {s : Step n}
    (hs : s ∈ (Trace.ofRun f (Run.ofStages f.partition k)).steps) (hphase : s.phase = .minimized) :
    s = answerOf f k := by
  rcases mem_steps_ofStages.1 hs with ⟨i, _, rfl⟩ | rfl
  · exact absurd hphase (phaseAt_ne_minimized i)
  · rfl

/-- The formula of a step has the cubes of the stage. -/
theorem terms_stepOf (h : f.Reachable) (i : Nat) :
    (stepOf f i).formula.terms = cubes (stageOf f (i + 1)) :=
  firsts_eq_self (nodup_stage (nodup_cubes_ofPoints h.isValid_partition) _ _ _)

theorem size_stepOf (h : f.Reachable) (i : Nat) :
    (stepOf f i).formula.size = (stageOf f (i + 1)).length := by
  rw [Formula.size, terms_stepOf h, length_cubes]

/-- The formula of the last step has the cubes of the answer. -/
theorem terms_answerOf (h : f.Reachable) (k : Nat) :
    (answerOf f k).formula.terms = (Run.ofStages f.partition k).cover :=
  firsts_eq_self (best_of_forall (nodup_cubes_ofPoints h.isValid_partition) fun _ hs ↦
    nodup_of_mem_snapshots h.isValid_partition hs)

/-! ## Each step is a cover -/

theorem isCover_stageOf (h : f.Reachable) (i : Nat) : f.partition.IsCover (cubes (stageOf f i)) :=
  (isWorking_stage h.isValid_partition (isWorking_ofPoints h.isValid_partition) i).isCover

theorem isCover_stepOf (h : f.Reachable) (i : Nat) : f.IsCover (stepOf f i).formula.terms := by
  rw [terms_stepOf h]
  exact h.isCover_of_partition (isCover_stageOf h (i + 1))

theorem isCover_answerOf (h : f.Reachable) (k : Nat) : f.IsCover (answerOf f k).formula.terms := by
  rw [terms_answerOf h]
  refine h.isCover_of_partition (best_of_forall (isCover_stageOf h 0) fun s hs ↦ ?_)
  obtain ⟨i, _, rfl⟩ := mem_firstSnapshots_iff.1 hs
  exact isCover_stageOf h (i + 1)

/-! ## The number of cubes -/

/-- The number of cubes goes down along the stages. -/
theorem antitone_length_stageOf (h : f.Reachable) (hon : f.partition.on ≠ []) :
    Antitone fun i ↦ (stageOf f i).length :=
  antitone_nat_of_succ_le fun i ↦
    length_stage_succ_le h.isValid_partition hon (isWorking_ofPoints h.isValid_partition) i

theorem size_stepOf_le (h : f.Reachable) (hon : f.partition.on ≠ []) {i j : Nat} (hij : i ≤ j) :
    (stepOf f j).formula.size ≤ (stepOf f i).formula.size := by
  rw [size_stepOf h, size_stepOf h]
  exact antitone_length_stageOf h hon (Nat.succ_le_succ hij)

theorem size_answerOf_le (h : f.Reachable) {i k : Nat} (hi : i < k) :
    (answerOf f k).formula.size ≤ (stepOf f i).formula.size := by
  rw [Formula.size, terms_answerOf h, size_stepOf h]
  exact length_best_le _ _ _ _ hi

theorem pairwise_size_le (h : f.Reachable) {k : Nat} (hk : f.partition.on = [] → k = 0) :
    (Trace.ofRun f (Run.ofStages f.partition k)).steps.Pairwise
      fun s s' ↦ s'.formula.size ≤ s.formula.size := by
  rw [steps_ofStages, List.pairwise_append, List.pairwise_map]
  refine ⟨List.Pairwise.imp_of_mem ?_ List.pairwise_lt_range, List.pairwise_singleton _ _, ?_⟩
  · intro i j _ hj hij
    have hon : f.partition.on ≠ [] := by
      intro hnil
      rw [hk hnil, List.range_zero] at hj
      exact absurd hj List.not_mem_nil
    exact size_stepOf_le h hon hij.le
  · rw [List.forall_mem_map]
    intro i hi a ha
    rw [List.mem_singleton.1 ha]
    exact size_answerOf_le h (List.mem_range.1 hi)

/-! ## The cost of the answer -/

theorem cost_answerOf_le_stepOf (h : f.Reachable) {i k : Nat} (hi : i < k)
    (hphase : phaseAt i ≠ .reduced) :
    (Cost.ofCover (answerOf f k).formula.terms).noMoreThan
      (Cost.ofCover (stepOf f i).formula.terms) = true := by
  rw [terms_answerOf h, terms_stepOf h]
  exact best_noMoreThan_of_mem _ (mem_firstSnapshots_iff.2 ⟨i, hi, rfl⟩) hphase

theorem cost_answerOf_le_points (h : f.Reachable) (k : Nat) :
    (Cost.ofCover (answerOf f k).formula.terms).noMoreThan
      (Cost.ofCover (f.store.expandedTerms.map Cube.minterm)) = true := by
  have hle := best_noMoreThan (cubes (ofPoints f.partition.on))
    (Run.ofStages f.partition k).snapshots
  rw [cubes_ofPoints] at hle
  rw [terms_answerOf h, Run.ofStages, cubes_ofPoints]
  exact hle

/-! ## The whole trace -/

theorem isSound_ofStages (h : f.Reachable) {k : Nat} (hk : f.partition.on = [] → k = 0) :
    (Trace.ofRun f (Run.ofStages f.partition k)).IsSound f where
  phases := by
    refine ⟨k, ?_⟩
    rw [steps_ofStages, List.map_append, List.map_map]
    rfl
  phase_formula s hs := by
    rcases mem_steps_ofStages.1 hs with ⟨i, _, rfl⟩ | rfl
    · rfl
    · rfl
  isCover s hs := by
    rcases mem_steps_ofStages.1 hs with ⟨i, _, rfl⟩ | rfl
    · exact isCover_stepOf h i
    · exact isCover_answerOf h k
  size_le := pairwise_size_le h hk
  cost_le a ha hphase s hs hs' := by
    obtain rfl := eq_answerOf ha hphase
    rcases mem_steps_ofStages.1 hs with ⟨i, hi, rfl⟩ | rfl
    · exact cost_answerOf_le_stepOf h hi hs'
    · exact Cost.noMoreThan_refl _
  cost_le_points a ha hphase := by
    obtain rfl := eq_answerOf ha hphase
    exact cost_answerOf_le_points h k

/-- **A traced run shows a sound trace**, whatever the cap: the phases in turn, covers of the
formula with fewer and fewer cubes, and an answer that none but the reduced ones is cheaper than. -/
theorem exists_trace_isSound (h : f.Reachable) (cap : Option Nat) :
    ∃ t, (minimize cap f true).trace = some t ∧ t.IsSound f := by
  obtain ⟨k, hk, hnil⟩ := exists_ofPartition_eq cap f.partition
  refine ⟨_, rfl, ?_⟩
  rw [hk]
  exact isSound_ofStages h hnil

theorem exists_trace_isSound_lowZeros :
    lowZeros.Reachable ∧
      ∃ t, (minimize (some 3) lowZeros true).trace = some t ∧ t.IsSound lowZeros :=
  ⟨reachable_lowZeros, exists_trace_isSound reachable_lowZeros (some 3)⟩

end TwoLevel.Espresso
