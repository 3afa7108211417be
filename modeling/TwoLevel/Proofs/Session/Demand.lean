import TwoLevel.Proofs.Session.Run

/-!
# Engines are run on demand

A request to minimize runs the selected engine if there is a formula without the mark, and also if a
trace is asked for and the engine keeps none (`Session.demands`).  Nothing else about the past of a
session matters, least of all a trace that the other engine still keeps.

The operation asks one thing more, whether there is a result to answer with.  For a marked formula
there always is (`Session.IsBacked`): whatever an operation leaves (`Session.Leaves`) has both, or
has no mark.  That holds for engines put in at any time too, since a mark or a result is not theirs.

`Session.MinimizesOnDemand` is what follows for whoever asks: when the engine is run, that asking
again does not run it again, which traces can be read, and that a request to set an output which
changes nothing leaves nothing behind to run for.
-/

set_option autoImplicit false

namespace TwoLevel

variable {n : Nat}

/-! ## Traces -/

theorem QuineMcCluskey.isSome_trace_minimize (f : Formula n) (debug : Bool) :
    (minimize f debug).trace.isSome = debug := by
  rw [minimize]
  simp only
  split
  · next h =>
    rw [Bool.and_eq_true, Bool.not_eq_true'] at h
    exact h.1.symm
  · cases debug <;> rfl

theorem Espresso.isSome_trace_minimize (cap : Option Nat) (f : Formula n) (debug : Bool) :
    (minimize cap f debug).trace.isSome = debug := by
  cases debug <;> rfl

namespace Session

variable {s : Session} {w : Subject} {debug : Bool}

/-- **After a run there is a trace if one was asked for.** -/
@[simp]
theorem traced_run (s : Session) (w : Subject) (debug : Bool) : (s.run w debug).traced = debug := by
  rw [traced, algorithm_run, run]
  cases s.algorithm with
  | quineMcCluskey =>
    simp only [Option.isSome_map]
    exact QuineMcCluskey.isSome_trace_minimize w.formula debug
  | espresso =>
    simp only [Option.isSome_map]
    exact Espresso.isSome_trace_minimize s.cap w.formula debug

@[simp]
theorem observers_run (s : Session) (w : Subject) (debug : Bool) :
    (s.run w debug).observers = s.observers := by
  rw [run]
  split <;> rfl

/-! ## A mark has a result behind it -/

/-- A marked formula has a result beside it. -/
def IsBacked (s : Session) : Prop :=
  ∀ w, s.subject = some w → w.formula.minimized = true → w.result.isSome = true

theorem isBacked_of_none (h : s.subject = none) : s.IsBacked :=
  fun _ hw ↦ nomatch h.symm.trans hw

theorem isBacked_of_some (h : s.subject = some w)
    (hw : w.formula.minimized = true → w.result.isSome = true) : s.IsBacked := by
  intro v hv
  obtain rfl := Option.some.inj (h.symm.trans hv)
  exact hw

theorem isBacked_of_unmarked (h : s.subject = some w) (hmark : w.formula.minimized = false) :
    s.IsBacked :=
  isBacked_of_some h fun hmark' ↦ absurd (hmark.symm.trans hmark') Bool.false_ne_true

theorem isBacked_run (s : Session) (w : Subject) (debug : Bool) : (s.run w debug).IsBacked :=
  isBacked_of_some (s.subject_run w debug) fun _ ↦ rfl

/-- **Whatever an operation leaves has a result behind a mark.** -/
theorem Leaves.isBacked {renames : Bool} {t : Session} (hleaves : s.Leaves renames t)
    (h : s.IsBacked) : t.IsBacked := by
  cases hleaves with
  | nothing hnone => exact isBacked_of_none hnone
  | same hsubject =>
    rw [IsBacked, hsubject]
    exact h
  | unmarked hw hmark => exact isBacked_of_unmarked hw hmark
  | renamed _ hs hset ht =>
    obtain rfl := Formula.eq_of_setVars hset
    refine isBacked_of_some ht fun hmark ↦ ?_
    rw [Option.isSome_map]
    exact h _ hs hmark
  | ran u debug => exact isBacked_run u _ debug

theorem IsBacked.minimize (h : s.IsBacked) (debug : Bool) : (s.minimize debug).session.IsBacked :=
  (s.leaves_minimize debug).isBacked h

/-- **Every command leaves a result behind a mark**, also one that puts in an engine. -/
theorem IsBacked.perform (h : s.IsBacked) (c : Command) : (s.perform c).session.IsBacked := by
  cases c with
  | install => exact h
  | _ => exact (s.leaves_perform rfl).isBacked h

/-- **So does every run**, whenever engines are put in. -/
theorem IsBacked.after (h : s.IsBacked) (cs : List Command) : (s.after cs).IsBacked :=
  after_invariant (fun _ c h ↦ h.perform c) h cs

/-! ## When an engine is run -/

/-- There is a formula, and it is not marked, or a trace is asked for and the selected engine keeps
none. -/
def demands (s : Session) (debug : Bool) : Bool :=
  match s.formula? with
  | none => false
  | some f => !f.2.minimized || debug && !s.traced

theorem demands_of_none (h : s.subject = none) : s.demands debug = false := by
  rw [demands, formula?, h]
  rfl

theorem demands_of_some (h : s.subject = some w) :
    s.demands debug = (!w.formula.minimized || debug && !s.traced) := by
  rw [demands, formula?, h]
  rfl

/-- The operation asks for nothing more. -/
theorem IsBacked.needsRun_eq (h : s.IsBacked) (hs : s.subject = some w) :
    s.needsRun w debug = s.demands debug := by
  rw [needsRun, demands_of_some hs]
  cases hmark : w.formula.minimized with
  | false => rfl
  | true =>
    rw [Option.isNone_eq_false_iff.2 (h w hs hmark)]
    rfl

theorem IsBacked.minimize_of_demands (h : s.IsBacked) (hd : s.demands debug = true) :
    ∃ w, s.subject = some w ∧ (s.minimize debug).session = s.run w debug := by
  cases hs : s.subject with
  | none => exact absurd ((demands_of_none hs).symm.trans hd) Bool.false_ne_true
  | some w =>
    refine ⟨w, rfl, ?_⟩
    rw [session_minimize debug hs, h.needsRun_eq hs, if_pos hd]

theorem IsBacked.minimize_of_not_demands (h : s.IsBacked) (hd : s.demands debug = false) :
    (s.minimize debug).session = s := by
  cases hs : s.subject with
  | none => rw [Session.minimize, hs]
  | some w => rw [session_minimize debug hs, h.needsRun_eq hs, hd, if_neg Bool.false_ne_true]

/-- The answer is what is shown afterwards. -/
theorem value_minimize (s : Session) (debug : Bool) :
    (s.minimize debug).value = (s.minimize debug).session.minimized? := by
  cases hs : s.subject with
  | none =>
    rw [Session.minimize, hs, minimized?_of_none hs]
  | some w =>
    rw [Session.minimize, hs]

/-- What the observers are told of a request: the stored result, whether there is a formula, whether
there is a trace of the last run, and whether the engine was run. -/
def Announces (s : Session) (debug ran : Bool) : Prop :=
  let t := (s.minimize debug).session
  (s.minimize debug).deliveries =
    s.tell (.minimized t.stored? ⟨s.formula?.isSome, s.formula?.isSome && t.traced, ran⟩)

theorem IsBacked.announces (h : s.IsBacked) {ran : Bool} (hd : s.demands debug = ran) :
    s.Announces debug ran := by
  rw [Announces, ← hd]
  cases hs : s.subject with
  | none =>
    rw [demands_of_none hs, Session.minimize, hs, stored?, formula?, hs]
    rfl
  | some w =>
    rw [← h.needsRun_eq hs, session_minimize debug hs, Session.minimize, hs, formula?, hs]
    simp only [Option.map_some, Option.isSome_some, Bool.true_and]
    split
    · rw [tell, tell, observers_run]
    · rfl

/-! ## Afterwards -/

/-- **Nothing is left to ask for after a request**, not with a weaker one. -/
theorem IsBacked.demands_minimize (h : s.IsBacked) {debug' : Bool}
    (hweaker : debug' = true → debug = true) :
    (s.minimize debug).session.demands debug' = false := by
  cases hd : s.demands debug with
  | true =>
    obtain ⟨w, _, hrun⟩ := h.minimize_of_demands hd
    rw [hrun, demands_of_some (s.subject_run w debug), traced_run]
    show (debug' && !debug) = false
    cases debug' with
    | false => rfl
    | true => rw [hweaker rfl]; rfl
  | false =>
    rw [h.minimize_of_not_demands hd]
    cases hs : s.subject with
    | none => exact demands_of_none hs
    | some w =>
      rw [demands_of_some hs, Bool.or_eq_false_iff] at hd ⊢
      refine ⟨hd.1, ?_⟩
      cases debug' with
      | false => rfl
      | true =>
        have htraced := hd.2
        rwa [hweaker rfl] at htraced

/-- The result of a marked formula is shown. -/
theorem IsBacked.isSome_minimized? (h : s.IsBacked) (hs : s.subject = some w)
    (hmark : w.formula.minimized = true) : s.minimized?.isSome = true := by
  rw [minimized?_of_some hs, if_pos hmark, Option.isSome_map]
  exact h w hs hmark

/-- Where nothing is left to ask for, not even a trace, the selected engine keeps one for the result
that is shown. -/
theorem IsBacked.traced_and_shown (h : s.IsBacked) (hs : s.subject = some w)
    (hd : s.demands true = false) : s.traced = true ∧ s.minimized?.isSome = true := by
  rw [demands_of_some hs, Bool.or_eq_false_iff, Bool.not_eq_false', Bool.true_and,
    Bool.not_eq_false'] at hd
  exact ⟨hd.2, h.isSome_minimized? hs hd.1⟩

/-- The trace of the selected engine can be read, and that of the other cannot. -/
def ShowsOwnTrace (s : Session) : Prop :=
  match s.algorithm with
  | .quineMcCluskey =>
    s.currentQuineMcCluskeyTrace?.isSome = true ∧ s.currentEspressoTrace? = none
  | .espresso =>
    s.currentEspressoTrace?.isSome = true ∧ s.currentQuineMcCluskeyTrace? = none

theorem showsOwnTrace (htraced : s.traced = true) (hshown : s.minimized?.isSome = true) :
    s.ShowsOwnTrace := by
  rw [ShowsOwnTrace, currentQuineMcCluskeyTrace?, currentEspressoTrace?]
  rw [traced] at htraced
  cases halgorithm : s.algorithm with
  | quineMcCluskey =>
    rw [halgorithm] at htraced
    simpa [hshown] using htraced
  | espresso =>
    rw [halgorithm] at htraced
    simpa [hshown] using htraced

theorem exists_subject_minimize (hs : s.subject = some w) (debug : Bool) :
    ∃ v, (s.minimize debug).session.subject = some v := by
  rw [session_minimize debug hs]
  split
  · exact ⟨_, s.subject_run w debug⟩
  · exact ⟨w, hs⟩

theorem IsBacked.showsOwnTrace_minimize (h : s.IsBacked) (hs : s.formula?.isSome = true) :
    (s.minimize true).session.ShowsOwnTrace := by
  rw [formula?, Option.isSome_map] at hs
  obtain ⟨w, hw⟩ := Option.isSome_iff_exists.1 hs
  obtain ⟨v, hv⟩ := exists_subject_minimize hw true
  obtain ⟨htraced, hshown⟩ := (h.minimize true).traced_and_shown hv (h.demands_minimize id)
  exact showsOwnTrace htraced hshown

/-- **A request to set an output that changes nothing leaves the session as it is.** -/
theorem setValue_of_unchanged {index : Nat} {output : Output}
    (h : (s.setValue index output).value = .ok false ∨
      ∃ e, (s.setValue index output).value = .error e) :
    (s.setValue index output).session = s := by
  rcases s.setValue_cases index output with ⟨_, heq⟩ | ⟨_, _, _, _, heq⟩ | ⟨_, _, _, _, heq⟩
  · rw [heq]
  · rw [heq]
    rfl
  · rw [heq] at h
    rcases h with h | ⟨e, h⟩
    · exact absurd (Except.ok.inj h) (by decide)
    · cases h

/-! ## What can be relied on -/

/-- An engine is run when a request needs it and not otherwise. -/
structure MinimizesOnDemand (s : Session) : Prop where
  /-- If the request needs it the selected engine is run, and the observers hear that it was. -/
  runs : ∀ debug, s.demands debug = true →
    (∃ w, s.subject = some w ∧ (s.minimize debug).session = s.run w debug) ∧
      s.Announces debug true
  /-- If not nothing changes, and the observers hear that it was not. -/
  rests : ∀ debug, s.demands debug = false →
    (s.minimize debug).session = s ∧ s.Announces debug false
  /-- The same request again, or a weaker one, changes nothing, gets the same answer, and the
  observers hear that the engine was not run. -/
  repeats : ∀ debug debug', (debug' = true → debug = true) →
    let t := (s.minimize debug).session
    (t.minimize debug').session = t ∧ t.Announces debug' false ∧
      (t.minimize debug').value = (s.minimize debug).value
  /-- A request for a trace leaves that of the selected engine to be read, and no other. -/
  traces : s.formula?.isSome = true → (s.minimize true).session.ShowsOwnTrace
  /-- A request to set an output that fails or is no change leaves the session as it is, so that it
  is no reason for a later run. -/
  unchanged : ∀ index output,
    ((s.setValue index output).value = .ok false ∨
      ∃ e, (s.setValue index output).value = .error e) →
        (s.setValue index output).session = s

/-- **A session minimizes exactly when it has to.**  After any run of commands, engines put in at
any time included, the selected engine is run for a request if and only if there is a formula that
is not marked, or one for which a trace is asked that the engine does not keep; asking again does
not run it again and has the same answer; a trace that was asked for can be read, and only from the
selected engine; and setting an output to what it is, or outside the space, is never a reason to
run. -/
theorem minimizesOnDemand_after (cs : List Command) : (new.after cs).MinimizesOnDemand := by
  have h : (new.after cs).IsBacked := (isBacked_of_none rfl).after cs
  constructor
  · exact fun _ hd ↦ ⟨h.minimize_of_demands hd, h.announces hd⟩
  · exact fun _ hd ↦ ⟨h.minimize_of_not_demands hd, h.announces hd⟩
  · intro debug debug' hweaker
    have hd := h.demands_minimize hweaker
    have hagain := (h.minimize debug).minimize_of_not_demands hd
    refine ⟨hagain, (h.minimize debug).announces hd, ?_⟩
    rw [value_minimize, hagain, value_minimize]
  · exact h.showsOwnTrace_minimize
  · exact fun _ _ ↦ setValue_of_unchanged

-- A trace that the first engine keeps does not answer for the second.
example :
    let s := new.after
      [.setFormula ⟨1, .ofStore (.empty .sumOfProducts) Formula.defaultName (Names.default 1)⟩
          (.new rfl),
        .minimize true, .setAlgorithm .espresso, .minimize false]
    s.quineMcCluskeyTrace.isSome = true ∧ s.demands false = false ∧ s.demands true = true := by
  decide

end Session

end TwoLevel
