import TwoLevel.Proofs.Session.Demand
import TwoLevel.Proofs.Session.Freshness
import Mathlib.Data.List.Permutation

/-!
# Another engine beside a result

To put in an Espresso engine replaces the one there was and nothing else: a formula that is marked
stays marked, and its result stays beside it.  What follows depends on that mark.

* Without one the new engine answers every later request, until another takes its place
  (`isFresh_setCap`): the session is then fresh for the new cap, and stays so.
* With one the result of the old engine is the answer to the next request as well, and only a
  request for a trace, which the new engine does not have, or a change of the formula makes the new
  one run.

What a session shows is an engine's answer even so, for the formula as it stands
(`Session.IsAnswered`), but the cap may be one that has been replaced: `cap_without_effect` is a
session whose engine was stopped before its first round, and which goes on showing the points it
started from after the cap is lifted.
-/

set_option autoImplicit false

namespace TwoLevel.Session

variable {s : Session} {w : Subject}

/-! ## Answers of engines that may have been replaced -/

/-- The formula, if it is marked, has beside it what the selected engine answers, though perhaps
with another cap. -/
def IsAnswered (s : Session) : Prop :=
  ∀ w, s.subject = some w → ∃ cap, w.IsFresh s.algorithm cap

theorem isAnswered_of_some (h : s.subject = some w) (cap : Option Nat)
    (hw : w.IsFresh s.algorithm cap) : s.IsAnswered := by
  intro v hv
  obtain rfl := Option.some.inj (h.symm.trans hv)
  exact ⟨cap, hw⟩

theorem IsFresh.isAnswered (h : s.IsFresh) : s.IsAnswered := fun w hs ↦ ⟨s.cap, h w hs⟩

theorem IsAnswered.hasReachable (h : s.IsAnswered) : s.HasReachable := by
  intro w hs
  obtain ⟨_, hw⟩ := h w hs
  exact hw.reachable

/-- **Whatever an operation leaves of an answered session is answered.** -/
theorem Leaves.isAnswered {renames : Bool} {t : Session} (hleaves : s.Leaves renames t)
    (h : s.IsAnswered) : t.IsAnswered := by
  cases hleaves with
  | nothing hnone => exact (isFresh_of_none hnone).isAnswered
  | same hsubject halgorithm =>
    rw [IsAnswered, hsubject, halgorithm]
    exact h
  | unmarked hw hmark hreachable =>
    exact isAnswered_of_some hw none
      (Subject.isFresh_of_unmarked (hreachable h.hasReachable) hmark)
  | renamed _ hs hset ht halgorithm =>
    obtain ⟨cap, hw⟩ := h _ hs
    refine isAnswered_of_some ht cap ?_
    rw [halgorithm]
    exact hw.setVars hset
  | ran u debug hreachable => exact (isFresh_run (hreachable h.hasReachable) debug).isAnswered

/-- **Every command leaves an answered session**, also one that puts in an engine. -/
theorem IsAnswered.perform (h : s.IsAnswered) (c : Command) : (s.perform c).session.IsAnswered := by
  cases c with
  | install => exact h
  | _ => exact (s.leaves_perform rfl).isAnswered h

theorem isAnswered_after (cs : List Command) : (new.after cs).IsAnswered :=
  after_invariant (fun _ c h ↦ h.perform c) (isFresh_of_none rfl).isAnswered cs

/-! ## The answer to a request -/

/-- What a run finds is shown. -/
theorem minimized?_run (s : Session) (w : Subject) (debug : Bool) :
    (s.run w debug).minimized? = some ⟨w.size, s.algorithm.answer s.cap w.formula debug⟩ := by
  rw [minimized?_of_some (s.subject_run w debug)]
  rfl

theorem value_minimize_of_needsRun {debug : Bool} (hs : s.subject = some w)
    (hneeded : s.needsRun w debug = true) :
    (s.minimize debug).value = some ⟨w.size, s.algorithm.answer s.cap w.formula debug⟩ := by
  rw [value_minimize, session_minimize debug hs, if_pos hneeded, minimized?_run]

/-- A request for which nothing has to be run changes nothing. -/
theorem minimize_of_not_needsRun {debug : Bool} (hs : s.subject = some w)
    (hneeded : s.needsRun w debug = false) :
    (s.minimize debug).session = s ∧ (s.minimize debug).value = s.minimized? := by
  have hsession : (s.minimize debug).session = s := by
    rw [session_minimize debug hs, hneeded, if_neg Bool.false_ne_true]
  refine ⟨hsession, ?_⟩
  rw [value_minimize, hsession]

theorem minimized_of_not_needsRun {debug : Bool} (h : s.needsRun w debug = false) :
    w.formula.minimized = true := by
  rw [needsRun, Bool.or_eq_false_iff, Bool.or_eq_false_iff, Bool.not_eq_false'] at h
  exact h.1.1

/-- **A fresh session answers what the selected engine answers**, whether or not it has to run. -/
theorem IsFresh.value_minimize (h : s.IsFresh) (hs : s.subject = some w) (debug : Bool) :
    (s.minimize debug).value = some ⟨w.size, s.algorithm.answer s.cap w.formula debug⟩ := by
  cases hneeded : s.needsRun w debug with
  | true => exact value_minimize_of_needsRun hs hneeded
  | false =>
    rw [(minimize_of_not_needsRun hs hneeded).2, h.minimized?_eq hs,
      if_pos (minimized_of_not_needsRun hneeded), s.algorithm.answer_debug s.cap w.formula debug]

/-! ## A fresh engine with a cap -/

/-- Beside a formula without a mark the new engine is the one that counts. -/
theorem isFresh_setCap (h : s.HasReachable)
    (hunmarked : ∀ w, s.subject = some w → w.formula.minimized = false) (cap : Option Nat) :
    (s.setCap cap).session.IsFresh :=
  fun w hs ↦ Subject.isFresh_of_unmarked (h w hs) (hunmarked w hs)

/-- Fresh sessions stay fresh, and their cap stays, until another engine is put in. -/
theorem IsFresh.after (h : s.IsFresh) {cs : List Command} (hcs : ∀ c ∈ cs, c.isInstall = false) :
    (s.after cs).IsFresh ∧ (s.after cs).cap = s.cap := by
  refine after_induction (q := fun t ↦ t.IsFresh ∧ t.cap = s.cap) ?_ ⟨h, rfl⟩ (.of_forall hcs)
    (Or.inr hcs)
  rintro t c hc hinstall ⟨ht, hcap⟩
  exact ⟨ht.perform c hinstall, (t.leaves_perform (hcs c hc)).cap_eq.trans hcap⟩

/-- The engine that was put in keeps no trace, so that one has to be run for. -/
theorem needsRun_setCap (halgorithm : s.algorithm = .espresso) (cap : Option Nat) :
    (s.setCap cap).session.needsRun w true = true := by
  have hsame : (s.setCap cap).session.algorithm = .espresso := halgorithm
  have htraced : (s.setCap cap).session.traced = false := by
    rw [traced, hsame]
    rfl
  rw [needsRun, htraced]
  exact Bool.or_true _

/-- What a fresh Espresso engine with a cap does where it replaces the engine of a session. -/
structure TakesCap (s : Session) (cap : Option Nat) : Prop where
  /-- If the formula is not marked, every later request that finds Espresso selected is answered by
  an engine with the cap, whatever is done in between. -/
  takes : (∀ w, s.subject = some w → w.formula.minimized = false) →
    ∀ cs : List Command, (∀ c ∈ cs, c.isInstall = false) →
      let t := (s.setCap cap).session.after cs
      ∀ w, t.subject = some w → t.algorithm = .espresso → ∀ debug,
        (t.minimize debug).value = some ⟨w.size, (Espresso.minimize cap w.formula debug).minimized⟩
  /-- So is a request for a trace that follows at once. -/
  traces : s.algorithm = .espresso → ∀ w, s.subject = some w →
    ((s.setCap cap).session.minimize true).value =
      some ⟨w.size, (Espresso.minimize cap w.formula true).minimized⟩
  /-- If the formula is marked, a request without a trace changes nothing and gets the result that
  was there, which an engine with some cap found for the formula. -/
  keeps : s.algorithm = .espresso → ∀ w, s.subject = some w → w.formula.minimized = true →
    let t := (s.setCap cap).session
    (t.minimize false).session = t ∧ (t.minimize false).value = s.minimized? ∧
      ∃ old, s.minimized? = some ⟨w.size, (Espresso.minimize old w.formula false).minimized⟩

/-- **A new engine takes effect with the next run.**  After any run of commands, a fresh Espresso
engine that is put in answers all later requests if the formula is not marked, and a request for a
trace in any case; but a result that is there is kept, and answers requests without a trace. -/
theorem takesCap_after (cs : List Command) (cap : Option Nat) : (new.after cs).TakesCap cap := by
  have h : (new.after cs).IsAnswered := isAnswered_after cs
  constructor
  · intro hunmarked ds hds t w hw halgorithm debug
    obtain ⟨hfresh, hcap⟩ := (isFresh_setCap h.hasReachable hunmarked cap).after hds
    rw [hfresh.value_minimize hw, halgorithm, hcap]
    rfl
  · intro halgorithm w hs
    have hvalue := value_minimize_of_needsRun (s := ((new.after cs).setCap cap).session) hs
      (needsRun_setCap halgorithm cap)
    rw [hvalue]
    show some (⟨w.size, (new.after cs).algorithm.answer cap w.formula true⟩ : AnyFormula) = _
    rw [halgorithm]
    rfl
  · intro halgorithm w hs hmark t
    obtain ⟨old, hw⟩ := h w hs
    have hresult := hw.result hmark
    have hneeded : t.needsRun w false = false := by
      rw [needsRun, hmark, hresult]
      rfl
    obtain ⟨hsession, hvalue⟩ := minimize_of_not_needsRun (s := t) hs hneeded
    refine ⟨hsession, hvalue, old, ?_⟩
    rw [minimized?_of_some hs, if_pos hmark, hresult, halgorithm]
    rfl

/-! ## A cap without effect -/

/-- Both points of one variable, each stored by itself. -/
def bothPoints : Store 1 :=
  Store.ofCubes .sumOfProducts [Cube.minterm 0#1, Cube.minterm 1#1] []

/-- An engine that is stopped before its first round answers with the points. -/
theorem size_minimize_stopped (name : Char) (vars : List Char) :
    (Espresso.minimize (some 0) (Formula.ofStore bothPoints name vars) false).minimized.size =
      2 := by
  cbv

/-- One without a cap finds the cube that covers both. -/
theorem size_minimize_uncapped (name : Char) (vars : List Char) :
    (Espresso.minimize none (Formula.ofStore bothPoints name vars) false).minimized.size = 1 := by
  cbv

/-- The function that is always one, given point by point. -/
def alwaysOne : Formula 1 := .ofStore bothPoints Formula.defaultName (Names.default 1)

theorem reachable_alwaysOne : alwaysOne.Reachable := by
  have h : Formula.ofIndices 1 .sumOfProducts [0, 1] [] = .ok alwaysOne := rfl
  exact .ofIndices h

/-- A formula is minimized by an engine that is stopped before its first round. -/
def stoppedRun : List Command :=
  [.setAlgorithm .espresso, .install (some 0) none,
    .setFormula ⟨1, alwaysOne⟩ reachable_alwaysOne, .minimize false]

/-- **A cap that is lifted from a minimized formula has no effect** on the next request: the answer
is still the two points, while an engine without a cap answers with one cube. -/
theorem cap_without_effect :
    ∃ w, (new.after stoppedRun).subject = some w ∧ (new.after stoppedRun).algorithm = .espresso ∧
      (((new.after stoppedRun).setCap none).session.minimize false).value ≠
        some ⟨w.size, (Espresso.minimize none w.formula false).minimized⟩ := by
  have hkept : (((new.after stoppedRun).setCap none).session.minimize false).value =
      some ⟨1, (Espresso.minimize (some 0) alwaysOne false).minimized⟩ := rfl
  have hfresh : (Espresso.minimize none alwaysOne.mark false).minimized =
      (Espresso.minimize none alwaysOne false).minimized := rfl
  refine ⟨⟨1, alwaysOne.mark, _⟩, rfl, rfl, fun h ↦ ?_⟩
  rw [hkept, hfresh] at h
  have hsize := congrArg (fun f : AnyFormula ↦ f.2.size) (Option.some.inj h)
  have htwo := size_minimize_stopped Formula.defaultName (Names.default 1)
  have hone := size_minimize_uncapped Formula.defaultName (Names.default 1)
  exact absurd (htwo.symm.trans (hsize.trans hone)) (by decide)

end TwoLevel.Session
