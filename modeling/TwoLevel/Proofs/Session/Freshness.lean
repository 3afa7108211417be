import TwoLevel.Proofs.Espresso
import TwoLevel.Proofs.QuineMcCluskey
import TwoLevel.Proofs.Session.Run

/-!
# A session never shows a stale result

A result is kept beside the formula and shown while the formula is marked.  That is right if the
mark means what it says: where there is one, the result is what the selected engine, run afresh with
the cap it has, would answer for the formula as it stands.  This is the invariant
(`Session.IsFresh`), and it holds of whatever an operation may leave (`Leaves.isFresh`):

* where formula, result, engine and cap are as they were, nothing has to be shown;
* without a mark nothing is promised (`Subject.isFresh_of_unmarked`);
* a run of the engine leaves its answer (`isFresh_run`);
* to rename the variables of formula and result alike commutes with minimizing
  (`Subject.IsFresh.setVars`).

Putting in another engine is the exception.  It does none of this, and a run may do it only before
there is a formula.
-/

set_option autoImplicit false

namespace TwoLevel

variable {n : Nat}

/-! ## The answer of a fresh engine -/

namespace Algorithm

variable (a : Algorithm) (cap : Option Nat) (f : Formula n) (debug : Bool)

/-- The cover that an engine finds.  Names and marks have no part in it. -/
def cover : Cover n :=
  match a with
  | .quineMcCluskey =>
    (QuineMcCluskey.Trace.ofPoints f.form f.store.expandedTerms f.store.expandedDontCares).cover
  | .espresso => (Espresso.Run.ofPartition cap f.partition).cover

/-- **The answer is the formula over the cover that is found**, traced or not. -/
theorem answer_eq_minimizedTo : a.answer cap f debug = f.minimizedTo (a.cover cap f) := by
  cases a with
  | quineMcCluskey => exact QuineMcCluskey.minimized_minimize f debug
  | espresso => rfl

/-- A trace changes nothing about the answer. -/
theorem answer_debug : a.answer cap f debug = a.answer cap f false := by
  rw [answer_eq_minimizedTo, answer_eq_minimizedTo]

/-- The mark of a formula changes nothing about the answer. -/
theorem answer_mark : a.answer cap f.mark debug = a.answer cap f debug := by
  rw [answer_eq_minimizedTo, answer_eq_minimizedTo]
  rfl

/-- Minimizing commutes with renaming the variables. -/
theorem answer_vars (vars : List Char) :
    a.answer cap { f with vars } debug = { a.answer cap f debug with vars } := by
  rw [answer_eq_minimizedTo, answer_eq_minimizedTo]
  rfl

variable {f}

/-- What an engine finds is a cover of the formula. -/
theorem isCover_cover (h : f.Reachable) : f.IsCover (a.cover cap f) := by
  cases a with
  | quineMcCluskey => exact QuineMcCluskey.isCover_of_taken QuineMcCluskey.taken_cover_ofPoints
  | espresso => exact h.isCover_of_partition (Espresso.isCover_ofPartition h.isValid_partition cap)

theorem isCover_answer (h : f.Reachable) : f.IsCover (a.answer cap f debug).terms := by
  rw [answer_eq_minimizedTo]
  exact (a.isCover_cover cap h).firsts

end Algorithm

/-! ## The invariant -/

/-- The formula is reachable, and if it is marked the result is what an engine answers for it. -/
structure Subject.IsFresh (w : Subject) (a : Algorithm) (cap : Option Nat) : Prop where
  /-- The formula is reachable. -/
  reachable : w.formula.Reachable
  /-- A marked formula has its answer beside it. -/
  result : w.formula.minimized = true → w.result = some (a.answer cap w.formula false)

namespace Subject

variable {w : Subject} {a : Algorithm} {cap : Option Nat}

/-- Without a mark nothing is promised of the result. -/
theorem isFresh_of_unmarked (h : w.formula.Reachable) (hmark : w.formula.minimized = false) :
    w.IsFresh a cap where
  reachable := h
  result hmark' := absurd (hmark.symm.trans hmark') Bool.false_ne_true

theorem IsFresh.setVars (h : w.IsFresh a cap) {vars : List Char} {formula : Formula w.size}
    (hset : w.formula.setVars vars = .ok formula) :
    IsFresh { w with formula, result := w.result.map fun r ↦ { r with vars } } a cap where
  reachable := h.reachable.setVars hset
  result hmark := by
    obtain rfl := Formula.eq_of_setVars hset
    show w.result.map _ = _
    rw [h.result hmark]
    exact congrArg some (a.answer_vars cap w.formula false vars).symm

end Subject

namespace Session

/-- The session's formula, if there is one, has its answer beside it. -/
def IsFresh (s : Session) : Prop := ∀ w, s.subject = some w → w.IsFresh s.algorithm s.cap

variable {s : Session} {w : Subject}

theorem isFresh_of_none (h : s.subject = none) : s.IsFresh :=
  fun _ hw ↦ nomatch h.symm.trans hw

theorem isFresh_of_some (h : s.subject = some w) (hw : w.IsFresh s.algorithm s.cap) :
    s.IsFresh := by
  intro v hv
  obtain rfl := Option.some.inj (h.symm.trans hv)
  exact hw

/-- What is neither the formula, its result, the engine nor the cap does not matter. -/
theorem IsFresh.congr (h : s.IsFresh) {t : Session} (hsubject : t.subject = s.subject)
    (halgorithm : t.algorithm = s.algorithm) (hcap : t.cap = s.cap) : t.IsFresh := by
  rw [IsFresh, hsubject, halgorithm, hcap]
  exact h

/-- **After a run of the engine the result is fresh.** -/
theorem isFresh_run (h : w.formula.Reachable) (debug : Bool) : (s.run w debug).IsFresh := by
  refine isFresh_of_some (s.subject_run w debug) ⟨h.mark, fun _ ↦ ?_⟩
  show some _ = some _
  rw [algorithm_run, cap_run, s.algorithm.answer_mark, s.algorithm.answer_debug]

/-! ## What every operation preserves -/

theorem IsFresh.hasReachable (h : s.IsFresh) : s.HasReachable := fun w hs ↦ (h w hs).reachable

/-- **Whatever an operation leaves of a fresh session is fresh.** -/
theorem Leaves.isFresh {renames : Bool} {t : Session} (hleaves : s.Leaves renames t)
    (h : s.IsFresh) : t.IsFresh := by
  cases hleaves with
  | nothing hnone => exact isFresh_of_none hnone
  | same hsubject halgorithm hcap => exact h.congr hsubject halgorithm hcap
  | unmarked hw hmark hreachable =>
    exact isFresh_of_some hw (Subject.isFresh_of_unmarked (hreachable h.hasReachable) hmark)
  | renamed _ hs hset ht halgorithm hcap =>
    refine isFresh_of_some ht ?_
    rw [halgorithm, hcap]
    exact (h _ hs).setVars hset
  | ran u debug hreachable => exact isFresh_run (hreachable h.hasReachable) debug

/-- **Every command preserves freshness**, but for an engine put in beside a formula. -/
theorem IsFresh.perform (h : s.IsFresh) (c : Command)
    (hinstall : c.isInstall = true → s.subject = none) : (s.perform c).session.IsFresh := by
  cases c with
  | install => exact isFresh_of_none (hinstall rfl)
  | _ => exact (s.leaves_perform rfl).isFresh h

/-- **Every run leads to a fresh session.** -/
theorem isFresh_after {cs : List Command} (hcs : InstallsFirst cs) : (new.after cs).IsFresh :=
  after_induction (fun _ c _ hinstall h ↦ h.perform c hinstall) (isFresh_of_none rfl) hcs
    (Or.inl rfl)

/-! ## What is shown -/

/-- A result is shown if the formula is marked. -/
theorem IsFresh.minimized?_eq (h : s.IsFresh) (hs : s.subject = some w) :
    s.minimized? =
      if w.formula.minimized then some ⟨w.size, s.algorithm.answer s.cap w.formula false⟩
      else none := by
  rw [minimized?_of_some hs]
  split
  · next hmark =>
    rw [(h w hs).result hmark]
    rfl
  · rfl

theorem IsFresh.exists_of_minimized? (h : s.IsFresh) {m : AnyFormula} (hm : s.minimized? = some m) :
    ∃ f : Formula m.1, s.formula? = some ⟨m.1, f⟩ ∧
      (∀ debug, m.2 = s.algorithm.answer s.cap f debug) ∧ f.IsCover m.2.terms := by
  cases hs : s.subject with
  | none => exact nomatch (minimized?_of_none hs).symm.trans hm
  | some w =>
    rw [h.minimized?_eq hs] at hm
    obtain ⟨_, hm⟩ := Option.ite_none_right_eq_some.1 hm
    obtain rfl := Option.some.inj hm
    refine ⟨w.formula, ?_, fun debug ↦ ?_, ?_⟩
    · exact formula?_of_some hs
    · rw [s.algorithm.answer_debug s.cap w.formula debug]
    · exact s.algorithm.isCover_answer s.cap false (h w hs).reachable

theorem IsFresh.minimized?_eq_none_iff (h : s.IsFresh) :
    s.minimized? = none ↔
      s.formula? = none ∨ ∃ f, s.formula? = some f ∧ f.2.minimized = false := by
  cases hs : s.subject with
  | none =>
    refine iff_of_true (minimized?_of_none hs) (Or.inl ?_)
    rw [formula?, hs, Option.map_none]
  | some w =>
    rw [h.minimized?_eq hs, formula?_of_some hs]
    simp

/-- **A session never shows a stale result.**  After any run of commands that puts in engines only
before the first formula, what is shown as the result is what a fresh engine of the selected kind
and with the same cap answers for the formula there is, and so it is a cover of it; and nothing is
shown exactly where there is no formula or the formula is not marked. -/
theorem never_stale {cs : List Command} (hcs : InstallsFirst cs) :
    (∀ m, (new.after cs).minimized? = some m →
      ∃ f : Formula m.1, (new.after cs).formula? = some ⟨m.1, f⟩ ∧
        (∀ debug, m.2 = (new.after cs).algorithm.answer (new.after cs).cap f debug) ∧
        f.IsCover m.2.terms) ∧
    ((new.after cs).minimized? = none ↔
      (new.after cs).formula? = none ∨
        ∃ f, (new.after cs).formula? = some f ∧ f.2.minimized = false) := by
  have h := isFresh_after hcs
  exact ⟨fun _ hm ↦ h.exists_of_minimized? hm, h.minimized?_eq_none_iff⟩

/-- A formula is minimized by an engine that takes at most two rounds, and then renamed. -/
def renamedRun : List Command :=
  [.install (some 2) none, .setAlgorithm .espresso,
    .setFormula ⟨2, Espresso.lowZeros⟩ Espresso.reachable_lowZeros, .minimize true,
    .setVars ['x', 'y']]

theorem never_stale_renamed :
    InstallsFirst renamedRun ∧
    ∃ m, (new.after renamedRun).minimized? = some m ∧
      ∃ f : Formula m.1, (new.after renamedRun).formula? = some ⟨m.1, f⟩ ∧
        (∀ debug,
          m.2 = (new.after renamedRun).algorithm.answer (new.after renamedRun).cap f debug) ∧
        f.IsCover m.2.terms := by
  have hfirst : InstallsFirst renamedRun := by decide
  have hsome : (new.after renamedRun).minimized?.isSome = true := by decide
  obtain ⟨m, hm⟩ := Option.isSome_iff_exists.1 hsome
  exact ⟨hfirst, m, hm, (never_stale hfirst).1 m hm⟩

end Session

end TwoLevel
