import TwoLevel.Proofs.Espresso
import TwoLevel.Proofs.Formula.Equality
import TwoLevel.Proofs.Session.Run
import Mathlib.Data.List.Induction

/-!
# A trace and what it is a record of

A trace belongs to the engine that keeps it, and no operation on the session reaches into it.  While
it can be read it nevertheless fits the formula and the result beside it.  Of the things that an
operation may leave (`Session.Leaves`), a run has a new trace, which is a record of the formula as
it was given, and the others either leave formula and trace alone or leave a formula without a mark,
whose trace is not shown.

Renaming is the exception.  It gives other names to the variables of the formula and of the result,
and the trace goes on saying what the run saw.  So a trace that is shown has the cubes of the
formula and of the result, and it has their names too unless a rename has succeeded since it was
recorded (`trace_matches`).
-/

set_option autoImplicit false

namespace TwoLevel

variable {n : Nat}

/-! ## Traces of runs -/

/-- The trace is of this formula and this result, up to the names of the variables or with them. -/
structure Espresso.Trace.Matches (t : Espresso.Trace n) (f m : Formula n) (withVars : Bool) :
    Prop where
  /-- What was given is the formula. -/
  given : t.given.store = f.store ∧ t.given.equal f withVars = true
  /-- What was found is the result. -/
  found : ∃ a, t.steps.getLast? = some a ∧ a.formula.store = m.store ∧
    a.formula.equal m withVars = true

/-- A trace of a run over a formula matches the formula and the result of the run, whatever marks
and names are changed afterwards. -/
theorem Espresso.matches_ofRun (f : Formula n) (vars : List Char) (marked : Bool)
    (run : Espresso.Run n) {withVars : Bool} (hvars : withVars = true → vars = f.vars) :
    (Espresso.Trace.ofRun { f with vars, minimized := marked } run).Matches f
      (f.minimizedTo run.cover) withVars where
  given := ⟨rfl, Formula.equal_of_store_eq rfl hvars⟩
  found := ⟨_, List.getLast?_concat, rfl, Formula.equal_of_store_eq rfl hvars⟩

/-- The trace is of a run that found the result for the formula, when its variables had the given
names. -/
def Subject.IsRecordedBy (w : Subject) (t : (n : Nat) × Espresso.Trace n) (vars : List Char) :
    Prop :=
  ∃ marked run, t = ⟨w.size, .ofRun { w.formula with vars, minimized := marked } run⟩ ∧
    w.result = some (w.formula.minimizedTo run.cover)

/-- Other names for formula and result leave the trace a record of both. -/
theorem Subject.IsRecordedBy.setVars {w : Subject} {t : (n : Nat) × Espresso.Trace n}
    {vars : List Char} (h : w.IsRecordedBy t vars) {vars' : List Char} {formula : Formula w.size}
    (hset : w.formula.setVars vars' = .ok formula) :
    IsRecordedBy { w with formula, result := w.result.map fun r ↦ { r with vars := vars' } } t
      vars := by
  obtain rfl := Formula.eq_of_setVars hset
  obtain ⟨marked, run, ht, hresult⟩ := h
  refine ⟨marked, run, ht, ?_⟩
  show w.result.map _ = _
  rw [hresult]
  rfl

namespace Session

variable {s : Session} {w : Subject} {t : (n : Nat) × Espresso.Trace n}

/-! ## What is shown -/

/-- A trace is shown beside a marked formula with a result, while Espresso is selected. -/
theorem currentEspressoTrace?_eq_some_iff :
    s.currentEspressoTrace? = some t ↔
      ∃ w, s.subject = some w ∧ w.formula.minimized = true ∧ w.result.isSome = true ∧
        s.algorithm = .espresso ∧ s.espressoTrace = some t := by
  rw [currentEspressoTrace?, Option.ite_none_right_eq_some]
  cases hs : s.subject with
  | none => simp [minimized?_of_none hs]
  | some w =>
    rw [minimized?_of_some hs]
    cases hmark : w.formula.minimized <;> simp [hmark, and_left_comm, and_assoc]

/-- What is neither the formula, its result, the engine nor the trace does not matter. -/
theorem currentEspressoTrace?_congr {s' : Session} (hsubject : s'.subject = s.subject)
    (halgorithm : s'.algorithm = s.algorithm) (htrace : s'.espressoTrace = s.espressoTrace) :
    s'.currentEspressoTrace? = s.currentEspressoTrace? := by
  rw [currentEspressoTrace?, currentEspressoTrace?, minimized?, minimized?, formula?, formula?,
    stored?, stored?, hsubject, halgorithm, htrace]

/-- The trace is a record of how the formula got its result. -/
def HasRecord (s : Session) (t : (n : Nat) × Espresso.Trace n) : Prop :=
  ∃ w vars, s.subject = some w ∧ w.IsRecordedBy t vars

/-- So it is, and the variables have had their names since before. -/
def HasNamedRecord (s : Session) (t : (n : Nat) × Espresso.Trace n) : Prop :=
  ∃ w, s.subject = some w ∧ w.IsRecordedBy t w.formula.vars

theorem HasNamedRecord.hasRecord (h : s.HasNamedRecord t) : s.HasRecord t := by
  obtain ⟨w, hs, hw⟩ := h
  exact ⟨w, _, hs, hw⟩

/-! ## What an operation does to it -/

/-- **The trace of a run is a record of it.** -/
theorem hasNamedRecord_run {debug : Bool} (h : (s.run w debug).currentEspressoTrace? = some t) :
    (s.run w debug).HasNamedRecord t := by
  obtain ⟨_, _, _, _, halgorithm, htrace⟩ := currentEspressoTrace?_eq_some_iff.1 h
  rw [algorithm_run] at halgorithm
  rw [run, halgorithm] at htrace
  obtain ⟨trace, hminimize, rfl⟩ := Option.map_eq_some_iff.1 htrace
  have hrun : (if debug then some _ else none) = some trace := hminimize
  obtain ⟨_, hrun⟩ := Option.ite_none_right_eq_some.1 hrun
  obtain rfl := Option.some.inj hrun
  refine ⟨_, s.subject_run w debug, w.formula.minimized, _, rfl, ?_⟩
  rw [halgorithm]
  rfl

/-- **A trace that is shown was shown before, or is new**, where nothing is renamed. -/
theorem shown_of_perform {c : Command} (hsetVars : c.isSetVars = false)
    (hinstall : c.isInstall = true → s.subject = none)
    (h : (s.perform c).session.currentEspressoTrace? = some t) :
    (s.perform c).session.subject = s.subject ∧ s.currentEspressoTrace? = some t ∨
      (s.perform c).session.HasNamedRecord t := by
  obtain ⟨v, hv, hmark', _⟩ := currentEspressoTrace?_eq_some_iff.1 h
  cases hc : c.isInstall with
  | true =>
    cases c with
    | install => exact nomatch (hinstall rfl).symm.trans hv
    | _ => cases hc
  | false =>
    have hleaves := s.leaves_perform hc
    generalize (s.perform c).session = s' at h hv hleaves
    cases hleaves with
    | nothing hnone => exact nomatch hnone.symm.trans hv
    | same hsubject halgorithm _ htrace =>
      rw [currentEspressoTrace?_congr hsubject halgorithm htrace] at h
      exact Or.inl ⟨hsubject, h⟩
    | unmarked hw hmark =>
      obtain rfl := Option.some.inj (hw.symm.trans hv)
      exact absurd (hmark.symm.trans hmark') Bool.false_ne_true
    | renamed hrenames => exact absurd (hsetVars.symm.trans hrenames) Bool.false_ne_true
    | ran u debug => exact Or.inr (hasNamedRecord_run h)

/-- A rename that fails changes nothing, and one that succeeds leaves the trace as it is. -/
theorem shown_of_setVars {vars : List Char}
    (h : (s.setVars vars).session.currentEspressoTrace? = some t) :
    s.currentEspressoTrace? = some t ∧
      ((s.setVars vars).session = s ∨
        (s.setVars vars).value = .ok () ∧
          (s.HasRecord t → (s.setVars vars).session.HasRecord t)) := by
  rcases s.setVars_cases vars with ⟨_, heq⟩ | ⟨_, _, _, _, heq⟩ | ⟨w, formula, hs, hset, heq⟩
  · rw [heq] at h ⊢
    exact ⟨h, Or.inl rfl⟩
  · rw [heq] at h ⊢
    exact ⟨h, Or.inl rfl⟩
  · rw [heq] at h ⊢
    obtain ⟨v, hv, hmark, hresult, halgorithm, htrace⟩ := currentEspressoTrace?_eq_some_iff.1 h
    obtain rfl := Option.some.inj hv
    rw [Option.isSome_map] at hresult
    obtain rfl := Formula.eq_of_setVars hset
    refine ⟨currentEspressoTrace?_eq_some_iff.2 ⟨w, hs, hmark, hresult, halgorithm, htrace⟩,
      Or.inr ⟨rfl, ?_⟩⟩
    rintro ⟨u, names, hu, hrecord⟩
    obtain rfl := Option.some.inj (hs.symm.trans hu)
    exact ⟨_, names, rfl, hrecord.setVars hset⟩

/-! ## What a run leaves -/

/-- A rename has succeeded while the trace was shown. -/
def RenamedSince (cs : List Command) (t : (n : Nat) × Espresso.Trace n) : Prop :=
  ∃ as vars bs, cs = as ++ .setVars vars :: bs ∧ (new.after as).currentEspressoTrace? = some t ∧
    ((new.after as).setVars vars).value = .ok ()

theorem RenamedSince.concat {cs : List Command} (h : RenamedSince cs t) (c : Command) :
    RenamedSince (cs ++ [c]) t := by
  obtain ⟨as, vars, bs, rfl, hshown, hok⟩ := h
  exact ⟨as, vars, bs ++ [c], by rw [List.append_assoc, List.cons_append], hshown, hok⟩

/-- **A trace that is shown is a record of formula and result**, and has the names of the variables
unless they were renamed. -/
theorem hasRecord_after {cs : List Command} (hcs : InstallsFirst cs)
    (h : (new.after cs).currentEspressoTrace? = some t) :
    (new.after cs).HasRecord t ∧ ((new.after cs).HasNamedRecord t ∨ RenamedSince cs t) := by
  induction cs using List.reverseRecOn with
  | nil => cases h
  | append_singleton cs c ih =>
    obtain ⟨hbegin, hinstall⟩ := hcs.of_concat
    rw [after_concat] at h ⊢
    -- What is the record of a subject that stays is so after the command.
    have hstays : ((new.after cs).perform c).session.subject = (new.after cs).subject →
        (new.after cs).currentEspressoTrace? = some t →
        ((new.after cs).perform c).session.HasRecord t ∧
          (((new.after cs).perform c).session.HasNamedRecord t ∨ RenamedSince (cs ++ [c]) t) := by
      intro hsubject hbefore
      rw [HasRecord, HasNamedRecord, hsubject]
      obtain ⟨hrecord, hnames⟩ := ih hbegin hbefore
      exact ⟨hrecord, hnames.imp_right fun hrenamed ↦ hrenamed.concat c⟩
    cases hsetVars : c.isSetVars with
    | true =>
      cases c with
      | setVars vars =>
        obtain ⟨hbefore, hsame | ⟨hok, hrecord⟩⟩ := shown_of_setVars h
        · exact hstays (congrArg subject hsame) hbefore
        · exact ⟨hrecord (ih hbegin hbefore).1, Or.inr ⟨cs, vars, [], rfl, hbefore, hok⟩⟩
      | _ => cases hsetVars
    | false =>
      rcases shown_of_perform hsetVars hinstall h with ⟨hsubject, hbefore⟩ | hnamed
      · exact hstays hsubject hbefore
      · exact ⟨hnamed.hasRecord, Or.inl hnamed⟩

/-- The trace matches the formula and the result that the session shows. -/
def TraceMatches (s : Session) (t : (n : Nat) × Espresso.Trace n) (withVars : Bool) : Prop :=
  ∃ f m : Formula t.1, s.formula? = some ⟨t.1, f⟩ ∧ s.minimized? = some ⟨t.1, m⟩ ∧
    t.2.Matches f m withVars

theorem traceMatches_of_isRecordedBy (hs : s.subject = some w)
    (hmark : w.formula.minimized = true) {vars : List Char} (h : w.IsRecordedBy t vars)
    {withVars : Bool} (hvars : withVars = true → vars = w.formula.vars) :
    s.TraceMatches t withVars := by
  obtain ⟨marked, run, rfl, hresult⟩ := h
  refine ⟨w.formula, w.formula.minimizedTo run.cover, ?_, ?_,
    Espresso.matches_ofRun w.formula vars marked run hvars⟩
  · exact formula?_of_some hs
  · rw [minimized?_of_some hs, if_pos hmark, hresult]
    rfl

/-- **A trace belongs to what is shown beside it.**  After any run of commands that puts in engines
only before the first formula, a trace that can be read was given the formula there is and found the
result there is, cube by cube; and the names of the variables are the same as well, unless a rename
has succeeded since the trace could first be read. -/
theorem trace_matches {cs : List Command} (hcs : InstallsFirst cs)
    {t : (n : Nat) × Espresso.Trace n} (h : (new.after cs).currentEspressoTrace? = some t) :
    (new.after cs).TraceMatches t false ∧
      ((new.after cs).TraceMatches t true ∨ RenamedSince cs t) := by
  obtain ⟨w, hs, hmark, _⟩ := currentEspressoTrace?_eq_some_iff.1 h
  obtain ⟨⟨v, vars, hv, hrecord⟩, hnames⟩ := hasRecord_after hcs h
  obtain rfl := Option.some.inj (hs.symm.trans hv)
  refine ⟨traceMatches_of_isRecordedBy hs hmark hrecord nofun, hnames.imp_left ?_⟩
  rintro ⟨u, hu, hnamed⟩
  obtain rfl := Option.some.inj (hs.symm.trans hu)
  exact traceMatches_of_isRecordedBy hs hmark hnamed fun _ ↦ rfl

/-! ## A trace with old names -/

/-- A formula is minimized with a trace, and then renamed. -/
def tracedRun : List Command :=
  [.setAlgorithm .espresso, .setFormula ⟨2, Espresso.lowZeros⟩ Espresso.reachable_lowZeros,
    .minimize true, .setVars ['x', 'y']]

theorem trace_matches_renamed :
    InstallsFirst tracedRun ∧
    ∃ t, (new.after tracedRun).currentEspressoTrace? = some t ∧
      (new.after tracedRun).TraceMatches t false ∧
      ((new.after tracedRun).TraceMatches t true ∨ RenamedSince tracedRun t) := by
  have hfirst : InstallsFirst tracedRun := by decide
  have hsome : (new.after tracedRun).currentEspressoTrace?.isSome = true := by decide
  obtain ⟨t, ht⟩ := Option.isSome_iff_exists.1 hsome
  exact ⟨hfirst, t, ht, trace_matches hfirst ht⟩

/-- **After a rename the trace has the old names**, so that neither what it was given nor what it
found compares as equal to the formula and the result. -/
theorem trace_keeps_names :
    (∀ c ∈ tracedRun, c.isInstall = false) ∧
    ∃ (t : Espresso.Trace 2) (f m : Formula 2) (a : Espresso.Step 2),
      (new.after tracedRun).currentEspressoTrace? = some ⟨2, t⟩ ∧
      (new.after tracedRun).formula? = some ⟨2, f⟩ ∧
      (new.after tracedRun).minimized? = some ⟨2, m⟩ ∧ t.steps.getLast? = some a ∧
      t.given.equal f true = false ∧ a.formula.equal m true = false := by
  let f := Espresso.lowZeros
  let run := Espresso.Run.ofPartition none f.partition
  refine ⟨by decide, .ofRun f run, { f.mark with vars := ['x', 'y'] },
    { f.minimizedTo run.cover with vars := ['x', 'y'] }, ⟨.minimized, f.minimizedTo run.cover⟩,
    rfl, rfl, rfl, List.getLast?_concat, ?_, ?_⟩
  · exact Formula.equal_of_vars_ne (by decide)
  · exact Formula.equal_of_vars_ne (by decide)

end Session

end TwoLevel
