import TwoLevel.Proofs.Espresso
import TwoLevel.Proofs.Session.Refusal

/-!
# Names stay valid

Names come into a formula as defaults or past a check, and everything else hands them on, so the
names of a reachable formula are names that variables can have (`Formula.Reachable.areValid`).  What
is added here is who has such formulas: the engines, which give their answers and the steps of a
trace the names of what they were given (`Formula.Yields`), and a session, with the formula it works
on, the result beside it and the trace of an engine (`Session.Holds`).

A session makes no formulas but by the operations on formulas.  So by induction on its commands
everything it holds is reachable (`Session.HasOrigins`), the trace because it is that of a run over
a reachable formula.  An engine that is put in from outside brings such a trace with it; that is
what is asked of the commands (`Command.IsGenuine`).

Renaming succeeds exactly for names that are valid.  The check comes before anything is changed, in
a formula as in a session, and a refusal leaves both as they were.
-/

set_option autoImplicit false

namespace TwoLevel

variable {n : Nat}

/-! ## Formulas -/

namespace Formula

/-- The variables of a formula have names that are different lower case letters, one each, and there
are letters enough. -/
structure IsNamed (f : Formula n) : Prop where
  /-- The names are ones that the variables can have. -/
  areValid : Names.AreValid n f.vars
  /-- There are at most as many as letters. -/
  le_maxNamed : n ≤ maxNamed

theorem Reachable.isNamed {f : Formula n} (h : f.Reachable) : f.IsNamed :=
  ⟨h.areValid, h.areValid.le_maxNamed⟩

/-- What the engines make of a formula. -/
inductive Yields (f : Formula n) : Formula n → Prop
  /-- The formula itself, as a run leaves it. -/
  | given : Yields f f.mark
  /-- The answer of the first engine. -/
  | quineMcCluskey (debug : Bool) : Yields f (QuineMcCluskey.minimize f debug).minimized
  /-- The answer of the second engine. -/
  | espresso (cap : Option Nat) (debug : Bool) : Yields f (Espresso.minimize cap f debug).minimized
  /-- What a trace says was given. -/
  | before {cap : Option Nat} {debug : Bool} {trace : Espresso.Trace n}
      (h : (Espresso.minimize cap f debug).trace = some trace) : Yields f trace.given
  /-- A step of a trace. -/
  | step {cap : Option Nat} {debug : Bool} {trace : Espresso.Trace n}
      (h : (Espresso.minimize cap f debug).trace = some trace) {s : Espresso.Step n}
      (hs : s ∈ trace.steps) : Yields f s.formula

theorem given_of_trace {f : Formula n} {cap : Option Nat} {debug : Bool} {trace : Espresso.Trace n}
    (h : (Espresso.minimize cap f debug).trace = some trace) : trace.given = f := by
  obtain ⟨_, hrun⟩ := Option.ite_none_right_eq_some.1 h
  cases hrun
  rfl

/-- **The engines keep the names.** -/
theorem Yields.vars_eq {f g : Formula n} (h : f.Yields g) : g.vars = f.vars := by
  cases h with
  | given => rfl
  | quineMcCluskey debug => exact vars_quineMcCluskey f debug
  | espresso cap debug => rfl
  | before htrace => rw [given_of_trace htrace]
  | step htrace hs => exact vars_of_mem_steps htrace hs

theorem Yields.reachable {f g : Formula n} (h : f.Yields g) (hf : f.Reachable) : g.Reachable := by
  cases h with
  | given => exact hf.mark
  | quineMcCluskey debug => exact hf.quineMcCluskey debug
  | espresso cap debug => exact hf.espresso cap debug
  | before htrace =>
    rw [given_of_trace htrace]
    exact hf
  | step htrace hs => exact hf.step htrace hs

/-! ### Renaming -/

/-- Renames the variables in place: the answer, and the formula as it is afterwards. -/
def rename (f : Formula n) (vars : List Char) : Except Error Unit × Formula n :=
  match Names.check n vars with
  | .error e => (.error e, f)
  | .ok () => (.ok (), { f with vars })

theorem setVars_eq_rename (f : Formula n) (vars : List Char) :
    f.setVars vars = (f.rename vars).1.map fun _ ↦ (f.rename vars).2 := by
  rw [setVars, rename]
  cases Names.check n vars <;> rfl

/-- A rename is done as a whole, or refused and not begun. -/
theorem rename_cases (f : Formula n) (vars : List Char) :
    (Names.AreValid n vars ∧ f.rename vars = (.ok (), { f with vars })) ∨
      (¬ Names.AreValid n vars ∧ ∃ e, f.rename vars = (.error e, f)) := by
  rw [rename]
  cases hcheck : Names.check n vars with
  | ok => exact Or.inl ⟨Names.check_eq_ok_iff.1 hcheck, rfl⟩
  | error e =>
    refine Or.inr ⟨fun hvalid ↦ ?_, e, rfl⟩
    cases hcheck.symm.trans (Names.check_eq_ok_iff.2 hvalid)

theorem setVars_eq_ok_iff {f g : Formula n} {vars : List Char} :
    f.setVars vars = .ok g ↔ Names.AreValid n vars ∧ g = { f with vars } := by
  rw [setVars, bind_eq_ok_iff]
  constructor
  · rintro ⟨_, hcheck, hg⟩
    exact ⟨Names.check_eq_ok_iff.1 hcheck, (Except.ok.inj hg).symm⟩
  · rintro ⟨hvalid, rfl⟩
    exact ⟨(), Names.check_eq_ok_iff.2 hvalid, rfl⟩

/-- A formula, and whatever engines make of it, has valid names, and keeps to them. -/
structure KeepsNames (f : Formula n) : Prop where
  /-- Its names are valid. -/
  isNamed : f.IsNamed
  /-- Answers and the formulas of a trace have its names. -/
  yields : ∀ g, f.Yields g → g.vars = f.vars ∧ g.IsNamed
  /-- It takes other names exactly if they are valid. -/
  rename_iff : ∀ vars, (f.rename vars).1 = .ok () ↔ Names.AreValid n vars
  /-- Names that it takes become its names, and nothing else changes. -/
  rename_of_ok : ∀ vars, (f.rename vars).1 = .ok () → (f.rename vars).2 = { f with vars }
  /-- A refusal changes nothing. -/
  rename_of_error : ∀ vars e, (f.rename vars).1 = .error e → (f.rename vars).2 = f
  /-- The formula that a rename makes is the one that is renamed in place. -/
  setVars_eq : ∀ vars, f.setVars vars = (f.rename vars).1.map fun _ ↦ (f.rename vars).2

theorem Reachable.keepsNames {f : Formula n} (h : f.Reachable) : f.KeepsNames where
  isNamed := h.isNamed
  yields g hg := ⟨hg.vars_eq, (hg.reachable h).isNamed⟩
  rename_iff vars := by
    rcases f.rename_cases vars with ⟨hvalid, heq⟩ | ⟨hvalid, e, heq⟩
    · rw [heq]
      exact iff_of_true rfl hvalid
    · rw [heq]
      exact iff_of_false nofun hvalid
  rename_of_ok vars hok := by
    rcases f.rename_cases vars with ⟨_, heq⟩ | ⟨_, e, heq⟩
    · rw [heq]
    · rw [heq] at hok
      cases hok
  rename_of_error vars e herror := by
    rcases f.rename_cases vars with ⟨_, heq⟩ | ⟨_, e', heq⟩
    · rw [heq] at herror
      cases herror
    · rw [heq]
  setVars_eq := f.setVars_eq_rename

end Formula

/-! ## Sessions -/

/-- A trace is genuine when it was kept by an engine that ran over a reachable formula. -/
def Espresso.Trace.IsGenuine (t : Espresso.Trace n) : Prop :=
  ∃ (cap : Option Nat) (f : Formula n) (debug : Bool),
    f.Reachable ∧ (Espresso.minimize cap f debug).trace = some t

/-- An engine that is put in has a genuine trace, if it has one. -/
def Command.IsGenuine : Command → Prop
  | .install _ trace => ∀ t, trace = some t → t.2.IsGenuine
  | _ => True

namespace Session

/-- The formulas that a session has. -/
inductive Holds (s : Session) : AnyFormula → Prop
  /-- The formula worked on. -/
  | formula {w : Subject} (h : s.subject = some w) : Holds s ⟨w.size, w.formula⟩
  /-- What it was last minimized to, shown or not. -/
  | result {w : Subject} (h : s.subject = some w) {r : Formula w.size} (hr : w.result = some r) :
      Holds s ⟨w.size, r⟩
  /-- What the trace says was given. -/
  | given {t : (n : Nat) × Espresso.Trace n} (h : s.espressoTrace = some t) :
      Holds s ⟨t.1, t.2.given⟩
  /-- A step of the trace. -/
  | step {t : (n : Nat) × Espresso.Trace n} (h : s.espressoTrace = some t)
      {step : Espresso.Step t.1} (hstep : step ∈ t.2.steps) : Holds s ⟨t.1, step.formula⟩

/-- Everything a session has comes from operations on formulas. -/
structure HasOrigins (s : Session) : Prop where
  /-- The formula worked on comes from operations on formulas. -/
  formula : s.HasReachable
  /-- The result beside it comes from operations on formulas. -/
  result : ∀ w, s.subject = some w → ∀ r, w.result = some r → r.Reachable
  /-- The trace is that of a run over a reachable formula. -/
  trace : ∀ t, s.espressoTrace = some t → t.2.IsGenuine

variable {s : Session}

theorem HasOrigins.reachable (h : s.HasOrigins) {g : AnyFormula} (hg : s.Holds g) :
    g.2.Reachable := by
  cases hg with
  | formula hs => exact h.formula _ hs
  | result hs hr => exact h.result _ hs _ hr
  | given ht =>
    obtain ⟨cap, f, debug, hf, htrace⟩ := h.trace _ ht
    exact (Formula.Yields.before htrace).reachable hf
  | step ht hstep =>
    obtain ⟨cap, f, debug, hf, htrace⟩ := h.trace _ ht
    exact (Formula.Yields.step htrace hstep).reachable hf

theorem hasOrigins_new : new.HasOrigins where
  formula w hs := absurd hs.symm (Option.some_ne_none w)
  result w hs := absurd hs.symm (Option.some_ne_none w)
  trace t ht := absurd ht.symm (Option.some_ne_none t)

/-! ### What a command does -/

/-- A formula that replaces the one worked on, with a result of its own or none. -/
theorem HasOrigins.setSubject (h : s.HasOrigins) {w : Subject} {t : Session}
    (ht : t.subject = some w) (htrace : t.espressoTrace = s.espressoTrace)
    (hformula : w.formula.Reachable) (hresult : ∀ r, w.result = some r → r.Reachable) :
    t.HasOrigins where
  formula v hv := by
    obtain rfl := Option.some.inj (ht.symm.trans hv)
    exact hformula
  result v hv := by
    obtain rfl := Option.some.inj (ht.symm.trans hv)
    exact hresult
  trace u hu := h.trace u (htrace ▸ hu)

/-- A formula that replaces the one worked on, without a result. -/
theorem HasOrigins.setUnanswered (h : s.HasOrigins) {w : Subject} {t : Session}
    (ht : t.subject = some w) (htrace : t.espressoTrace = s.espressoTrace)
    (hformula : w.formula.Reachable) (hresult : w.result = none) : t.HasOrigins :=
  h.setSubject ht htrace hformula fun r hr ↦ by cases hresult.symm.trans hr

/-- No formula at all. -/
theorem HasOrigins.setNone (h : s.HasOrigins) {t : Session} (ht : t.subject = none)
    (htrace : t.espressoTrace = s.espressoTrace) : t.HasOrigins where
  formula v hv := by cases ht.symm.trans hv
  result v hv := by cases ht.symm.trans hv
  trace u hu := h.trace u (htrace ▸ hu)

/-- **A run leaves reachable formulas**, and a trace of itself. -/
theorem HasOrigins.run (h : s.HasOrigins) {w : Subject} (hw : w.formula.Reachable) (debug : Bool) :
    (s.run w debug).HasOrigins where
  formula v hv := by
    obtain rfl := Option.some.inj ((s.subject_run w debug).symm.trans hv)
    exact hw.mark
  result v hv r hr := by
    obtain rfl := Option.some.inj ((s.subject_run w debug).symm.trans hv)
    obtain rfl := Option.some.inj hr
    show (s.algorithm.answer s.cap w.formula debug).Reachable
    cases s.algorithm with
    | quineMcCluskey => exact hw.quineMcCluskey debug
    | espresso => exact hw.espresso s.cap debug
  trace t ht := by
    rw [Session.run] at ht
    cases halgorithm : s.algorithm with
    | quineMcCluskey =>
      rw [halgorithm] at ht
      exact h.trace t ht
    | espresso =>
      rw [halgorithm] at ht
      obtain ⟨trace, htrace, rfl⟩ := Option.map_eq_some_iff.1 ht
      exact ⟨s.cap, w.formula, debug, hw, htrace⟩

theorem HasOrigins.minimize (h : s.HasOrigins) (debug : Bool) :
    (s.minimize debug).session.HasOrigins := by
  cases hs : s.subject with
  | none =>
    rw [Session.minimize, hs]
    exact h
  | some w =>
    rw [session_minimize debug hs]
    split
    · exact h.run (h.formula w hs) debug
    · exact h

theorem HasOrigins.setValue (h : s.HasOrigins) (index : Nat) (output : Output) :
    (s.setValue index output).session.HasOrigins := by
  rcases s.setValue_cases index output with
    ⟨_, heq⟩ | ⟨_, e, _, _, heq⟩ | ⟨w, formula, hs, hset, heq⟩
  · rw [heq]
    exact h
  · rw [heq]
    exact h
  · rw [heq]
    exact h.setSubject rfl rfl ((h.formula w hs).setAt hset) (h.result w hs)

/-- The result takes the names that the formula takes. -/
theorem HasOrigins.setVars (h : s.HasOrigins) (vars : List Char) :
    (s.setVars vars).session.HasOrigins := by
  rcases s.setVars_cases vars with ⟨_, heq⟩ | ⟨_, e, _, _, heq⟩ | ⟨w, formula, hs, hset, heq⟩
  · rw [heq]
    exact h
  · rw [heq]
    exact h
  · rw [heq]
    refine h.setSubject rfl rfl ((h.formula w hs).setVars hset) fun r hr ↦ ?_
    obtain ⟨r, hresult, rfl⟩ := Option.map_eq_some_iff.1 hr
    have hvalid := (Formula.setVars_eq_ok_iff.1 hset).1
    exact (h.result w hs r hresult).setVars (Formula.setVars_eq_ok_iff.2 ⟨hvalid, rfl⟩)

theorem HasOrigins.setForm (h : s.HasOrigins) (form : Form) :
    (s.setForm form).session.HasOrigins := by
  rcases s.setForm_cases form with heq | ⟨w, formula, hs, hset, heq⟩
  · rw [heq]
    exact ⟨h.formula, h.result, h.trace⟩
  · have hform := (h.formula w hs).setForm form
    rw [hset] at hform
    have ht : HasOrigins { s with form, subject := some { w with formula } } :=
      h.setSubject rfl rfl hform (h.result w hs)
    rcases heq with heq | heq
    · rw [heq]
      exact ht
    · rw [heq]
      exact ht.minimize _

theorem HasOrigins.setAlgorithm (h : s.HasOrigins) (algorithm : Algorithm) :
    (s.setAlgorithm algorithm).session.HasOrigins := by
  rw [Session.setAlgorithm]
  split
  · exact h
  · cases hs : s.subject with
    | none => exact h.setNone rfl rfl
    | some w => exact h.setUnanswered rfl rfl (h.formula w hs).unmark rfl

/-- **Every command leaves only what comes from operations on formulas.** -/
theorem HasOrigins.perform (h : s.HasOrigins) {c : Command} (hc : c.IsGenuine) :
    (s.perform c).session.HasOrigins := by
  cases c with
  | setFormula f reachable => exact h.setUnanswered rfl rfl reachable.unmark rfl
  | removeFormula => exact h.setNone rfl rfl
  | minimize debug => exact h.minimize debug
  | setValue index output => exact h.setValue index output
  | setVars vars => exact h.setVars vars
  | setForm form => exact h.setForm form
  | setAlgorithm algorithm => exact h.setAlgorithm algorithm
  | install cap trace => exact ⟨h.formula, h.result, hc⟩
  | register => exact ⟨h.formula, h.result, h.trace⟩
  | unregister => exact ⟨h.formula, h.result, h.trace⟩
  | report => exact h

theorem HasOrigins.after (h : s.HasOrigins) {cs : List Command} (hcs : ∀ c ∈ cs, c.IsGenuine) :
    (s.after cs).HasOrigins := by
  induction cs generalizing s with
  | nil => exact h
  | cons c cs ih =>
    obtain ⟨hc, hcs⟩ := List.forall_mem_cons.1 hcs
    rw [after_cons]
    exact ih (h.perform hc) hcs

/-! ### Names in a session -/

/-- The formulas that a session has keep to valid names, and it renames with them. -/
structure KeepsNames (s : Session) : Prop where
  /-- Everything that it has, and whatever engines make of that, keeps to valid names. -/
  held : ∀ g, s.Holds g → g.2.KeepsNames
  /-- It takes exactly the names that the variables of its formula can have, if it has one. -/
  setVars_iff : ∀ vars, (s.setVars vars).value = .ok () ↔
    ∀ w, s.subject = some w → Names.AreValid w.size vars
  /-- Names that it takes become those of its formula and result, and nothing else changes. -/
  renamed : ∀ w vars, s.subject = some w → (s.setVars vars).value = .ok () →
    (s.setVars vars).session =
      { s with
        subject := some
          { w with
            formula := { w.formula with vars }
            result := w.result.map fun r ↦ { r with vars } } }
  /-- A refusal changes nothing. -/
  refused : ∀ vars e, (s.setVars vars).value = .error e → (s.setVars vars).session = s

theorem value_setVars_eq_ok_iff {vars : List Char} :
    (s.setVars vars).value = .ok () ↔ ∀ w, s.subject = some w → Names.AreValid w.size vars := by
  rcases s.setVars_cases vars with ⟨hs, heq⟩ | ⟨w, e, hs, hset, heq⟩ | ⟨w, formula, hs, hset, heq⟩
  · simp [heq, hs]
  · have hnot : ¬ Names.AreValid w.size vars := fun hvalid ↦
      nomatch hset.symm.trans (Formula.setVars_eq_ok_iff.2 ⟨hvalid, rfl⟩)
    simp [heq, fail, hs, hnot]
  · simp [heq, hs, (Formula.setVars_eq_ok_iff.1 hset).1]

theorem HasOrigins.keepsNames (h : s.HasOrigins) : s.KeepsNames where
  held g hg := (h.reachable hg).keepsNames
  setVars_iff vars := value_setVars_eq_ok_iff
  renamed w vars hs hok := by
    have hvalid := value_setVars_eq_ok_iff.1 hok w hs
    rw [setVars_of_ok hs (Formula.setVars_eq_ok_iff.2 ⟨hvalid, rfl⟩)]
  refused vars e herror := by
    rw [eq_fail_of_setVars herror]
    rfl

end Session

/-- **Variable names stay valid**: in the formulas that operations on formulas make, in what engines
make of them, and in sessions. -/
theorem names_stay_valid :
    (∀ (n : Nat) (f : Formula n), f.Reachable → f.KeepsNames) ∧
      ∀ cs : List Command, (∀ c ∈ cs, c.IsGenuine) → (Session.new.after cs).KeepsNames :=
  ⟨fun _ _ hf ↦ hf.keepsNames, fun _ hcs ↦ (Session.hasOrigins_new.after hcs).keepsNames⟩

/-- An engine that was traced elsewhere is put in, a formula is given and renamed, and then a name
too few is given. -/
def borrowedEngine : List Command :=
  [.install none ((Espresso.minimize none Espresso.lowZeros true).trace.map (⟨2, ·⟩)),
    .setFormula ⟨2, Espresso.lowZeros⟩ Espresso.reachable_lowZeros, .setVars ['x', 'y'],
    .setVars ['z']]

theorem names_stay_valid_borrowedEngine :
    Espresso.lowZeros.Reachable ∧ (∀ c ∈ borrowedEngine, c.IsGenuine) ∧
      Espresso.lowZeros.KeepsNames ∧ (Session.new.after borrowedEngine).KeepsNames := by
  have hreachable := Espresso.reachable_lowZeros
  have hgenuine : ∀ c ∈ borrowedEngine, c.IsGenuine := by
    refine List.forall_mem_cons.2 ⟨fun t ht ↦ ?_, ?_⟩
    · obtain ⟨trace, htrace, rfl⟩ := Option.map_eq_some_iff.1 ht
      exact ⟨none, Espresso.lowZeros, true, hreachable, htrace⟩
    · simp [Command.IsGenuine]
  exact ⟨hreachable, hgenuine, names_stay_valid.1 2 Espresso.lowZeros hreachable,
    names_stay_valid.2 borrowedEngine hgenuine⟩

end TwoLevel
