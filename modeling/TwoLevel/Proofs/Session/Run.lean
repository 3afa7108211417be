import TwoLevel.Session.Operations
import TwoLevel.Proofs.Formula.Reachable
import TwoLevel.Proofs.Formula.Update

/-!
# Runs of a session

What is shown of sessions is shown of every state that operations lead to.  An operation as a value
is a `Command`, and a session goes through a list of them one after the other (`Session.after`),
those that fail included.  A formula that comes in from outside is a reachable one; the command that
brings it carries the proof.

The operations are seen here by what they leave of the formula:

* an engine leaves the formula marked, with the answer beside it (`subject_run`);
* a change of an output, of the form or of the names leaves a reachable formula, whose mark is gone
  if the function or its form changed (`setAt_cases`, `minimized_of_setForm`, `eq_of_setVars`).

Each operation that changes the formula does one of a few things, a refusal among them
(`setValue_cases`, `setVars_cases`, `setForm_cases`).  Put together, an operation leaves one of five
things (`Session.Leaves`), and an invariant of sessions is shown by going through those five and not
through the operations.

One kind of command is out of line: `install` changes the engine behind the back of a result.
`InstallsFirst` is the discipline of installing before there is a formula, and `after_induction` the
induction along runs that keep to it.
-/

set_option autoImplicit false

namespace TwoLevel

/-! ## Commands -/

/-- What can be asked of a session. -/
inductive Command where
  /-- A formula is given. -/
  | setFormula (f : AnyFormula) (reachable : f.2.Reachable)
  /-- The formula is taken out. -/
  | removeFormula
  /-- Minimizing is asked for. -/
  | minimize (debug : Bool)
  /-- The output at an index is set. -/
  | setValue (index : Nat) (output : Output)
  /-- The variables are renamed. -/
  | setVars (vars : List Char)
  /-- The form is changed. -/
  | setForm (form : Form)
  /-- An engine is selected. -/
  | setAlgorithm (algorithm : Algorithm)
  /-- An Espresso engine is put in. -/
  | install (cap : Option Nat) (trace : Option ((n : Nat) × Espresso.Trace n))
  /-- An observer is registered. -/
  | register
  /-- An observer is removed. -/
  | unregister (observer : Nat)
  /-- An error is reported. -/
  | report (error : Error)

namespace Command

/-- Whether the command gives a formula. -/
def isSetFormula : Command → Bool
  | setFormula .. => true
  | _ => false

/-- Whether the command puts in an engine. -/
def isInstall : Command → Bool
  | install .. => true
  | _ => false

/-- Whether the command renames the variables. -/
def isSetVars : Command → Bool
  | setVars .. => true
  | _ => false

/-- Whether the command registers an observer. -/
def isRegister : Command → Bool
  | register => true
  | _ => false

end Command

/-- The answer without the result for the caller. -/
def Reply.forget {α : Type} (r : Reply α) : Reply Unit := ⟨(), r.session, r.deliveries⟩

namespace Session

/-- Does what is asked. -/
def perform (s : Session) : Command → Reply Unit
  | .setFormula f _ => s.setFormula f
  | .removeFormula => s.removeFormula.forget
  | .minimize debug => (s.minimize debug).forget
  | .setValue index output => (s.setValue index output).forget
  | .setVars vars => (s.setVars vars).forget
  | .setForm form => s.setForm form
  | .setAlgorithm algorithm => s.setAlgorithm algorithm
  | .install cap trace => s.install cap trace
  | .register => s.register.forget
  | .unregister observer => (s.unregister observer).forget
  | .report error => s.report error

/-- The session after some commands. -/
def after (s : Session) (cs : List Command) : Session :=
  cs.foldl (fun s c ↦ (s.perform c).session) s

theorem after_cons (s : Session) (c : Command) (cs : List Command) :
    s.after (c :: cs) = (s.perform c).session.after cs :=
  rfl

theorem after_append (s : Session) (as bs : List Command) :
    s.after (as ++ bs) = (s.after as).after bs :=
  List.foldl_append

theorem after_concat (s : Session) (cs : List Command) (c : Command) :
    s.after (cs ++ [c]) = ((s.after cs).perform c).session :=
  s.after_append cs [c]

/-- **What every command preserves holds after a run.** -/
theorem after_invariant {q : Session → Prop}
    (hstep : ∀ (s : Session) (c : Command), q s → q (s.perform c).session) {s : Session} (hs : q s)
    (cs : List Command) : q (s.after cs) := by
  induction cs generalizing s with
  | nil => exact hs
  | cons c cs ih =>
    rw [after_cons]
    exact ih (hstep s c hs)

end Session

/-! ## What a change leaves of a formula -/

namespace Formula

variable {n : Nat} {f g : Formula n}

/-- **Setting an output changes nothing or takes the mark away.** -/
theorem setAt_cases {index : Nat} {output : Output} {changed : Bool}
    (h : f.setAt index output = .ok (changed, g)) :
    changed = false ∧ g = f ∨ changed = true ∧ g.minimized = false := by
  have hupdate := isUpdate_of_setAt h
  cases changed with
  | false => exact Or.inl ⟨rfl, hupdate.eq_of_unchanged rfl⟩
  | true => exact Or.inr ⟨rfl, (hupdate.restarts rfl).1⟩

theorem minimized_of_setAt {index : Nat} {output : Output}
    (h : f.setAt index output = .ok (true, g)) : g.minimized = false := by
  rcases setAt_cases h with ⟨hchanged, _⟩ | ⟨_, hmark⟩
  · cases hchanged
  · exact hmark

/-- A change of the form takes the mark away. -/
theorem minimized_of_setForm {form : Form} (h : f.setForm form = (true, g)) :
    g.minimized = false := by
  obtain ⟨hchanged, rfl⟩ := Prod.mk.inj h
  rw [hchanged]
  rfl

/-- Renaming the variables leaves everything else. -/
theorem eq_of_setVars {vars : List Char} (h : f.setVars vars = .ok g) : g = { f with vars } := by
  obtain ⟨_, _, hg⟩ := bind_eq_ok_iff.1 h
  cases hg
  rfl

end Formula

/-- **What the formula takes its result takes too.**  The two have equally many variables, so the
second check cannot fail where the first succeeded. -/
theorem Subject.renamedResult_of_setVars {w : Subject} {vars : List Char}
    {formula : Formula w.size} (h : w.formula.setVars vars = .ok formula) :
    w.renamedResult vars = .ok (w.result.map fun r ↦ { r with vars }) := by
  obtain ⟨_, hcheck, _⟩ := bind_eq_ok_iff.1 h
  rw [renamedResult]
  cases w.result with
  | none => rfl
  | some r =>
    have hr : r.setVars vars = .ok { r with vars } := by
      rw [Formula.setVars, hcheck]
      rfl
    simp only [hr]
    rfl

/-! ## What is shown -/

namespace Session

variable {s : Session} {w : Subject}

theorem formula?_of_some (hs : s.subject = some w) : s.formula? = some ⟨w.size, w.formula⟩ := by
  rw [formula?, hs]
  rfl

/-- The result is shown while the formula is marked. -/
theorem minimized?_of_some (hs : s.subject = some w) :
    s.minimized? = if w.formula.minimized then w.result.map (⟨w.size, ·⟩) else none := by
  rw [minimized?, formula?_of_some hs, stored?, hs]
  rfl

theorem minimized?_of_none (hs : s.subject = none) : s.minimized? = none := by
  rw [minimized?, formula?, hs]
  rfl

end Session

/-! ## What an engine leaves of a session -/

variable {n : Nat}

/-- What a fresh engine answers for a formula. -/
def Algorithm.answer (a : Algorithm) (cap : Option Nat) (f : Formula n) (debug : Bool) :
    Formula n :=
  match a with
  | .quineMcCluskey => (QuineMcCluskey.minimize f debug).minimized
  | .espresso => (Espresso.minimize cap f debug).minimized

theorem QuineMcCluskey.given_minimize (f : Formula n) (debug : Bool) :
    (minimize f debug).given = f.mark := by
  rw [minimize]
  simp only
  split <;> rfl

namespace Session

variable (s : Session) (w : Subject) (debug : Bool)

/-- **A run marks the formula and keeps the answer of the engine.** -/
theorem subject_run :
    (s.run w debug).subject =
      some ⟨w.size, w.formula.mark, some (s.algorithm.answer s.cap w.formula debug)⟩ := by
  rw [run]
  cases s.algorithm with
  | quineMcCluskey =>
    simp only
    rw [QuineMcCluskey.given_minimize]
    rfl
  | espresso => rfl

@[simp]
theorem algorithm_run : (s.run w debug).algorithm = s.algorithm := by
  rw [run]
  split <;> rfl

@[simp]
theorem cap_run : (s.run w debug).cap = s.cap := by
  rw [run]
  split <;> rfl

variable {s w}

theorem session_minimize (h : s.subject = some w) :
    (s.minimize debug).session = if s.needsRun w debug then s.run w debug else s := by
  rw [minimize, h]

/-! ## What a change does -/

/-- **Setting an output** does nothing, or is refused by the formula and does no more than tell so,
or changes the formula. -/
theorem setValue_cases (s : Session) (index : Nat) (output : Output) :
    ((∀ w, s.subject = some w → w.formula.setAt index output = .ok (false, w.formula)) ∧
      s.setValue index output = ⟨.ok false, s, []⟩) ∨
    (∃ w e, s.subject = some w ∧ w.formula.setAt index output = .error e ∧
      s.setValue index output = s.fail e) ∨
    ∃ w formula, s.subject = some w ∧ w.formula.setAt index output = .ok (true, formula) ∧
      s.setValue index output =
        ⟨.ok true, { s with subject := some { w with formula } },
          s.tell (.changed ⟨w.size, formula⟩)⟩ := by
  rw [setValue]
  cases hs : s.subject with
  | none => exact Or.inl ⟨fun _ hw ↦ (nomatch hw), rfl⟩
  | some w =>
    cases hset : w.formula.setAt index output with
    | error e =>
      refine Or.inr (Or.inl ⟨w, e, rfl, hset, ?_⟩)
      simp only [hset]
    | ok answer =>
      obtain ⟨changed, formula⟩ := answer
      rcases Formula.setAt_cases hset with ⟨rfl, rfl⟩ | ⟨rfl, _⟩
      · have hunchanged : { s with subject := some w } = s := by rw [← hs]
        refine Or.inl ⟨fun v hv ↦ ?_, ?_⟩
        · obtain rfl := Option.some.inj hv
          exact hset
        · simp only [hset]
          rw [if_neg Bool.false_ne_true, hunchanged]
      · refine Or.inr (Or.inr ⟨w, formula, rfl, hset, ?_⟩)
        simp only [hset]
        rfl

/-- A rename that the formula takes is one of the formula and of its result. -/
theorem setVars_of_ok (hs : s.subject = some w) {vars : List Char} {formula : Formula w.size}
    (hset : w.formula.setVars vars = .ok formula) :
    s.setVars vars =
      ⟨.ok (),
        { s with
          subject := some { w with formula, result := w.result.map fun r ↦ { r with vars } } },
        s.tell (.changed ⟨w.size, formula⟩)⟩ := by
  rw [setVars, hs]
  simp only [hset, Subject.renamedResult_of_setVars hset]
  rfl

/-- **Renaming** does nothing where there is no formula, or is refused by the formula and does no
more than tell so, or renames the formula and its result. -/
theorem setVars_cases (s : Session) (vars : List Char) :
    (s.subject = none ∧ s.setVars vars = ⟨.ok (), s, []⟩) ∨
    (∃ w e, s.subject = some w ∧ w.formula.setVars vars = .error e ∧ s.setVars vars = s.fail e) ∨
    ∃ w formula, s.subject = some w ∧ w.formula.setVars vars = .ok formula ∧
      s.setVars vars =
        ⟨.ok (),
          { s with
            subject := some { w with formula, result := w.result.map fun r ↦ { r with vars } } },
          s.tell (.changed ⟨w.size, formula⟩)⟩ := by
  cases hs : s.subject with
  | none =>
    refine Or.inl ⟨rfl, ?_⟩
    rw [setVars, hs]
  | some w =>
    cases hset : w.formula.setVars vars with
    | error e =>
      refine Or.inr (Or.inl ⟨w, e, rfl, hset, ?_⟩)
      rw [setVars, hs]
      simp only [hset]
    | ok formula => exact Or.inr (Or.inr ⟨w, formula, rfl, hset, setVars_of_ok hs hset⟩)

/-- **Going over to a form** changes no more than the choice of form, or changes the formula, and
then asks for it to be minimized again or does not. -/
theorem setForm_cases (s : Session) (form : Form) :
    s.setForm form = ⟨(), { s with form }, []⟩ ∨
    ∃ w formula, s.subject = some w ∧ w.formula.setForm form = (true, formula) ∧
      let t := { s with form, subject := some { w with formula } }
      let told := s.tell (.changed ⟨w.size, formula⟩)
      s.setForm form = ⟨(), t, told⟩ ∨
        s.setForm form =
          ⟨(), (t.minimize t.traced).session, told ++ (t.minimize t.traced).deliveries⟩ := by
  rw [setForm]
  simp only
  cases hs : s.subject with
  | none => exact Or.inl rfl
  | some w =>
    rcases hset : w.formula.setForm form with ⟨changed, formula⟩
    cases changed with
    | false =>
      simp only [hset]
      exact Or.inl trivial
    | true =>
      refine Or.inr ⟨w, formula, rfl, hset, ?_⟩
      simp only [hset]
      split
      · exact Or.inr rfl
      · exact Or.inl rfl

/-! ## What an operation leaves -/

/-- The formula of the session, if there is one, is reachable. -/
def HasReachable (s : Session) : Prop := ∀ w, s.subject = some w → w.formula.Reachable

/-- What any operation but putting in an engine may leave of a session, other names only if the
operation renames. -/
inductive Leaves (s : Session) (renames : Bool) : Session → Prop where
  /-- There is no formula. -/
  | nothing {t : Session} (h : t.subject = none) (hcap : t.cap = s.cap) : Leaves s renames t
  /-- Formula, result, engine, cap and trace are as they were. -/
  | same {t : Session} (hsubject : t.subject = s.subject) (halgorithm : t.algorithm = s.algorithm)
      (hcap : t.cap = s.cap) (htrace : t.espressoTrace = s.espressoTrace) : Leaves s renames t
  /-- There is a formula without a mark. -/
  | unmarked {t : Session} {w : Subject} (hw : t.subject = some w)
      (hmark : w.formula.minimized = false) (hreachable : s.HasReachable → w.formula.Reachable)
      (hcap : t.cap = s.cap) : Leaves s renames t
  /-- The formula and the result have other names. -/
  | renamed {t : Session} {w : Subject} {vars : List Char} {formula : Formula w.size}
      (hrenames : renames = true)
      (hs : s.subject = some w) (hset : w.formula.setVars vars = .ok formula)
      (ht : t.subject =
        some { w with formula, result := w.result.map fun r ↦ { r with vars } })
      (halgorithm : t.algorithm = s.algorithm) (hcap : t.cap = s.cap)
      (htrace : t.espressoTrace = s.espressoTrace) : Leaves s renames t
  /-- There is what a run of the selected engine leaves. -/
  | ran (u : Session) {w : Subject} (debug : Bool)
      (hreachable : s.HasReachable → w.formula.Reachable) (hcap : u.cap = s.cap) :
      Leaves s renames (u.run w debug)

theorem leaves_self (s : Session) (renames : Bool) : s.Leaves renames s := .same rfl rfl rfl rfl

theorem leaves_minimize (s : Session) (debug : Bool) :
    s.Leaves false (s.minimize debug).session := by
  cases hs : s.subject with
  | none =>
    rw [minimize, hs]
    exact s.leaves_self _
  | some w =>
    rw [session_minimize debug hs]
    split
    · exact .ran s debug (fun h ↦ h w hs) rfl
    · exact s.leaves_self _

theorem leaves_setValue (s : Session) (index : Nat) (output : Output) :
    s.Leaves false (s.setValue index output).session := by
  rcases s.setValue_cases index output with ⟨_, h⟩ | ⟨_, e, _, _, h⟩ | ⟨w, formula, hs, hset, h⟩
  · rw [h]
    exact s.leaves_self _
  · rw [h]
    exact s.leaves_self _
  · rw [h]
    exact .unmarked rfl (Formula.minimized_of_setAt hset) (fun hr ↦ (hr w hs).setAt hset) rfl

theorem leaves_setVars (s : Session) (vars : List Char) :
    s.Leaves true (s.setVars vars).session := by
  rcases s.setVars_cases vars with ⟨_, h⟩ | ⟨_, e, _, _, h⟩ | ⟨w, formula, hs, hset, h⟩
  · rw [h]
    exact s.leaves_self _
  · rw [h]
    exact s.leaves_self _
  · rw [h]
    exact .renamed rfl hs hset rfl rfl rfl rfl

theorem leaves_setForm (s : Session) (form : Form) :
    s.Leaves false (s.setForm form).session := by
  rcases s.setForm_cases form with h | ⟨w, formula, hs, hset, h⟩
  · rw [h]
    exact .same rfl rfl rfl rfl
  · have hmark : formula.minimized = false := Formula.minimized_of_setForm hset
    have hreachable : s.HasReachable → formula.Reachable := by
      intro hr
      have hform := (hr w hs).setForm form
      rwa [hset] at hform
    rcases h with h | h
    · rw [h]
      exact .unmarked rfl hmark hreachable rfl
    · rw [h]
      show s.Leaves false (minimize _ _).session
      rw [session_minimize _ rfl]
      split
      · exact .ran _ _ hreachable rfl
      · exact .unmarked rfl hmark hreachable rfl

theorem leaves_setAlgorithm (s : Session) (algorithm : Algorithm) :
    s.Leaves false (s.setAlgorithm algorithm).session := by
  rw [setAlgorithm]
  split
  · exact s.leaves_self _
  · cases hs : s.subject with
    | none => exact .nothing rfl rfl
    | some w => exact .unmarked rfl rfl (fun h ↦ (h w hs).unmark) rfl

/-- **What every command leaves**, but for one that puts in an engine. -/
theorem leaves_perform (s : Session) {c : Command} (hc : c.isInstall = false) :
    s.Leaves c.isSetVars (s.perform c).session := by
  cases c with
  | setFormula f reachable => exact .unmarked rfl rfl (fun _ ↦ reachable.unmark) rfl
  | removeFormula => exact .nothing rfl rfl
  | minimize debug => exact s.leaves_minimize debug
  | setValue index output => exact s.leaves_setValue index output
  | setVars vars => exact s.leaves_setVars vars
  | setForm form => exact s.leaves_setForm form
  | setAlgorithm algorithm => exact s.leaves_setAlgorithm algorithm
  | install => cases hc
  | register => exact .same rfl rfl rfl rfl
  | unregister => exact .same rfl rfl rfl rfl
  | report => exact .same rfl rfl rfl rfl

theorem Leaves.cap_eq {renames : Bool} {t : Session} (hleaves : s.Leaves renames t) :
    t.cap = s.cap := by
  cases hleaves with
  | nothing _ hcap => exact hcap
  | same _ _ hcap => exact hcap
  | unmarked _ _ _ hcap => exact hcap
  | renamed _ _ _ _ _ hcap => exact hcap
  | ran u debug _ hcap => rw [cap_run, hcap]

/-! ## Installing before there is a formula -/

/-- Without a formula only a command that gives one can change that. -/
theorem subject_perform (h : s.subject = none) {c : Command} (hc : c.isSetFormula = false) :
    (s.perform c).session.subject = none := by
  cases c with
  | setFormula => cases hc
  | removeFormula => rfl
  | minimize debug =>
    show (s.minimize debug).session.subject = none
    rw [minimize, h]
    exact h
  | setValue index output =>
    show (s.setValue index output).session.subject = none
    rw [setValue, h]
    exact h
  | setVars vars =>
    show (s.setVars vars).session.subject = none
    rw [setVars, h]
    exact h
  | setForm form =>
    show (s.setForm form).session.subject = none
    rw [setForm]
    simp only [h]
  | setAlgorithm algorithm =>
    show (s.setAlgorithm algorithm).session.subject = none
    rw [setAlgorithm]
    split
    · exact h
    · simp only [h, Option.map_none]
  | install => exact h
  | register => exact h
  | unregister => exact h
  | report => exact h

end Session

/-- No engine is put in once a formula has been given. -/
def InstallsFirst (cs : List Command) : Prop :=
  cs.Pairwise fun b c ↦ b.isSetFormula = true → c.isInstall = false

instance (cs : List Command) : Decidable (InstallsFirst cs) :=
  inferInstanceAs (Decidable (cs.Pairwise _))

theorem InstallsFirst.of_forall {cs : List Command} (h : ∀ c ∈ cs, c.isInstall = false) :
    InstallsFirst cs :=
  List.pairwise_of_forall_mem_list fun _ _ c hc _ ↦ h c hc

/-- Without a command that gives a formula there is none. -/
theorem Session.subject_after {s : Session} (h : s.subject = none) {cs : List Command}
    (hcs : ∀ c ∈ cs, c.isSetFormula = false) : (s.after cs).subject = none := by
  induction cs generalizing s with
  | nil => exact h
  | cons c cs ih =>
    rw [after_cons]
    exact ih (subject_perform h (hcs c List.mem_cons_self))
      fun d hd ↦ hcs d (List.mem_cons_of_mem c hd)

/-- The last command of such a run, if it puts in an engine, finds no formula. -/
theorem InstallsFirst.of_concat {cs : List Command} {c : Command} (h : InstallsFirst (cs ++ [c])) :
    InstallsFirst cs ∧ (c.isInstall = true → (Session.new.after cs).subject = none) := by
  obtain ⟨hcs, _, hlast⟩ := List.pairwise_append.1 h
  refine ⟨hcs, fun hc ↦ Session.subject_after rfl fun b hb ↦ ?_⟩
  by_contra hset
  have hno := hlast b hb c (List.mem_singleton_self c) (Bool.not_eq_false _ ▸ hset)
  exact Bool.false_ne_true (hno.symm.trans hc)

/-- **What every command preserves holds after a run**, where an engine is only put in while there
is no formula. -/
theorem Session.after_induction {q : Session → Prop} {s : Session} {cs : List Command}
    (hstep : ∀ (s : Session), ∀ c ∈ cs, (c.isInstall = true → s.subject = none) → q s →
      q (s.perform c).session)
    (hs : q s) (hcs : InstallsFirst cs)
    (hfirst : s.subject = none ∨ ∀ c ∈ cs, c.isInstall = false) : q (s.after cs) := by
  induction cs generalizing s with
  | nil => exact hs
  | cons c cs ih =>
    obtain ⟨hc, hcs⟩ := List.pairwise_cons.1 hcs
    have hinstall : c.isInstall = true → s.subject = none := by
      intro h
      refine hfirst.resolve_right fun hno ↦ ?_
      exact absurd ((hno c List.mem_cons_self).symm.trans h) Bool.false_ne_true
    rw [after_cons]
    refine ih (fun s d hd ↦ hstep s d (List.mem_cons_of_mem c hd))
      (hstep s c List.mem_cons_self hinstall hs) hcs ?_
    rcases hfirst with hnone | hno
    · cases hset : c.isSetFormula with
      | false => exact Or.inl (subject_perform hnone hset)
      | true => exact Or.inr fun d hd ↦ hc d hd hset
    · exact Or.inr fun d hd ↦ hno d (List.mem_cons_of_mem c hd)

end TwoLevel
