import TwoLevel.Session.Basic

/-!
# What can be done in a session

* `setFormula` and `removeFormula` replace the formula, and with it any result.
* `minimize` answers with the current result, and runs the selected engine first where there is
  none, or where a trace is asked for and the engine keeps none.
* `setValue` and `setVars` change the formula.  What fails leaves everything as it was and is
  reported as well as answered.
* `setForm` goes over to the other form.  A formula that was minimized is minimized again.
* `setAlgorithm` selects an engine, `install` puts in an Espresso engine, and `setCap` a fresh one.
* `register`, `unregister` and `report` are the side of the observers.
-/

set_option autoImplicit false

namespace TwoLevel.Session

/-! ## The formula -/

/-- Makes a formula the one worked on. -/
def setFormula (s : Session) (f : AnyFormula) : Reply Unit :=
  let formula := { f.2 with minimized := false }
  let s := { s with subject := some ⟨f.1, formula, none⟩ }
  ⟨(), s, s.tell (.changed ⟨f.1, formula⟩)⟩

/-- Takes the formula out of the session. -/
def removeFormula (s : Session) : Reply (Option AnyFormula) :=
  ⟨s.formula?, { s with subject := none }, []⟩

/-! ## Minimizing -/

/-- Whether there is no result to answer with, or none with the trace that is asked for. -/
def needsRun (s : Session) (w : Subject) (debug : Bool) : Bool :=
  !w.formula.minimized || w.result.isNone || debug && !s.traced

/-- Runs the selected engine on the formula. -/
def run (s : Session) (w : Subject) (debug : Bool) : Session :=
  match s.algorithm with
  | .quineMcCluskey =>
    let o := QuineMcCluskey.minimize w.formula debug
    { s with
      subject := some ⟨w.size, o.given, some o.minimized⟩
      quineMcCluskeyTrace := o.trace.map (⟨w.size, ·⟩) }
  | .espresso =>
    let o := Espresso.minimize s.cap w.formula debug
    { s with
      subject := some ⟨w.size, o.given, some o.minimized⟩
      espressoTrace := o.trace.map (⟨w.size, ·⟩) }

/-- Minimizes the formula, if there is one and it is not minimized already. -/
def minimize (s : Session) (debug : Bool) : Reply (Option AnyFormula) :=
  match s.subject with
  | none => ⟨none, s, s.tell (.minimized none ⟨false, false, false⟩)⟩
  | some w =>
    let needed := s.needsRun w debug
    let s := if needed then s.run w debug else s
    ⟨s.minimized?, s, s.tell (.minimized s.stored? ⟨true, s.traced, needed⟩)⟩

/-! ## Changing the formula -/

/-- Reports an error to the observers. -/
def report (s : Session) (e : Error) : Reply Unit := ⟨(), s, s.tell (.failed e)⟩

/-- The answer where something failed: nothing changes, and the observers hear of it. -/
def fail {α : Type} (s : Session) (e : Error) : Reply (Except Error α) :=
  ⟨.error e, s, (s.report e).deliveries⟩

/-- Sets the output at an index and answers whether anything changed. -/
def setValue (s : Session) (index : Nat) (output : Output) : Reply (Except Error Bool) :=
  match s.subject with
  | none => ⟨.ok false, s, []⟩
  | some w =>
    match w.formula.setAt index output with
    | .error e => s.fail e
    | .ok (changed, formula) =>
      let s := { s with subject := some { w with formula } }
      ⟨.ok changed, s, if changed then s.tell (.changed ⟨w.size, formula⟩) else []⟩

/-- Renames the variables of the formula, and then those of what it was minimized to. -/
def setVars (s : Session) (vars : List Char) : Reply (Except Error Unit) :=
  match s.subject with
  | none => ⟨.ok (), s, []⟩
  | some w =>
    match w.formula.setVars vars with
    | .error e => s.fail e
    | .ok formula =>
      match w.renamedResult vars with
      | .error e => ⟨.error e, { s with subject := some { w with formula } }, []⟩
      | .ok result =>
        let s := { s with subject := some { w with formula, result } }
        ⟨.ok (), s, s.tell (.changed ⟨w.size, formula⟩)⟩

/-- Goes over to a form, and minimizes again what was minimized. -/
def setForm (s : Session) (form : Form) : Reply Unit :=
  let s := { s with form }
  match s.subject with
  | none => ⟨(), s, []⟩
  | some w =>
    match w.formula.setForm form with
    | (false, _) => ⟨(), s, []⟩
    | (true, formula) =>
      let s := { s with subject := some { w with formula } }
      let told := s.tell (.changed ⟨w.size, formula⟩)
      if w.formula.minimized then
        let r := s.minimize s.traced
        ⟨(), r.session, told ++ r.deliveries⟩
      else ⟨(), s, told⟩

/-! ## Engines -/

/-- Selects an engine.  A different one starts without a result. -/
def setAlgorithm (s : Session) (algorithm : Algorithm) : Reply Unit :=
  if algorithm = s.algorithm then ⟨(), s, []⟩
  else
    let subject := s.subject.map fun w ↦
      { w with formula := { w.formula with minimized := false }, result := none }
    ⟨(), { s with algorithm, subject }, []⟩

/-- Puts in an Espresso engine, with its cap on the rounds and whatever trace it keeps. -/
def install (s : Session) (cap : Option Nat) (trace : Option ((n : Nat) × Espresso.Trace n)) :
    Reply Unit :=
  ⟨(), { s with cap, espressoTrace := trace }, []⟩

/-- Puts in a fresh Espresso engine that takes at most the given number of rounds. -/
def setCap (s : Session) (cap : Option Nat) : Reply Unit := s.install cap none

/-! ## Observers -/

/-- Registers an observer and answers with its number, which no other observer ever has. -/
def register (s : Session) : Reply Nat :=
  ⟨s.nextObserver,
    { s with observers := s.observers ++ [s.nextObserver], nextObserver := s.nextObserver + 1 }, []⟩

/-- Removes an observer and answers whether it was there. -/
def unregister (s : Session) (observer : Nat) : Reply Bool :=
  let left := s.observers.filter (· != observer)
  ⟨left.length != s.observers.length, { s with observers := left }, []⟩

end TwoLevel.Session
