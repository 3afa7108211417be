import TwoLevel.Espresso
import TwoLevel.QuineMcCluskey

/-!
# Sessions

A session holds one formula at a time, what it was last minimized to, the two engines and the choice
between them.  Whoever registers as an observer is told of every change.

The state is a value and an operation is a function: it answers with a `Reply`, which is the result
for the caller, the session afterwards, and the events, each addressed to one observer, in the order
in which they are delivered.  An event goes to all observers in the order of their registration
before the next one goes to any.

**When is a result current?**  The formula carries a flag that an engine sets and every change of
the function clears.  `Session.minimized?` shows the stored result only while the flag is set, so a
result is kept through a change of names, hidden by a change of the function, and dropped where the
formula or the choice of engine is replaced.

This file has the state and what can be read from it; the operations are in
`Session/Operations.lean`.
-/

set_option autoImplicit false

namespace TwoLevel

/-! ## State -/

/-- The formula of a session with what it was last minimized to. -/
structure Subject where
  /-- The number of variables. -/
  size : Nat
  /-- The formula. -/
  formula : Formula size
  /-- What it was last minimized to. -/
  result : Option (Formula size)

/-- What the formula was last minimized to, with other names for the variables, if they can have
them. -/
def Subject.renamedResult (w : Subject) (vars : List Char) :
    Except Error (Option (Formula w.size)) :=
  match w.result with
  | none => .ok none
  | some r => (r.setVars vars).map some

/-- A session. -/
structure Session where
  /-- The formula worked on. -/
  subject : Option Subject
  /-- The trace of the last run of the Quine–McCluskey engine, if it was traced. -/
  quineMcCluskeyTrace : Option ((n : Nat) × QuineMcCluskey.Trace n)
  /-- The most rounds the Espresso engine may take, if there is a limit. -/
  cap : Option Nat
  /-- The trace of the last run of the Espresso engine, if it was traced. -/
  espressoTrace : Option ((n : Nat) × Espresso.Trace n)
  /-- The engine that minimizes. -/
  algorithm : Algorithm
  /-- The form the session was last switched to. -/
  form : Form
  /-- The observers in the order of their registration. -/
  observers : List Nat
  /-- The number that the next observer gets.  It is a natural number: that `2 ^ 64` observers are
  registered is taken to be out of reach. -/
  nextObserver : Nat

/-! ## Events -/

/-- What happened when a session was asked to minimize. -/
structure Report where
  /-- Whether there was a formula to minimize. -/
  hasFormula : Bool
  /-- Whether the engine keeps a trace of its last run. -/
  traced : Bool
  /-- Whether the engine was run for this request. -/
  ran : Bool
deriving DecidableEq

/-- What an observer is told. -/
inductive Event where
  /-- The formula was replaced or changed, and is now this. -/
  | changed (formula : AnyFormula)
  /-- Minimization was asked for, and this is the stored result. -/
  | minimized (result : Option AnyFormula) (report : Report)
  /-- Something failed. -/
  | failed (error : Error)

/-- An event on its way to one observer. -/
structure Delivery where
  /-- The observer it goes to. -/
  observer : Nat
  /-- What the observer is told. -/
  event : Event

/-- The answer to an operation. -/
structure Reply (α : Type) where
  /-- What the caller gets. -/
  value : α
  /-- The session afterwards. -/
  session : Session
  /-- What the observers are told, in order. -/
  deliveries : List Delivery

namespace Session

/-- The session nothing has happened in. -/
def new : Session where
  subject := none
  quineMcCluskeyTrace := none
  cap := none
  espressoTrace := none
  algorithm := Algorithm.default
  form := Form.default
  observers := []
  nextObserver := 0

/-- An event addressed to every observer. -/
def tell (s : Session) (event : Event) : List Delivery := s.observers.map (⟨·, event⟩)

/-! ## Reading -/

/-- The formula worked on. -/
def formula? (s : Session) : Option AnyFormula := s.subject.map fun w ↦ ⟨w.size, w.formula⟩

/-- The stored result, current or not. -/
def stored? (s : Session) : Option AnyFormula :=
  s.subject.bind fun w ↦ w.result.map (⟨w.size, ·⟩)

/-- What the formula is minimized to, if it has not changed since. -/
def minimized? (s : Session) : Option AnyFormula :=
  match s.formula? with
  | some f => if f.2.minimized then s.stored? else none
  | none => none

/-- Whether the selected engine keeps a trace of its last run. -/
def traced (s : Session) : Bool :=
  match s.algorithm with
  | .quineMcCluskey => s.quineMcCluskeyTrace.isSome
  | .espresso => s.espressoTrace.isSome

/-- The Quine–McCluskey trace that led to the current result. -/
def currentQuineMcCluskeyTrace? (s : Session) : Option ((n : Nat) × QuineMcCluskey.Trace n) :=
  if s.algorithm = .quineMcCluskey ∧ s.minimized?.isSome = true then s.quineMcCluskeyTrace else none

/-- The Espresso trace that led to the current result. -/
def currentEspressoTrace? (s : Session) : Option ((n : Nat) × Espresso.Trace n) :=
  if s.algorithm = .espresso ∧ s.minimized?.isSome = true then s.espressoTrace else none

/-- The outline of a session without a formula. -/
def idleText (s : Session) : String :=
  let algorithm :=
    match s.algorithm with
    | .quineMcCluskey => "QuineMcCluskey"
    | .espresso => "Espresso"
  let form :=
    match s.form with
    | .sumOfProducts => "Sop"
    | .productOfSums => "Pos"
  "Kernel \x7b formula: None, minimized: None, algorithm: " ++ algorithm ++ ", repre: " ++ form
    ++ ", events: " ++ toString s.observers.length ++ " observers \x7d"

end Session

end TwoLevel
