import TwoLevel.Outcome
import TwoLevel.Implicant.Level
import TwoLevel.Implicant.Chart

/-!
# The Quine–McCluskey engine

The engine forms every prime implicant of a formula's explicit points and don't cares, and then
chooses a cover of the explicit points among them.  Two things about its runs are decided here.

* A run without a trace that has at most one point to work with answers with that point; there is
  nothing the other positions of a lone point could combine with.  A traced run has tables to show
  and goes the long way round, to the same answer.
* A trace is the levels, the primes and the points that head the columns.  The table of cells and
  the origins of a cube are read off those.  The marks of the covering table are one array, column
  after column, which is filled at the first reading.  For a formula without explicit points no
  table is made and the trace is empty.
-/

set_option autoImplicit false

namespace TwoLevel

variable {n : Nat}

namespace QuineMcCluskey

/-- The marks of a covering table, whether each row covers the first column, then whether each
covers the second, and so on. -/
def marks (rows : List (Cube n)) (columns : List (BitVec n)) : Array Bool :=
  (columns.flatMap fun x ↦ rows.map fun c ↦ c.covers x).toArray

/-- The record of a run. -/
structure Trace (n : Nat) where
  /-- The form of the formula. -/
  form : Form
  /-- The implicants, level by level. -/
  levels : List (Level n)
  /-- The prime implicants, which head the rows of the covering table. -/
  primes : List (Cube n)
  /-- The explicit points, which head its columns. -/
  columns : List (BitVec n)
  /-- The marks of the covering table. -/
  marks : Thunk (Array Bool)

/-- The tables for some explicit points and don't cares. -/
def Trace.ofPoints (form : Form) (on dontCare : List (BitVec n)) : Trace n :=
  if on.isEmpty then ⟨form, [], [], [], Thunk.pure #[]⟩
  else
    let levels := implicantLevels form.countedLiteral (on ++ dontCare)
    let primes := primesOf levels
    ⟨form, levels, primes, on, Thunk.mk fun _ ↦ QuineMcCluskey.marks primes on⟩

/-- The cover that is chosen from the tables. -/
def Trace.cover (t : Trace n) : Cover n := Chart.cover t.primes t.columns

/-- Whether a run without a trace has nothing to look for. -/
def isTrivial (on dontCare : List (BitVec n)) : Bool :=
  on.isEmpty || on.length == 1 && dontCare.isEmpty

/-- Minimizes a formula. -/
def minimize (f : Formula n) (debug : Bool) : Outcome n (Trace n) :=
  let on := f.store.expandedTerms
  let dontCare := f.store.expandedDontCares
  if !debug && isTrivial on dontCare then
    ⟨f.mark, f.minimizedTo (on.map Cube.minterm), none⟩
  else
    let trace := Trace.ofPoints f.form on dontCare
    ⟨f.mark, f.minimizedTo trace.cover, if debug then some trace else none⟩

namespace Trace

/-! ## Reading a trace -/

/-- Whether there were no explicit points, so that no tables were made. -/
def isEmpty (t : Trace n) : Bool := t.columns.isEmpty

/-- The largest number of missing positions of an implicant. -/
def maxMissing (t : Trace n) : Nat := t.levels.length - 1

/-- The implicants with the given numbers of missing positions and of counted literals. -/
def cell (t : Trace n) (missing counted : Nat) : List (Cube n) :=
  match t.levels[missing]? with
  | some level => Level.cell t.form.countedLiteral level.cubes counted
  | none => []

/-- Whether a cube heads a row of the covering table. -/
def isPrime (t : Trace n) (c : Cube n) : Bool := t.primes.contains c

/-- The indices that a cube of the table was combined from. -/
def origins (c : Cube n) : List Nat := (sortPoints c.points).map BitVec.toNat

/-- The numbers of counted literals for which there is a point in the table. -/
def countsOfPoints (t : Trace n) : List Nat :=
  (List.range (n + 1)).filter fun k ↦ !(t.cell 0 k).isEmpty

/-- The lowest number of counted literals of a point in the table. -/
def firstCounted? (t : Trace n) : Option Nat := t.countsOfPoints.head?

/-- The highest number of counted literals of a point in the table. -/
def lastCounted? (t : Trace n) : Option Nat := t.countsOfPoints.getLast?

/-- Whether the prime implicant of a row covers the point of a column. -/
def isCovered (t : Trace n) (row column : Nat) : Bool :=
  if row < t.primes.length ∧ column < t.columns.length then
    t.marks.get.getD (row + column * t.primes.length) false
  else false

end Trace

end QuineMcCluskey

end TwoLevel
