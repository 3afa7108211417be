import TwoLevel.Formula.Basic
import TwoLevel.Term.Basic

/-!
# Making formulas

A function can be given in five ways: not at all (`Formula.new`), by the indices of its explicit and
don't care outputs (`ofIndices`), by sets of indices for each output together with names
(`ofSets`), by cubes (`ofTerms`), or by its output at every index (`ofOutputs`).

Where names are not given the number of variables must be one that can be named by default.  Where
they are given the names are checked first, then the sets against each other, and only then the
single indices.

**Sets of indices.**  Which sets are given decides the form.  With an on-set the formula is a sum of
products; with an off-set alone it is a product of sums; with neither it is an empty sum of
products.  The sets must not overlap, and where both the on-set and the off-set are given nothing
may be left out.  An index that breaks either rule is reported, the least one that overlaps before
the least one left out.
-/

set_option autoImplicit false

namespace TwoLevel

/-- Sets of indices that describe a function; repetitions and order do not matter. -/
structure IndexSets where
  /-- The indices with output one, if they are given. -/
  on : Option (List Nat)
  /-- The indices whose output does not matter. -/
  dontCare : List Nat
  /-- The indices with output zero, if they are given. -/
  off : Option (List Nat)

namespace IndexSets

/-- The members of a set in increasing order, each once. -/
def sorted (indices : List Nat) : List Nat :=
  dedupNeighbours (indices.mergeSort fun a b ↦ decide (a ≤ b))

/-- The least index that is in two of the sets. -/
def overlap? (s : IndexSets) : Option Nat :=
  let on := s.on.getD []
  let off := s.off.getD []
  (on.filter s.dontCare.contains ++ on.filter off.contains
    ++ s.dontCare.filter off.contains).min?

/-- The least index below the limit that is in none of the sets. -/
def unlisted? (s : IndexSets) (limit : Nat) : Option Nat :=
  let on := s.on.getD []
  let off := s.off.getD []
  firstBelow (fun i ↦ !on.contains i && !s.dontCare.contains i && !off.contains i) limit

/-- Refuses sets that contradict each other or, where they should be complete, are not. -/
def check (s : IndexSets) (limit : Nat) : Except Error Unit :=
  match s.overlap? with
  | some i => .error (.inconsistentSets i)
  | none =>
    if s.on.isSome && s.off.isSome then
      match s.unlisted? limit with
      | some i => .error (.inconsistentSets i)
      | none => .ok ()
    else .ok ()

/-- The form the given sets ask for, with the indices of its explicit output. -/
def explicit (s : IndexSets) : Form × List Nat :=
  match s.on, s.off with
  | some on, _ => (.sumOfProducts, sorted on)
  | none, some off => (.productOfSums, sorted off)
  | none, none => (.sumOfProducts, [])

end IndexSets

/-- The cubes of terms that all have `n` positions. -/
def cubesOfSize (n : Nat) : List Term → Except Error (Cover n)
  | [] => .ok []
  | t :: ts =>
    if h : t.size = n then (cubesOfSize n ts).map ((h ▸ t.cube) :: ·)
    else .error (.invalidTermSize t.size n)

namespace Formula

variable {n : Nat}

/-- The formula with nothing stored and default names. -/
def new (n : Nat) (form : Form) : Except Error (Formula n) := do
  checkNameable n
  .ok (ofStore (Store.empty form) defaultName (Names.default n))

/-- The formula with each of the indices pushed in turn. -/
def pushAll (f : Formula n) (isDontCare : Bool) (indices : List Nat) : Except Error (Formula n) :=
  indices.foldlM (fun g i ↦ (g.push i isDontCare).map (·.2)) f

/-- The formula with the given explicit indices, and after them the given don't cares. -/
def ofIndices (n : Nat) (form : Form) (terms dontCares : List Nat) : Except Error (Formula n) := do
  let f ← new n form
  let f ← f.pushAll false terms
  f.pushAll true dontCares

/-- The formula described by sets of indices, with the given names. -/
def ofSets (sets : IndexSets) (name : Char) (vars : List Char) :
    Except Error (Formula vars.length) := do
  checkSize vars.length
  Names.check vars.length vars
  sets.check (numPoints vars.length)
  let (form, explicit) := sets.explicit
  let f ← (ofStore (Store.empty form) name vars).pushAll false explicit
  f.pushAll true (IndexSets.sorted sets.dontCare)

/-- The formula with the given terms, which must be of one size. -/
def ofTerms (form : Form) : List Term → Except Error AnyFormula
  | [] => .error .noTerms
  | t :: ts => do
    checkNameable t.size
    let cover ← cubesOfSize t.size (t :: ts)
    .ok ⟨t.size, ofStore (Store.ofTerms form cover) defaultName (Names.default t.size)⟩

/-- The indices of the outputs that equal the given one. -/
def indicesOf (output : Output) (outputs : List Output) : List Nat :=
  (outputs.zipIdx.filter fun p ↦ p.1 == output).map (·.2)

/-- The formula with the given outputs at the first indices and the implicit one at the rest. -/
def ofOutputs (n : Nat) (form : Form) (outputs : List Output) : Except Error (Formula n) :=
  ofIndices n form (indicesOf form.explicit outputs) (indicesOf .dontCare outputs)

end Formula

end TwoLevel
