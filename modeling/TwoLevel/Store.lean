import TwoLevel.Term.Basic
import TwoLevel.Cover.Basic

/-!
# Stored functions

A `Store` holds a Boolean function with don't cares in one form: the cubes where the function has
the form's explicit output, and the cubes where it does not matter.  Everything covered by neither
has the implicit output.  Where a cube of each kind covers a point, the don't care wins.

**Changing one point.**  `Store.set` gives a point a new output.  A stored cube that covers the
point with another output is replaced by the parts of it that do not (`Cube.without`); if the new
output is one that is stored, the point is added as a cube of its own.  Nothing happens where the
point has the output already, and the result says so.

**The complement.**  The points covered by nothing are the terms of the other form.  Finding them
means walking the whole space, so they are a thunk, made afresh by whatever changes the store and
computed at the first reading.  `Store.setForm` exchanges the two sets of points, and what were the
terms becomes the complement without another walk.
-/

set_option autoImplicit false

namespace TwoLevel

/-- A Boolean function in one form. -/
structure Store (n : Nat) where
  /-- The form whose explicit output the terms stand for. -/
  form : Form
  /-- The cubes with the explicit output. -/
  terms : Cover n
  /-- The cubes where the output does not matter. -/
  dontCares : Cover n
  /-- The points that neither covers, in increasing order. -/
  complement : Thunk (List (BitVec n))

/-- The point with the given index, which has to be below the number of points. -/
def checkIndex (n index : Nat) : Except Error (BitVec n) :=
  if index < numPoints n then .ok (BitVec.ofNat n index)
  else .error (.invalidIndex index (numPoints n))

namespace Store

variable {n : Nat}

/-! ## Building stores -/

/-- The points that no cube of either list covers, in increasing order. -/
def uncovered (terms dontCares : Cover n) : List (BitVec n) :=
  (allPoints n).filter fun x ↦ !(terms.covers x || dontCares.covers x)

/-- The store with the given cubes, its complement still to be found. -/
def ofCubes (form : Form) (terms dontCares : Cover n) : Store n where
  form := form
  terms := terms
  dontCares := dontCares
  complement := Thunk.mk fun _ ↦ uncovered terms dontCares

/-- The store without cubes. -/
def empty (form : Form) : Store n := ofCubes form [] []

/-- The store with the given terms, each once, and no don't cares. -/
def ofTerms (form : Form) (terms : Cover n) : Store n := ofCubes form (firsts terms) []

/-! ## Reading -/

/-- The number of stored cubes, don't cares included. -/
def size (s : Store n) : Nat := s.terms.length + s.dontCares.length

/-- Whether nothing is stored. -/
def isEmpty (s : Store n) : Bool := s.terms.isEmpty && s.dontCares.isEmpty

/-- Whether a term is stored, as a term or as a don't care. -/
def has (s : Store n) (c : Cube n) : Bool := s.terms.contains c || s.dontCares.contains c

/-- Whether a term is stored; one of another size is not. -/
def hasTerm (s : Store n) (t : Term) : Bool :=
  if h : t.size = n then s.has (h ▸ t.cube) else false

/-- The output at a point. -/
def value (s : Store n) (x : BitVec n) : Output :=
  if s.dontCares.covers x then .dontCare
  else if s.terms.covers x then s.form.explicit
  else s.form.implicit

/-- The output at an index. -/
def valueAt (s : Store n) (index : Nat) : Except Error Output := do
  let x ← checkIndex n index
  .ok (s.value x)

/-- The points where the output does not matter, in increasing order. -/
def expandedDontCares (s : Store n) : List (BitVec n) := sortedPoints s.dontCares

/-- The points with the explicit output, in increasing order. -/
def expandedTerms (s : Store n) : List (BitVec n) :=
  (sortedPoints s.terms).filter fun x ↦ !s.dontCares.covers x

/-- The points with the given output, in increasing order. -/
def points (s : Store n) (output : Output) : List (BitVec n) :=
  if output = .dontCare then s.expandedDontCares
  else if output = s.form.explicit then s.expandedTerms
  else s.complement.get

/-! ## Changing one point -/

/-- The cubes already treated, with one more cube treated: it is kept if it does not cover the
point, and otherwise its parts around the point are added, except those that are there already. -/
def splitInto (x : BitVec n) (treated : Cover n) (c : Cube n) : Cover n :=
  if c.covers x then
    (c.without x).foldl (fun out part ↦ if out.contains part then out else out ++ [part]) treated
  else treated ++ [c]

/-- A cover with every cube around the point replaced by its parts. -/
def splitOff (x : BitVec n) (f : Cover n) : Cover n :=
  if f.covers x then f.foldl (splitInto x) [] else f

/-- The store with the given output at a point. -/
def set (s : Store n) (x : BitVec n) (output : Output) : Store n :=
  if s.value x = output then s
  else
    let terms := splitOff x s.terms
    let dontCares := splitOff x s.dontCares
    if output = .dontCare then ofCubes s.form terms (dontCares ++ [Cube.minterm x])
    else if output = s.form.explicit then ofCubes s.form (terms ++ [Cube.minterm x]) dontCares
    else ofCubes s.form terms dontCares

/-- The store with the given output at an index, and whether that is a change. -/
def setAt (s : Store n) (index : Nat) (output : Output) : Except Error (Bool × Store n) := do
  let x ← checkIndex n index
  .ok (decide (s.value x ≠ output), s.set x output)

/-! ## Changing everything -/

/-- The same function in the given form, and whether that is a change. -/
def setForm (s : Store n) (form : Form) : Bool × Store n :=
  if form = s.form then (false, s)
  else
    (true, {
      form := form
      terms := s.complement.get.map Cube.minterm
      dontCares := s.expandedDontCares.map Cube.minterm
      complement := Thunk.pure s.expandedTerms })

/-- The store with nothing left in it. -/
def clear (s : Store n) : Store n := empty s.form

/-! ## Equality -/

/-- Whether two lists are equally long and every cube of the first is in the second; for lists
without repetitions, whether they hold the same cubes in some order. -/
def sameCubes (f g : Cover n) : Bool := f.length == g.length && f.all fun c ↦ g.contains c

/-- Whether two stores hold the same cubes in the same form. -/
def equal (s t : Store n) : Bool :=
  decide (s.form = t.form) && sameCubes s.terms t.terms && sameCubes s.dontCares t.dontCares

end Store

end TwoLevel
