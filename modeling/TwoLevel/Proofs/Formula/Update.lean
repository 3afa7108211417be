import TwoLevel.Formula.Basic
import TwoLevel.Proofs.Store.Update

/-!
# Outputs set in a formula

Three mutators set the output at an index: `setAt` to any output, `push` and `remove` to those that
a stored cube and its absence stand for.  They keep one law, whatever cubes the formula is stored
as.  An index outside the space is refused.  Any other index has the output afterwards, no other
index has a different one than before, and the answer says whether that is a change; a change starts
the formula's progress afresh, and where there is none the formula is the one that was given.

`IsUpdate` is that law for what comes back, `SetsOutput` for the whole answer.  That a refused
request leaves the formula alone needs no statement: an error carries no formula.
-/

set_option autoImplicit false

namespace TwoLevel.Formula

variable {n : Nat}

/-! ## The law -/

/-- How the formula `g`, and the mark that says whether anything changed, come from setting the
output at an index of the space. -/
structure IsUpdate (f : Formula n) (index : Nat) (output : Output) (changed : Bool)
    (g : Formula n) : Prop where
  /-- It is a change if the output was another. -/
  changed_iff : changed = true ↔ f.store.valueAt index ≠ .ok output
  /-- The index has the output. -/
  valueAt_self : g.store.valueAt index = .ok output
  /-- Every other index has the output it had. -/
  valueAt_of_ne : ∀ i, i ≠ index → g.store.valueAt i = f.store.valueAt i
  /-- Without a change everything is as it was. -/
  eq_of_unchanged : changed = false → g = f
  /-- A change takes the mark away and puts the phase back to the start. -/
  restarts : changed = true → g.minimized = false ∧ g.phase = .complete
  /-- Form and names stay. -/
  keeps : g.form = f.form ∧ g.name = f.name ∧ g.vars = f.vars

/-- The answer to a request for an output at an index: an update of the formula, or the refusal of
an index that is not below the number of points. -/
def SetsOutput (f : Formula n) (index : Nat) (output : Output)
    (answer : Except Error (Bool × Formula n)) : Prop :=
  if index < numPoints n then
    ∃ changed g, answer = .ok (changed, g) ∧ f.IsUpdate index output changed g
  else answer = .error (.invalidIndex index (numPoints n))

/-! ## The mutators -/

variable (f : Formula n) {index : Nat} {output : Output}

theorem setAt_of_lt (h : index < numPoints n) :
    f.setAt index output =
      .ok (decide (f.store.value (BitVec.ofNat n index) ≠ output),
        f.update (decide (f.store.value (BitVec.ofNat n index) ≠ output))
          (f.store.set (BitVec.ofNat n index) output)) := by
  rw [setAt, Store.setAt_of_lt h]
  rfl

theorem setAt_of_le (h : numPoints n ≤ index) :
    f.setAt index output = .error (.invalidIndex index (numPoints n)) := by
  rw [setAt, Store.setAt_of_le h]
  rfl

/-- Where the output is there already the formula is its own update. -/
theorem isUpdate_self (h : f.store.valueAt index = .ok output) :
    f.IsUpdate index output false f where
  changed_iff := iff_of_false Bool.false_ne_true (not_not_intro h)
  valueAt_self := h
  valueAt_of_ne _ _ := rfl
  eq_of_unchanged _ := rfl
  restarts hchanged := absurd hchanged Bool.false_ne_true
  keeps := ⟨rfl, rfl, rfl⟩

/-- Where another output is there the formula over the changed store is an update. -/
theorem isUpdate_update (h : index < numPoints n) (hne : f.store.valueAt index ≠ .ok output) :
    f.IsUpdate index output true (f.update true (f.store.set (BitVec.ofNat n index) output)) where
  changed_iff := iff_of_true rfl hne
  valueAt_self := f.store.valueAt_set_self h output
  valueAt_of_ne _ hi := f.store.valueAt_set_of_ne h hi output
  eq_of_unchanged hchanged := absurd hchanged.symm Bool.false_ne_true
  restarts _ := ⟨rfl, rfl⟩
  keeps := ⟨f.store.form_set _ output, rfl, rfl⟩

theorem setsOutput_setAt (index : Nat) (output : Output) :
    f.SetsOutput index output (f.setAt index output) := by
  rw [SetsOutput]
  split
  · next h =>
    refine ⟨_, _, f.setAt_of_lt h, ?_⟩
    by_cases hv : f.store.value (BitVec.ofNat n index) = output
    · rw [decide_eq_false (not_not_intro hv), Store.set_of_value_eq hv]
      refine f.isUpdate_self ?_
      rw [Store.valueAt_of_lt h, hv]
    · rw [decide_eq_true hv]
      refine f.isUpdate_update h fun hval ↦ hv ?_
      rw [Store.valueAt_of_lt h] at hval
      exact Except.ok.inj hval
  · next h => exact f.setAt_of_le (Nat.not_lt.1 h)

/-- What comes back from setting an output is an update. -/
theorem isUpdate_of_setAt {f g : Formula n} {changed : Bool}
    (h : f.setAt index output = .ok (changed, g)) : f.IsUpdate index output changed g := by
  have hlaw := f.setsOutput_setAt index output
  rw [SetsOutput, h] at hlaw
  split at hlaw
  · obtain ⟨_, _, heq, hupdate⟩ := hlaw
    cases heq
    exact hupdate
  · cases hlaw

/-- **Outputs are set point by point.**  Whatever a formula is stored as, each of the mutators sets
the output it stands for at the index, and changes no other; an index outside the space is refused.
A real change starts the formula's progress afresh, and any other request changes nothing at all. -/
theorem mutators_set_one_output (f : Formula n) (index : Nat) :
    (∀ output, f.SetsOutput index output (f.setAt index output)) ∧
    (∀ isDontCare, f.SetsOutput index (if isDontCare then .dontCare else f.form.explicit)
      (f.push index isDontCare)) ∧
    f.SetsOutput index f.form.implicit (f.remove index) :=
  ⟨f.setsOutput_setAt index, fun _ ↦ f.setsOutput_setAt index _, f.setsOutput_setAt index _⟩

end TwoLevel.Formula
