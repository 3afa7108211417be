import TwoLevel.Proofs.Store.Views

/-!
# Runs of operations on a store

A store is made in one of two ways (`Store.Origin`).  After that it is changed and read, put aside
and taken up again.  Each of these is a `Store.Command`, and a `Store.Draft`, a store with the copy
that was put aside, goes through a list of them, those that are refused included.

Reading the complement is a command because it leaves something behind: where the store held a
computation it holds its result (`Store.read`), until the next change.  So a run leads to stores of
both kinds, and what is shown of all runs holds whether or not the complement has been computed.

What setting an output, changing the form and clearing a store preserve therefore holds all through
a run (`IsPreserved.after`).  The stores of a run are reachable ones (`reachable_after`), and two
things follow.  All views of a store agree (`ViewsAgree`); and a change of form keeps the function
(`SwitchesForm`), although it puts the former terms in the place of the complement without looking
at them.
-/

set_option autoImplicit false

namespace TwoLevel

/-! ## The other form -/

namespace Form

/-- The form that a form is not. -/
def other : Form → Form
  | .sumOfProducts => .productOfSums
  | .productOfSums => .sumOfProducts

theorem other_ne (form : Form) : form.other ≠ form := by
  cases form <;> decide

@[simp]
theorem other_other (form : Form) : form.other.other = form := by
  cases form <;> rfl

@[simp]
theorem explicit_other (form : Form) : form.other.explicit = form.implicit := by
  cases form <;> rfl

@[simp]
theorem implicit_other (form : Form) : form.other.implicit = form.explicit := by
  cases form <;> rfl

end Form

namespace Store

variable {n : Nat}

/-! ## Commands -/

/-- How a store is made. -/
inductive Origin (n : Nat) where
  /-- Nothing is stored. -/
  | empty (form : Form)
  /-- Cubes are stored as they are given. -/
  | ofTerms (form : Form) (terms : Cover n)

/-- The store that is made. -/
def Origin.store : Origin n → Store n
  | .empty form => Store.empty form
  | .ofTerms form terms => Store.ofTerms form terms

/-- What can be asked of a store. -/
inductive Command where
  /-- An index gets the output of a stored term or of a stored don't care. -/
  | push (index : Nat) (isDontCare : Bool)
  /-- An index gets the output of an index nothing is stored for. -/
  | remove (index : Nat)
  /-- The form is changed. -/
  | setForm (form : Form)
  /-- Everything is taken out. -/
  | clear
  /-- The complement is read. -/
  | read
  /-- A copy is put aside. -/
  | save
  /-- The copy is taken up again. -/
  | restore

/-- The store after its complement has been read: the result is kept in place of the computation. -/
def read (s : Store n) : Store n := { s with complement := Thunk.pure s.complement.get }

/-- The store after an output has been asked for at an index, which may have been refused. -/
def afterSetAt (s : Store n) (index : Nat) (output : Output) : Store n :=
  match s.setAt index output with
  | .ok (_, t) => t
  | .error _ => s

/-- A store with the copy of it that was put aside last. -/
structure Draft (n : Nat) where
  /-- The store that is worked on. -/
  current : Store n
  /-- The copy. -/
  saved : Store n

/-- Does what is asked. -/
def Draft.perform (d : Draft n) : Command → Draft n
  | .push index isDontCare =>
    let output := if isDontCare then .dontCare else d.current.form.explicit
    { d with current := d.current.afterSetAt index output }
  | .remove index => { d with current := d.current.afterSetAt index d.current.form.implicit }
  | .setForm form => { d with current := (d.current.setForm form).2 }
  | .clear => { d with current := d.current.clear }
  | .read => { d with current := d.current.read }
  | .save => { d with saved := d.current }
  | .restore => { d with current := d.saved }

/-- The store after some commands, the first copy being of the store as it is made. -/
def Origin.after (o : Origin n) (cs : List Command) : Store n :=
  (cs.foldl Draft.perform ⟨o.store, o.store⟩).current

/-! ## What a run leads to -/

theorem Origin.reachable_store (o : Origin n) : o.store.Reachable := by
  cases o with
  | empty form => exact .empty form
  | ofTerms form terms => exact .ofTerms form terms

/-- A computation and its result are the same thunk. -/
@[simp]
theorem read_eq (s : Store n) : s.read = s := rfl

/-- An output is set where there is such an index, and otherwise the store stays as it is. -/
theorem afterSetAt_cases (s : Store n) (index : Nat) (output : Output) :
    index < numPoints n ∧ s.afterSetAt index output = s.set (BitVec.ofNat n index) output ∨
    numPoints n ≤ index ∧ s.afterSetAt index output = s := by
  rw [afterSetAt]
  rcases Nat.lt_or_ge index (numPoints n) with hlt | hle
  · rw [setAt_of_lt hlt]
    exact Or.inl ⟨hlt, rfl⟩
  · rw [setAt_of_le hle]
    exact Or.inr ⟨hle, rfl⟩

/-- A property of stores that no operation destroys. -/
structure IsPreserved (p : Store n → Prop) : Prop where
  /-- It outlives a new output at a point. -/
  set : ∀ {s}, p s → ∀ x output, p (s.set x output)
  /-- It outlives a change of form. -/
  setForm : ∀ {s}, p s → ∀ form, p (s.setForm form).2
  /-- It outlives the loss of everything that is stored. -/
  clear : ∀ {s}, p s → p s.clear

namespace IsPreserved

variable {p : Store n → Prop}

theorem afterSetAt (h : IsPreserved p) {s : Store n} (hs : p s) (index : Nat) (output : Output) :
    p (s.afterSetAt index output) := by
  rcases s.afterSetAt_cases index output with ⟨_, heq⟩ | ⟨_, heq⟩
  · rw [heq]
    exact h.set hs _ output
  · rw [heq]
    exact hs

/-- **No command destroys it**, in the store that is worked on or in the copy. -/
theorem perform (h : IsPreserved p) {d : Draft n} (hcurrent : p d.current) (hsaved : p d.saved)
    (c : Command) : p (d.perform c).current ∧ p (d.perform c).saved := by
  cases c with
  | push index isDontCare => exact ⟨h.afterSetAt hcurrent index _, hsaved⟩
  | remove index => exact ⟨h.afterSetAt hcurrent index _, hsaved⟩
  | setForm form => exact ⟨h.setForm hcurrent form, hsaved⟩
  | clear => exact ⟨h.clear hcurrent, hsaved⟩
  | read =>
    refine ⟨?_, hsaved⟩
    show p d.current.read
    rw [read_eq]
    exact hcurrent
  | save => exact ⟨hcurrent, hcurrent⟩
  | restore => exact ⟨hsaved, hsaved⟩

theorem foldl (h : IsPreserved p) {d : Draft n} (hcurrent : p d.current) (hsaved : p d.saved)
    (cs : List Command) : p (cs.foldl Draft.perform d).current := by
  induction cs generalizing d with
  | nil => exact hcurrent
  | cons c cs ih =>
    obtain ⟨hcurrent, hsaved⟩ := h.perform hcurrent hsaved c
    exact ih hcurrent hsaved

/-- **What holds of a store as it is made holds after every run.** -/
theorem after (h : IsPreserved p) {o : Origin n} (ho : p o.store) (cs : List Command) :
    p (o.after cs) :=
  h.foldl ho ho cs

end IsPreserved

/-- **A run leads to a reachable store.** -/
theorem reachable_after (o : Origin n) (cs : List Command) : (o.after cs).Reachable := by
  have hpreserved : IsPreserved (@Reachable n) := ⟨.set, .setForm, .clear⟩
  exact hpreserved.after o.reachable_store cs

/-- **The views of a store agree.**  However a store is made and whatever is done to it, in any
order: its don't cares are different minterms that no term covers, and the complement kept with it
is that of its cubes; the lists of explicit points, don't cares and complement are increasing and
divide the space between them; and a point is in the list for an output, and in the part of a
formula's partition for it, exactly when that is the output found at the point itself. -/
theorem viewsAgree_after (o : Origin n) (cs : List Command) : (o.after cs).ViewsAgree :=
  (reachable_after o cs).isConsistent.viewsAgree

/-! ## Changes of form -/

/-- The second store holds the function of the first in the other form, point by point. -/
structure IsSwitch (s t : Store n) : Prop where
  /-- The form is the other one. -/
  form_eq : t.form = s.form.other
  /-- Every index has the output it had. -/
  valueAt_eq : ∀ index, t.valueAt index = s.valueAt index
  /-- The terms are the sorted minterms of the explicit output of the new form. -/
  terms_eq : t.terms = (s.pointsWith t.form.explicit).map Cube.minterm
  /-- The don't cares are the sorted minterms of the points that do not matter. -/
  dontCares_eq : t.dontCares = (s.pointsWith .dontCare).map Cube.minterm
  /-- The complement are the formerly explicit points. -/
  complement_eq : t.complement.get = s.pointsWith s.form.explicit

/-- What changes of form do to a store. -/
structure SwitchesForm (s : Store n) : Prop where
  /-- The form that is there already changes nothing. -/
  stays : s.setForm s.form = (false, s)
  /-- The other form is a change that keeps the function.  So is the way back, and it ends with the
  terms written out point by point. -/
  switches : ∃ t, s.setForm s.form.other = (true, t) ∧ s.IsSwitch t ∧
    ∃ u, t.setForm s.form = (true, u) ∧ u.form = s.form ∧
      (∀ index, u.valueAt index = s.valueAt index) ∧
      u.terms = (s.pointsWith s.form.explicit).map Cube.minterm

variable {s t : Store n}

/-- **A change of form keeps every output.** -/
theorem IsCoherent.value_setForm_other (h : s.IsCoherent) (x : BitVec n) :
    (s.setForm s.form.other).2.value x = s.value x := by
  rw [setForm_of_ne s.form.other_ne]
  rcases s.value_cases x with hv | hv | hv
  · rw [hv, value_eq_dontCare_iff, Cover.covers_map_minterm, mem_expandedDontCares, hv]
  · rw [hv, ← s.form.implicit_other, value_eq_implicit_iff, ← Bool.not_eq_true, ← Bool.not_eq_true,
      Cover.covers_map_minterm, Cover.covers_map_minterm, mem_expandedDontCares,
      h.mem_complement, hv]
    exact ⟨s.form.explicit_ne_dontCare, s.form.explicit_ne_implicit⟩
  · rw [hv, ← s.form.explicit_other, value_eq_explicit_iff, ← Bool.not_eq_true,
      Cover.covers_map_minterm, Cover.covers_map_minterm, mem_expandedDontCares,
      h.mem_complement, hv]
    exact ⟨s.form.implicit_ne_dontCare, rfl⟩

/-- The other form holds the function as it was, and written out. -/
theorem IsCoherent.exists_isSwitch (h : s.IsCoherent) :
    ∃ t, s.setForm s.form.other = (true, t) ∧ t.IsCoherent ∧ s.IsSwitch t := by
  have hvalue := h.value_setForm_other
  have hcoherent := h.setForm s.form.other
  rw [setForm_of_ne s.form.other_ne] at hvalue hcoherent
  refine ⟨_, setForm_of_ne s.form.other_ne, hcoherent, rfl, valueAt_eq_iff.2 hvalue, ?_, ?_,
    s.expandedTerms_eq⟩
  · rw [s.form.explicit_other, ← h.complement_eq]
  · rw [← s.expandedDontCares_eq]

theorem IsCoherent.switchesForm (h : s.IsCoherent) : s.SwitchesForm := by
  obtain ⟨t, ht, hcoherent, hto⟩ := h.exists_isSwitch
  obtain ⟨u, hu, _, hback⟩ := hcoherent.exists_isSwitch
  have hform : t.form.other = s.form := by rw [hto.form_eq, s.form.other_other]
  rw [hform] at hu
  have hu_form : u.form = s.form := hback.form_eq.trans hform
  refine ⟨s.setForm_self, t, ht, hto, u, hu, hu_form, fun index ↦ ?_, ?_⟩
  · rw [hback.valueAt_eq, hto.valueAt_eq]
  · rw [hback.terms_eq, hu_form, pointsWith_congr (valueAt_eq_iff.1 hto.valueAt_eq)]

/-- **A change of form keeps the function.**  However a store is made and whatever is done to it,
whether or not its complement has been read: going over to the other form changes no output and
leaves the sorted minterms of the points with the new explicit output, those of the don't cares, and
as the complement the formerly explicit points; going back leaves the function with its terms
written out; and going over to the form that is there changes nothing. -/
theorem switchesForm_after (o : Origin n) (cs : List Command) : (o.after cs).SwitchesForm :=
  (reachable_after o cs).isCoherent.switchesForm

end Store

end TwoLevel
