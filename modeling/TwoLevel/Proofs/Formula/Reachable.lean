import TwoLevel.QuineMcCluskey
import TwoLevel.Espresso
import TwoLevel.Formula.Construct
import TwoLevel.Proofs.Formula.Names
import TwoLevel.Proofs.Store.Value

/-!
# The formulas there are

Formulas are made by the constructors, changed by the mutators, and handed out by the engines: the
answer, the formula that was given, and the steps of a trace.  `Formula.Reachable` is what all of
these together lead to.  A session adds nothing of its own, except that it takes the mark of a
minimized formula away.

Whatever the way, the store of such a formula is one that operations on stores lead to
(`Reachable.store`).  A formula's names and marks say nothing about the function, so no more is
needed where only the function matters.  Where the names matter too, they are names that variables
can have (`Reachable.areValid`): names come in only as defaults or past the check, and everything
else hands them on.
-/

set_option autoImplicit false

namespace TwoLevel

namespace Formula

/-! ## Reachable formulas -/

/-- A formula that constructors, mutators and engines lead to. -/
inductive Reachable : {n : Nat} → Formula n → Prop
  /-- Nothing is stored. -/
  | new {n : Nat} {form : Form} {f : Formula n} (h : Formula.new n form = .ok f) : Reachable f
  /-- Indices are given. -/
  | ofIndices {n : Nat} {form : Form} {terms dontCares : List Nat} {f : Formula n}
      (h : Formula.ofIndices n form terms dontCares = .ok f) : Reachable f
  /-- Sets of indices are given. -/
  | ofSets {sets : IndexSets} {name : Char} {vars : List Char} {f : Formula vars.length}
      (h : Formula.ofSets sets name vars = .ok f) : Reachable f
  /-- Terms are given. -/
  | ofTerms {form : Form} {terms : List Term} {f : AnyFormula}
      (h : Formula.ofTerms form terms = .ok f) : Reachable f.2
  /-- Outputs are given. -/
  | ofOutputs {n : Nat} {form : Form} {outputs : List Output} {f : Formula n}
      (h : Formula.ofOutputs n form outputs = .ok f) : Reachable f
  /-- The output at an index is set. -/
  | setAt {n : Nat} {f g : Formula n} {index : Nat} {output : Output} {changed : Bool}
      (h : Reachable f) (hset : f.setAt index output = .ok (changed, g)) : Reachable g
  /-- The form is changed. -/
  | setForm {n : Nat} {f : Formula n} (h : Reachable f) (form : Form) : Reachable (f.setForm form).2
  /-- The function is renamed. -/
  | setName {n : Nat} {f : Formula n} (h : Reachable f) (name : Char) : Reachable (f.setName name)
  /-- The variables are renamed. -/
  | setVars {n : Nat} {f g : Formula n} {vars : List Char} (h : Reachable f)
      (hset : f.setVars vars = .ok g) : Reachable g
  /-- The variables get their default names back. -/
  | setDefaultVars {n : Nat} {f : Formula n} (h : Reachable f) : Reachable f.setDefaultVars
  /-- An engine has been given the formula. -/
  | mark {n : Nat} {f : Formula n} (h : Reachable f) : Reachable f.mark
  /-- A session takes the mark away. -/
  | unmark {n : Nat} {f : Formula n} (h : Reachable f) : Reachable { f with minimized := false }
  /-- The first engine answers. -/
  | quineMcCluskey {n : Nat} {f : Formula n} (h : Reachable f) (debug : Bool) :
      Reachable (QuineMcCluskey.minimize f debug).minimized
  /-- The second engine answers. -/
  | espresso {n : Nat} {f : Formula n} (h : Reachable f) (cap : Option Nat) (debug : Bool) :
      Reachable (Espresso.minimize cap f debug).minimized
  /-- The second engine shows what it did. -/
  | step {n : Nat} {f : Formula n} (h : Reachable f) {cap : Option Nat} {debug : Bool}
      {trace : Espresso.Trace n} (htrace : (Espresso.minimize cap f debug).trace = some trace)
      {s : Espresso.Step n} (hs : s ∈ trace.steps) : Reachable s.formula

/-! ## Their stores -/

variable {n : Nat}

theorem reachable_store_ofStore_empty (form : Form) (name : Char) (vars : List Char) :
    (ofStore (Store.empty form : Store n) name vars).store.Reachable :=
  Store.Reachable.empty form

theorem reachable_store_derive (f : Formula n) (cover : Cover n) :
    (f.derive cover).store.Reachable :=
  Store.Reachable.ofTerms f.store.form cover

@[simp]
theorem store_update (f : Formula n) (changed : Bool) (store : Store n) :
    (f.update changed store).store = store := by
  rw [update]
  split <;> rfl

/-- Setting an output is setting it in the store. -/
theorem store_of_setAt {f g : Formula n} {index : Nat} {output : Output} {changed : Bool}
    (h : f.setAt index output = .ok (changed, g)) :
    ∃ x, g.store = f.store.set x output := by
  obtain ⟨⟨c, s⟩, hs, hg⟩ := bind_eq_ok_iff.1 h
  obtain ⟨x, _, hx⟩ := bind_eq_ok_iff.1 hs
  cases hx
  cases hg
  exact ⟨x, store_update _ _ _⟩

theorem reachable_store_of_setAt {f g : Formula n} {index : Nat} {output : Output} {changed : Bool}
    (hf : f.store.Reachable) (h : f.setAt index output = .ok (changed, g)) : g.store.Reachable := by
  obtain ⟨x, hx⟩ := store_of_setAt h
  rw [hx]
  exact hf.set x output

/-- What setting one output preserves is preserved by pushing any number of indices. -/
theorem pushAll_preserves {P : Formula n → Prop}
    (hset : ∀ {f g : Formula n} {index : Nat} {output : Output} {changed : Bool},
      P f → f.setAt index output = .ok (changed, g) → P g)
    {f g : Formula n} {isDontCare : Bool} {indices : List Nat} (hf : P f)
    (h : f.pushAll isDontCare indices = .ok g) : P g := by
  induction indices generalizing f with
  | nil =>
    cases h
    exact hf
  | cons i indices ih =>
    rw [pushAll, List.foldlM_cons] at h
    obtain ⟨f', hf', h⟩ := bind_eq_ok_iff.1 h
    obtain ⟨⟨changed, f''⟩, hpush, rfl⟩ := map_eq_ok_iff.1 hf'
    exact ih (hset hf hpush) h

theorem reachable_store_of_pushAll {f g : Formula n} {isDontCare : Bool} {indices : List Nat}
    (hf : f.store.Reachable) (h : f.pushAll isDontCare indices = .ok g) : g.store.Reachable :=
  pushAll_preserves (P := fun g ↦ g.store.Reachable) reachable_store_of_setAt hf h

theorem reachable_store_of_new {form : Form} {f : Formula n} (h : Formula.new n form = .ok f) :
    f.store.Reachable := by
  obtain ⟨_, _, hf⟩ := bind_eq_ok_iff.1 h
  cases hf
  exact reachable_store_ofStore_empty form _ _

theorem reachable_store_of_ofIndices {form : Form} {terms dontCares : List Nat} {f : Formula n}
    (h : Formula.ofIndices n form terms dontCares = .ok f) : f.store.Reachable := by
  obtain ⟨f₀, hnew, h⟩ := bind_eq_ok_iff.1 h
  obtain ⟨f₁, hterms, h⟩ := bind_eq_ok_iff.1 h
  have h₁ := reachable_store_of_pushAll (reachable_store_of_new hnew) hterms
  exact reachable_store_of_pushAll h₁ h

theorem reachable_store_of_ofSets {sets : IndexSets} {name : Char} {vars : List Char}
    {f : Formula vars.length} (h : Formula.ofSets sets name vars = .ok f) : f.store.Reachable := by
  obtain ⟨_, _, h⟩ := bind_eq_ok_iff.1 h
  obtain ⟨_, _, h⟩ := bind_eq_ok_iff.1 h
  obtain ⟨_, _, h⟩ := bind_eq_ok_iff.1 h
  obtain ⟨f₁, hterms, h⟩ := bind_eq_ok_iff.1 h
  have h₁ := reachable_store_of_pushAll (reachable_store_ofStore_empty _ _ _) hterms
  exact reachable_store_of_pushAll h₁ h

theorem reachable_store_of_ofTerms {form : Form} {terms : List Term} {f : AnyFormula}
    (h : Formula.ofTerms form terms = .ok f) : f.2.store.Reachable := by
  cases terms with
  | nil => cases h
  | cons t ts =>
    obtain ⟨_, _, h⟩ := bind_eq_ok_iff.1 h
    obtain ⟨cover, _, h⟩ := bind_eq_ok_iff.1 h
    cases h
    exact Store.Reachable.ofTerms form cover

theorem reachable_store_of_setForm {f : Formula n} (hf : f.store.Reachable) (form : Form) :
    (f.setForm form).2.store.Reachable := by
  show (f.update _ _).store.Reachable
  rw [store_update]
  exact hf.setForm form

/-- The engines' formulas are made from covers. -/
theorem reachable_store_minimizedTo (f : Formula n) (cover : Cover n) :
    (f.minimizedTo cover).store.Reachable :=
  Store.Reachable.ofTerms f.store.form cover

theorem reachable_store_quineMcCluskey (f : Formula n) (debug : Bool) :
    (QuineMcCluskey.minimize f debug).minimized.store.Reachable := by
  rw [QuineMcCluskey.minimize]
  simp only
  split
  · exact reachable_store_minimizedTo f _
  · exact reachable_store_minimizedTo f _

/-- Each step of a trace has the formula over the cover of a phase, or the answer. -/
theorem formula_of_mem_steps {f : Formula n} {cap : Option Nat} {debug : Bool}
    {trace : Espresso.Trace n} (htrace : (Espresso.minimize cap f debug).trace = some trace)
    {s : Espresso.Step n} (hs : s ∈ trace.steps) :
    (∃ phase cover, s.formula = { f.derive cover with phase }) ∨
      ∃ cover, s.formula = f.minimizedTo cover := by
  obtain ⟨_, hrun⟩ := Option.ite_none_right_eq_some.1 htrace
  cases hrun
  rw [Espresso.Trace.ofRun, List.mem_append, List.mem_map, List.mem_singleton] at hs
  rcases hs with ⟨snapshot, _, rfl⟩ | rfl
  · exact Or.inl ⟨_, _, rfl⟩
  · exact Or.inr ⟨_, rfl⟩

theorem reachable_store_of_mem_steps {f : Formula n} {cap : Option Nat} {debug : Bool}
    {trace : Espresso.Trace n} (htrace : (Espresso.minimize cap f debug).trace = some trace)
    {s : Espresso.Step n} (hs : s ∈ trace.steps) : s.formula.store.Reachable := by
  obtain ⟨_, cover, hs⟩ | ⟨cover, hs⟩ := formula_of_mem_steps htrace hs
  · rw [hs]
    exact reachable_store_derive f cover
  · rw [hs]
    exact reachable_store_minimizedTo f cover

/-- **The store of a formula is one that operations on stores lead to.** -/
theorem Reachable.store {f : Formula n} (h : f.Reachable) : f.store.Reachable := by
  induction h with
  | new h => exact reachable_store_of_new h
  | ofIndices h => exact reachable_store_of_ofIndices h
  | ofSets h => exact reachable_store_of_ofSets h
  | ofTerms h => exact reachable_store_of_ofTerms h
  | ofOutputs h => exact reachable_store_of_ofIndices h
  | setAt _ hset ih => exact reachable_store_of_setAt ih hset
  | setForm _ form ih => exact reachable_store_of_setForm ih form
  | setName _ _ ih => exact ih
  | setVars _ hset ih =>
    obtain ⟨_, _, hg⟩ := bind_eq_ok_iff.1 hset
    cases hg
    exact ih
  | setDefaultVars _ ih => exact ih
  | mark _ ih => exact ih
  | unmark _ ih => exact ih
  | quineMcCluskey _ debug _ => exact reachable_store_quineMcCluskey _ debug
  | espresso _ cap debug _ => exact reachable_store_minimizedTo _ _
  | step _ htrace hs _ => exact reachable_store_of_mem_steps htrace hs

/-! ## Their names -/

@[simp]
theorem vars_update (f : Formula n) (changed : Bool) (store : Store n) :
    (f.update changed store).vars = f.vars := by
  rw [update]
  split <;> rfl

theorem vars_of_setAt {f g : Formula n} {index : Nat} {output : Output} {changed : Bool}
    (h : f.setAt index output = .ok (changed, g)) : g.vars = f.vars := by
  obtain ⟨⟨c, s⟩, _, hg⟩ := bind_eq_ok_iff.1 h
  cases hg
  exact vars_update _ _ _

theorem vars_of_pushAll {f g : Formula n} {isDontCare : Bool} {indices : List Nat}
    (h : f.pushAll isDontCare indices = .ok g) : g.vars = f.vars :=
  pushAll_preserves (P := fun g ↦ g.vars = f.vars)
    (fun hvars hset ↦ (vars_of_setAt hset).trans hvars) rfl h

theorem areValid_of_new {form : Form} {f : Formula n} (h : Formula.new n form = .ok f) :
    Names.AreValid n f.vars := by
  obtain ⟨_, hn, hf⟩ := bind_eq_ok_iff.1 h
  cases hf
  exact Names.areValid_default (checkNameable_eq_ok_iff.1 hn)

theorem areValid_of_ofIndices {form : Form} {terms dontCares : List Nat} {f : Formula n}
    (h : Formula.ofIndices n form terms dontCares = .ok f) : Names.AreValid n f.vars := by
  obtain ⟨f₀, hnew, h⟩ := bind_eq_ok_iff.1 h
  obtain ⟨f₁, hterms, h⟩ := bind_eq_ok_iff.1 h
  rw [vars_of_pushAll h, vars_of_pushAll hterms]
  exact areValid_of_new hnew

theorem areValid_of_ofSets {sets : IndexSets} {name : Char} {vars : List Char}
    {f : Formula vars.length} (h : Formula.ofSets sets name vars = .ok f) :
    Names.AreValid vars.length f.vars := by
  obtain ⟨_, _, h⟩ := bind_eq_ok_iff.1 h
  obtain ⟨_, hnames, h⟩ := bind_eq_ok_iff.1 h
  obtain ⟨_, _, h⟩ := bind_eq_ok_iff.1 h
  obtain ⟨f₁, hterms, h⟩ := bind_eq_ok_iff.1 h
  rw [vars_of_pushAll h, vars_of_pushAll hterms]
  exact Names.check_eq_ok_iff.1 hnames

theorem areValid_of_ofTerms {form : Form} {terms : List Term} {f : AnyFormula}
    (h : Formula.ofTerms form terms = .ok f) : Names.AreValid f.1 f.2.vars := by
  cases terms with
  | nil => cases h
  | cons t ts =>
    obtain ⟨_, hn, h⟩ := bind_eq_ok_iff.1 h
    obtain ⟨cover, _, h⟩ := bind_eq_ok_iff.1 h
    cases h
    exact Names.areValid_default (checkNameable_eq_ok_iff.1 hn)

theorem vars_quineMcCluskey (f : Formula n) (debug : Bool) :
    (QuineMcCluskey.minimize f debug).minimized.vars = f.vars := by
  rw [QuineMcCluskey.minimize]
  simp only
  split <;> rfl

theorem vars_of_mem_steps {f : Formula n} {cap : Option Nat} {debug : Bool}
    {trace : Espresso.Trace n} (htrace : (Espresso.minimize cap f debug).trace = some trace)
    {s : Espresso.Step n} (hs : s ∈ trace.steps) : s.formula.vars = f.vars := by
  obtain ⟨_, _, hs⟩ | ⟨_, hs⟩ := formula_of_mem_steps htrace hs
  · rw [hs]
    rfl
  · rw [hs]
    rfl

/-- **The names of a formula's variables are names that variables can have.** -/
theorem Reachable.areValid {f : Formula n} (h : f.Reachable) : Names.AreValid n f.vars := by
  induction h with
  | new h => exact areValid_of_new h
  | ofIndices h => exact areValid_of_ofIndices h
  | ofSets h => exact areValid_of_ofSets h
  | ofTerms h => exact areValid_of_ofTerms h
  | ofOutputs h => exact areValid_of_ofIndices h
  | setAt _ hset ih => exact (vars_of_setAt hset).symm ▸ ih
  | setForm _ form ih => exact (vars_update _ _ _).symm ▸ ih
  | setName _ _ ih => exact ih
  | setVars _ hset ih =>
    obtain ⟨_, hnames, hg⟩ := bind_eq_ok_iff.1 hset
    cases hg
    exact Names.check_eq_ok_iff.1 hnames
  | setDefaultVars _ ih => exact Names.areValid_default ih.le_maxNamed
  | mark _ ih => exact ih
  | unmark _ ih => exact ih
  | quineMcCluskey _ debug ih => exact (vars_quineMcCluskey _ debug).symm ▸ ih
  | espresso _ cap debug ih => exact ih
  | step _ htrace hs ih => exact (vars_of_mem_steps htrace hs).symm ▸ ih

end Formula

end TwoLevel
