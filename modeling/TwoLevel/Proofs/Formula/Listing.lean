import TwoLevel.Formula.Construct
import TwoLevel.Proofs.Formula.Names
import TwoLevel.Proofs.Formula.Reachable
import TwoLevel.Proofs.Formula.Update

/-!
# Formulas made from lists

Three constructors make a formula by pushing indices one after the other: from a list of explicit
indices and one of don't cares, from sets of indices, and from a list of outputs.  What one push
does is known (`SetsOutput`).  What a list of them does is `PushesAll`: the listed indices have the
output afterwards and the others what they had, in whatever order and however often an index is
listed; and the first index outside the space stops it (`pushAll_of_firstOutside?`).

The explicit indices come first and the don't cares after them, so an index in both lists does not
matter (`listedOutput`).
-/

set_option autoImplicit false

namespace TwoLevel

/-- The output at an index, where the explicit indices and the don't cares are listed. -/
def listedOutput (form : Form) (terms dontCares : List Nat) (index : Nat) : Output :=
  if index ∈ dontCares then .dontCare
  else if index ∈ terms then form.explicit
  else form.implicit

/-- The first of the listed indices that is outside the space of `n` variables. -/
def firstOutside? (n : Nat) (indices : List Nat) : Option Nat :=
  indices.find? fun i ↦ decide (numPoints n ≤ i)

theorem firstOutside?_eq_none_iff {n : Nat} {indices : List Nat} :
    firstOutside? n indices = none ↔ ∀ i ∈ indices, i < numPoints n := by
  rw [firstOutside?, List.find?_eq_none]
  simp only [decide_eq_true_eq, Nat.not_le]

namespace Formula

variable {n : Nat}

/-! ## Pushing a list -/

/-- The output that a pushed index gets. -/
def pushed (form : Form) (isDontCare : Bool) : Output :=
  if isDontCare then .dontCare else form.explicit

/-- How the formula `g` comes from giving an output to all of the listed indices. -/
structure PushesAll (f : Formula n) (indices : List Nat) (output : Output) (g : Formula n) :
    Prop where
  /-- The listed indices have the output. -/
  valueAt_of_mem : ∀ i ∈ indices, g.store.valueAt i = .ok output
  /-- The others have the output they had. -/
  valueAt_of_not_mem : ∀ i, i ∉ indices → g.store.valueAt i = f.store.valueAt i
  /-- The form stays. -/
  form_eq : g.form = f.form

variable {f g : Formula n} {isDontCare : Bool} {indices : List Nat} {i : Nat}

theorem pushAll_cons (f : Formula n) (isDontCare : Bool) (i : Nat) (indices : List Nat) :
    f.pushAll isDontCare (i :: indices) =
      (f.push i isDontCare).map (·.2) >>= fun g ↦ g.pushAll isDontCare indices :=
  List.foldlM_cons

/-- An index of the space can be pushed. -/
theorem exists_push (f : Formula n) (isDontCare : Bool) (h : i < numPoints n) :
    ∃ changed g, f.push i isDontCare = .ok (changed, g) ∧
      f.IsUpdate i (pushed f.form isDontCare) changed g := by
  have hlaw := f.setsOutput_setAt i (pushed f.form isDontCare)
  rwa [SetsOutput, if_pos h] at hlaw

theorem push_of_le (f : Formula n) (isDontCare : Bool) (h : numPoints n ≤ i) :
    f.push i isDontCare = .error (.invalidIndex i (numPoints n)) :=
  f.setAt_of_le h

theorem pushesAll_nil (f : Formula n) (output : Output) : f.PushesAll [] output f where
  valueAt_of_mem _ hi := absurd hi List.not_mem_nil
  valueAt_of_not_mem _ _ := rfl
  form_eq := rfl

/-- One index is pushed, and then the others. -/
theorem PushesAll.cons {output : Output} {changed : Bool} {f' : Formula n}
    (hpush : f.IsUpdate i output changed f') (h : f'.PushesAll indices output g) :
    f.PushesAll (i :: indices) output g where
  valueAt_of_mem j hj := by
    by_cases hmem : j ∈ indices
    · exact h.valueAt_of_mem j hmem
    · obtain rfl := (List.mem_cons.1 hj).resolve_right hmem
      rw [h.valueAt_of_not_mem j hmem, hpush.valueAt_self]
  valueAt_of_not_mem j hj := by
    rw [List.mem_cons, not_or] at hj
    rw [h.valueAt_of_not_mem j hj.2, hpush.valueAt_of_ne j hj.1]
  form_eq := h.form_eq.trans hpush.keeps.1

/-- **Indices of the space can all be pushed**, and then all have the output. -/
theorem exists_pushAll (f : Formula n) (isDontCare : Bool) (h : ∀ i ∈ indices, i < numPoints n) :
    ∃ g, f.pushAll isDontCare indices = .ok g ∧
      f.PushesAll indices (pushed f.form isDontCare) g := by
  induction indices generalizing f with
  | nil => exact ⟨f, rfl, f.pushesAll_nil _⟩
  | cons i indices ih =>
    obtain ⟨changed, f', hpush, hupdate⟩ := f.exists_push isDontCare (h i List.mem_cons_self)
    obtain ⟨g, hg, hall⟩ := ih f' fun j hj ↦ h j (List.mem_cons_of_mem i hj)
    rw [show f'.form = f.form from hupdate.keeps.1] at hall
    refine ⟨g, ?_, hall.cons hupdate⟩
    rw [pushAll_cons, hpush]
    exact hg

/-- **The first index outside the space is refused**, and nothing comes of the list. -/
theorem pushAll_of_firstOutside? (f : Formula n) (isDontCare : Bool)
    (h : firstOutside? n indices = some i) :
    f.pushAll isDontCare indices = .error (.invalidIndex i (numPoints n)) := by
  induction indices generalizing f with
  | nil => exact nomatch h
  | cons j indices ih =>
    rw [firstOutside?, List.find?_cons] at h
    rw [pushAll_cons]
    by_cases hj : numPoints n ≤ j
    · rw [decide_eq_true hj] at h
      obtain rfl := Option.some.inj h
      rw [f.push_of_le isDontCare hj]
      rfl
    · rw [decide_eq_false hj] at h
      obtain ⟨changed, f', hpush, _⟩ := f.exists_push isDontCare (Nat.not_le.1 hj)
      rw [hpush]
      exact ih f' h

/-! ## Two lists -/

/-- The formula with nothing stored. -/
theorem valueAt_ofStore_empty (form : Form) (name : Char) (vars : List Char)
    (h : i < numPoints n) :
    (ofStore (Store.empty form : Store n) name vars).store.valueAt i = .ok form.implicit :=
  Store.valueAt_of_lt h

/-- The formula has the outputs of the listed indices, and of the others the implicit one. -/
structure IsListed (f : Formula n) (form : Form) (terms dontCares : List Nat) : Prop where
  /-- The form is the given one. -/
  form_eq : f.form = form
  /-- The outputs are the listed ones. -/
  valueAt_eq : ∀ i, i < numPoints n → f.store.valueAt i = .ok (listedOutput form terms dontCares i)

/-- Both lists are pushed onto a formula with nothing stored. -/
def ofLists (form : Form) (name : Char) (vars : List Char) (terms dontCares : List Nat) :
    Except Error (Formula n) := do
  let f ← (ofStore (Store.empty form) name vars).pushAll false terms
  f.pushAll true dontCares

variable {form : Form} {name : Char} {vars : List Char} {terms dontCares : List Nat}

/-- **Lists of indices of the space give the formula that has the listed outputs.** -/
theorem exists_ofLists (form : Form) (name : Char) (vars : List Char)
    (hterms : ∀ i ∈ terms, i < numPoints n) (hdontCares : ∀ i ∈ dontCares, i < numPoints n) :
    ∃ f : Formula n, ofLists form name vars terms dontCares = .ok f ∧
      f.IsListed form terms dontCares := by
  obtain ⟨f, hf, hfterms⟩ :=
    (ofStore (Store.empty form : Store n) name vars).exists_pushAll false hterms
  obtain ⟨g, hg, hgdontCares⟩ := f.exists_pushAll true hdontCares
  refine ⟨g, ?_, hgdontCares.form_eq.trans hfterms.form_eq, fun i hi ↦ ?_⟩
  · rw [ofLists, hf]
    exact hg
  · rw [listedOutput]
    split
    · next hmem => exact hgdontCares.valueAt_of_mem i hmem
    · next hmem =>
      rw [hgdontCares.valueAt_of_not_mem i hmem]
      split
      · next hmem => exact hfterms.valueAt_of_mem i hmem
      · next hmem => rw [hfterms.valueAt_of_not_mem i hmem, valueAt_ofStore_empty form name vars hi]

/-- **An index outside the space is refused**, the first of the terms before any don't care. -/
theorem ofLists_of_firstOutside? {i : Nat} (h : firstOutside? n (terms ++ dontCares) = some i) :
    (ofLists form name vars terms dontCares : Except Error (Formula n)) =
      .error (.invalidIndex i (numPoints n)) := by
  rw [firstOutside?, List.find?_append, ← firstOutside?, ← firstOutside?] at h
  rw [ofLists]
  cases hterms : firstOutside? n terms with
  | some j =>
    rw [hterms, Option.some_or] at h
    obtain rfl := Option.some.inj h
    rw [pushAll_of_firstOutside? _ false hterms]
    rfl
  | none =>
    rw [hterms, Option.none_or] at h
    obtain ⟨f, hf, _⟩ := (ofStore (Store.empty form : Store n) name vars).exists_pushAll false
      (firstOutside?_eq_none_iff.1 hterms)
    rw [hf]
    exact f.pushAll_of_firstOutside? true h

theorem exists_ofLists_iff :
    (∃ f : Formula n, ofLists form name vars terms dontCares = .ok f) ↔
      (∀ i ∈ terms, i < numPoints n) ∧ ∀ i ∈ dontCares, i < numPoints n := by
  rw [← List.forall_mem_append, ← firstOutside?_eq_none_iff]
  refine ⟨fun ⟨f, hf⟩ ↦ ?_, fun h ↦ ?_⟩
  · rw [Option.eq_none_iff_forall_ne_some]
    intro i hi
    rw [ofLists_of_firstOutside? hi] at hf
    cases hf
  · obtain ⟨hterms, hdontCares⟩ := List.forall_mem_append.1 (firstOutside?_eq_none_iff.1 h)
    obtain ⟨f, hf, _⟩ := exists_ofLists form name vars hterms hdontCares
    exact ⟨f, hf⟩

/-- What comes of two lists has the listed outputs. -/
theorem isListed_of_ofLists {f : Formula n} (h : ofLists form name vars terms dontCares = .ok f) :
    f.IsListed form terms dontCares := by
  obtain ⟨hterms, hdontCares⟩ := exists_ofLists_iff.1 ⟨f, h⟩
  obtain ⟨g, hg, hlisted⟩ := exists_ofLists form name vars hterms hdontCares
  obtain rfl := Except.ok.inj (h.symm.trans hg)
  exact hlisted

/-! ## Formulas with default names -/

theorem ofIndices_of_le (h : n ≤ maxNamed) :
    ofIndices n form terms dontCares =
      ofLists form defaultName (Names.default n) terms dontCares := by
  rw [ofIndices, new, checkNameable_eq_ok_iff.2 h]
  rfl

/-- More variables than letters are refused. -/
theorem ofIndices_of_not_le (h : ¬ n ≤ maxNamed) :
    ∃ fault, ofIndices n form terms dontCares = .error (.invalidVariables fault) := by
  rw [ofIndices, new, checkNameable, checkSize]
  -- some numbers are refused only because of the names, others already because of the positions
  split
  · exact ⟨_, rfl⟩
  · exact ⟨_, rfl⟩

/-- The answer to two lists of indices: too many variables are refused, and then the first index
outside the space. -/
def AnswersLists (form : Form) (terms dontCares : List Nat) (answer : Except Error (Formula n)) :
    Prop :=
  if n ≤ maxNamed then
    match firstOutside? n (terms ++ dontCares) with
    | some i => answer = .error (.invalidIndex i (numPoints n))
    | none => ∃ f, answer = .ok f ∧ f.IsListed form terms dontCares
  else ∃ fault, answer = .error (.invalidVariables fault)

theorem answersLists_ofIndices (n : Nat) (form : Form) (terms dontCares : List Nat) :
    AnswersLists form terms dontCares (ofIndices n form terms dontCares) := by
  rw [AnswersLists]
  split
  · next hn =>
    rw [ofIndices_of_le hn]
    split
    · next h => exact ofLists_of_firstOutside? h
    · next h =>
      obtain ⟨hterms, hdontCares⟩ := List.forall_mem_append.1 (firstOutside?_eq_none_iff.1 h)
      exact exists_ofLists _ _ _ hterms hdontCares
  · next hn => exact ofIndices_of_not_le hn

/-! ## Outputs -/

theorem mem_indicesOf {output : Output} {outputs : List Output} {i : Nat} :
    i ∈ indicesOf output outputs ↔ outputs[i]? = some output := by
  rw [indicesOf, List.mem_map]
  refine ⟨?_, fun h ↦ ⟨(output, i), ?_, rfl⟩⟩
  · rintro ⟨⟨v, j⟩, hmem, rfl⟩
    obtain ⟨hzip, hv⟩ := List.mem_filter.1 hmem
    obtain rfl : v = output := beq_iff_eq.1 hv
    exact List.mem_zipIdx_iff_getElem?.1 hzip
  · exact List.mem_filter.2 ⟨List.mem_zipIdx_iff_getElem?.2 h, beq_self_eq_true output⟩

/-- The two lists of indices say what the outputs are. -/
theorem listedOutput_indicesOf (form : Form) (outputs : List Output) (i : Nat) :
    listedOutput form (indicesOf form.explicit outputs) (indicesOf .dontCare outputs) i =
      outputs.getD i form.implicit := by
  simp only [listedOutput, mem_indicesOf, List.getD_eq_getElem?_getD]
  cases outputs[i]? with
  | none => rfl
  | some output =>
    simp only [Option.some_inj, Option.getD_some]
    rcases form.output_cases output with rfl | rfl | rfl
    · rw [if_pos rfl]
    · rw [if_neg form.explicit_ne_dontCare, if_pos rfl]
    · rw [if_neg form.implicit_ne_dontCare, if_neg form.explicit_ne_implicit.symm]

theorem lt_length_of_mem_indicesOf {output : Output} {outputs : List Output} {i : Nat}
    (h : i ∈ indicesOf output outputs) : i < outputs.length :=
  (List.getElem?_eq_some_iff.1 (mem_indicesOf.1 h)).1

/-- The answer to a list of outputs, no more of them than there are indices: the formula that has
them, and after the last of them the implicit one; or too many variables are refused. -/
def AnswersOutputs (form : Form) (outputs : List Output) (answer : Except Error (Formula n)) :
    Prop :=
  if n ≤ maxNamed then
    ∃ f, answer = .ok f ∧ f.form = form ∧
      ∀ i, i < numPoints n → f.store.valueAt i = .ok (outputs.getD i form.implicit)
  else ∃ fault, answer = .error (.invalidVariables fault)

theorem answersOutputs_ofOutputs (form : Form) {outputs : List Output}
    (h : outputs.length ≤ numPoints n) :
    AnswersOutputs form outputs (ofOutputs n form outputs) := by
  have hlt : ∀ output, ∀ i ∈ indicesOf output outputs, i < numPoints n :=
    fun output i hi ↦ Nat.lt_of_lt_of_le (lt_length_of_mem_indicesOf hi) h
  rw [AnswersOutputs, ofOutputs]
  split
  · next hn =>
    rw [ofIndices_of_le hn]
    obtain ⟨f, hf, hlisted⟩ := exists_ofLists _ _ _ (hlt form.explicit) (hlt .dontCare)
    refine ⟨f, hf, hlisted.form_eq, fun i hi ↦ ?_⟩
    rw [hlisted.valueAt_eq i hi, listedOutput_indicesOf]
  · next hn => exact ofIndices_of_not_le hn

end Formula

end TwoLevel
