import TwoLevel.Proofs.Formula.Listing

/-!
# Formulas made from sets of indices

Sets of indices describe a function if no index is in two of them and, where both the on-set and the
off-set are given, none is in no set at all (`IndexSets.IsConsistent`).  That is what is checked
(`IndexSets.check_eq_ok_iff`), together with the names.

It is not checked that the listed indices are indices of the space.  That comes out when they are
pushed, and so it comes out for the sets that are pushed: the don't cares and the explicit set,
which is the off-set only where no on-set is given (`IndexSets.InSpace`).  An off-set beside an
on-set is compared with the other sets and then put aside, whatever else it lists.

What is made has the outputs that the sets say (`IndexSets.outputAt`).
-/

set_option autoImplicit false

namespace TwoLevel

namespace IndexSets

variable {s : IndexSets} {limit : Nat}

/-! ## What is checked -/

/-- The indices listed as explicit ones. -/
def onSet (s : IndexSets) : List Nat := s.on.getD []

/-- The indices listed as those left out. -/
def offSet (s : IndexSets) : List Nat := s.off.getD []

/-- The sets do not contradict each other and leave nothing open that they should not. -/
structure IsConsistent (s : IndexSets) (limit : Nat) : Prop where
  /-- No explicit index is a don't care. -/
  on_dontCare : s.onSet.Disjoint s.dontCare
  /-- No index is both on and off. -/
  on_off : s.onSet.Disjoint s.offSet
  /-- No don't care is off. -/
  dontCare_off : s.dontCare.Disjoint s.offSet
  /-- Beside an on-set, an off-set completes the space. -/
  complete : s.on.isSome = true → s.off.isSome = true →
    ∀ i, i < limit → i ∈ s.onSet ∨ i ∈ s.dontCare ∨ i ∈ s.offSet

/-- The sets that a formula is made from list indices of the space only.  The off-set is one of them
where there is no on-set. -/
structure InSpace (s : IndexSets) (limit : Nat) : Prop where
  /-- The indices that are on are in the space. -/
  on_lt : ∀ i ∈ s.onSet, i < limit
  /-- The don't cares are listed in increasing order. -/
  dontCare_lt : ∀ i ∈ s.dontCare, i < limit
  /-- So are those that are off, if nothing is said of those that are on. -/
  off_lt : s.on = none → ∀ i ∈ s.offSet, i < limit

theorem filter_contains_eq_nil_iff {xs ys : List Nat} :
    xs.filter ys.contains = [] ↔ xs.Disjoint ys := by
  rw [List.filter_eq_nil_iff]
  simp only [List.contains_iff_mem, List.disjoint_left]

theorem overlap?_eq_none_iff :
    s.overlap? = none ↔
      s.onSet.Disjoint s.dontCare ∧ s.onSet.Disjoint s.offSet ∧ s.dontCare.Disjoint s.offSet := by
  rw [overlap?, List.min?_eq_none_iff, List.append_eq_nil_iff, List.append_eq_nil_iff,
    filter_contains_eq_nil_iff, filter_contains_eq_nil_iff, filter_contains_eq_nil_iff, and_assoc]
  rfl

theorem unlisted?_eq_none_iff :
    s.unlisted? limit = none ↔
      ∀ i, i < limit → i ∈ s.onSet ∨ i ∈ s.dontCare ∨ i ∈ s.offSet := by
  rw [unlisted?, firstBelow_eq_none_iff]
  simp [onSet, offSet, or_iff_not_imp_left]

/-- **The check accepts consistent sets.** -/
theorem check_eq_ok_iff : s.check limit = .ok () ↔ s.IsConsistent limit := by
  rw [check]
  cases hoverlap : s.overlap? with
  | some i =>
    refine iff_of_false nofun fun h ↦ ?_
    rw [overlap?_eq_none_iff.2 ⟨h.on_dontCare, h.on_off, h.dontCare_off⟩] at hoverlap
    cases hoverlap
  | none =>
    obtain ⟨on_dontCare, on_off, dontCare_off⟩ := overlap?_eq_none_iff.1 hoverlap
    simp only
    split
    · next hboth =>
      rw [Bool.and_eq_true] at hboth
      cases hunlisted : s.unlisted? limit with
      | some i =>
        refine iff_of_false nofun fun h ↦ ?_
        rw [unlisted?_eq_none_iff.2 (h.complete hboth.1 hboth.2)] at hunlisted
        cases hunlisted
      | none =>
        exact iff_of_true rfl
          ⟨on_dontCare, on_off, dontCare_off, fun _ _ ↦ unlisted?_eq_none_iff.1 hunlisted⟩
    · next hboth =>
      refine iff_of_true rfl ⟨on_dontCare, on_off, dontCare_off, fun hon hoff ↦ ?_⟩
      exact absurd (Bool.and_eq_true_iff.2 ⟨hon, hoff⟩) hboth

@[simp]
theorem mem_sorted {indices : List Nat} {i : Nat} : i ∈ sorted indices ↔ i ∈ indices := by
  rw [sorted, mem_dedupNeighbours, List.mem_mergeSort]

/-- The explicit indices are those of the on-set or, without one, of the off-set. -/
theorem mem_explicit_iff {i : Nat} :
    i ∈ s.explicit.2 ↔ i ∈ s.onSet ∨ s.on = none ∧ i ∈ s.offSet := by
  obtain ⟨on, dontCare, off⟩ := s
  cases on with
  | some on => simp [explicit, onSet]
  | none => cases off <;> simp [explicit, onSet, offSet]

/-- What is pushed is in the space if the sets are. -/
theorem inSpace_iff :
    s.InSpace limit ↔
      (∀ i ∈ s.explicit.2, i < limit) ∧ ∀ i ∈ sorted s.dontCare, i < limit := by
  simp only [mem_explicit_iff, mem_sorted]
  refine ⟨fun h ↦ ⟨?_, h.dontCare_lt⟩, fun ⟨hexplicit, hdontCare⟩ ↦ ?_⟩
  · rintro i (hi | ⟨hon, hi⟩)
    · exact h.on_lt i hi
    · exact h.off_lt hon i hi
  · exact ⟨fun i hi ↦ hexplicit i (Or.inl hi), hdontCare,
      fun hon i hi ↦ hexplicit i (Or.inr ⟨hon, hi⟩)⟩

/-! ## What is described -/

/-- The output that the sets say an index has. -/
def outputAt (s : IndexSets) (i : Nat) : Output :=
  match s.on, s.off with
  | some on, _ => if i ∈ on then .one else if i ∈ s.dontCare then .dontCare else .zero
  | none, some off => if i ∈ off then .zero else if i ∈ s.dontCare then .dontCare else .one
  | none, none => if i ∈ s.dontCare then .dontCare else .zero

/-- The lists that are pushed describe what consistent sets do. -/
theorem IsConsistent.listedOutput_eq (h : s.IsConsistent limit) (i : Nat) :
    listedOutput s.explicit.1 s.explicit.2 (sorted s.dontCare) i = s.outputAt i := by
  obtain ⟨on, dontCare, off⟩ := s
  cases on with
  | some on =>
    simp only [listedOutput, explicit, outputAt, mem_sorted]
    apply ite_ite_comm
    exact fun hdc hi ↦ h.on_dontCare hi hdc
  | none =>
    cases off with
    | some off =>
      simp only [listedOutput, explicit, outputAt, mem_sorted]
      apply ite_ite_comm
      exact fun hdc hi ↦ h.dontCare_off hdc hi
    | none =>
      simp only [listedOutput, explicit, outputAt, mem_sorted, List.not_mem_nil, if_false]
      rfl

end IndexSets

namespace Formula

variable {sets : IndexSets} {name : Char} {vars : List Char}

/-! ## What is made -/

theorem ofSets_eq_ok_iff {f : Formula vars.length} :
    ofSets sets name vars = .ok f ↔
      Names.AreValid vars.length vars ∧ sets.IsConsistent (numPoints vars.length) ∧
        ofLists sets.explicit.1 name vars sets.explicit.2 (IndexSets.sorted sets.dontCare) =
          .ok f := by
  rw [ofSets, bind_eq_ok_iff]
  refine ⟨?_, ?_⟩
  · rintro ⟨_, _, h⟩
    obtain ⟨_, hnames, h⟩ := bind_eq_ok_iff.1 h
    obtain ⟨_, hsets, h⟩ := bind_eq_ok_iff.1 h
    exact ⟨Names.check_eq_ok_iff.1 hnames, IndexSets.check_eq_ok_iff.1 hsets, h⟩
  · rintro ⟨hnames, hsets, h⟩
    have hsize : vars.length ≤ maxPositions := Nat.le_trans hnames.le_maxNamed (by decide)
    refine ⟨(), checkSize_eq_ok_iff.2 hsize, ?_⟩
    rw [Names.check_eq_ok_iff.2 hnames, IndexSets.check_eq_ok_iff.2 hsets]
    exact h

/-- Consistent sets with valid names are accepted if what is pushed is in the space. -/
theorem exists_ofSets (hnames : Names.AreValid vars.length vars)
    (hsets : sets.IsConsistent (numPoints vars.length))
    (hspace : sets.InSpace (numPoints vars.length)) : ∃ f, ofSets sets name vars = .ok f := by
  obtain ⟨f, hf⟩ := exists_ofLists_iff.2 (IndexSets.inSpace_iff.1 hspace)
  exact ⟨f, ofSets_eq_ok_iff.2 ⟨hnames, hsets, hf⟩⟩

theorem inSpace_of_ofSets {f : Formula vars.length} (h : ofSets sets name vars = .ok f) :
    sets.InSpace (numPoints vars.length) := by
  obtain ⟨_, _, hlists⟩ := ofSets_eq_ok_iff.1 h
  exact IndexSets.inSpace_iff.2 (exists_ofLists_iff.1 ⟨f, hlists⟩)

theorem valueAt_of_ofSets {f : Formula vars.length} (h : ofSets sets name vars = .ok f) {i : Nat}
    (hi : i < numPoints vars.length) : f.store.valueAt i = .ok (sets.outputAt i) := by
  obtain ⟨_, hsets, hlists⟩ := ofSets_eq_ok_iff.1 h
  rw [(isListed_of_ofLists hlists).valueAt_eq i hi, hsets.listedOutput_eq]

/-- **Which sets make a formula.**  The names have to be different lower case letters, of which
there are twenty-six; the sets have to be consistent; and the indices have to be in the space, but
for an off-set beside an on-set, of which that is not asked. -/
theorem exists_ofSets_iff (sets : IndexSets) (name : Char) (vars : List Char) :
    (∃ f, ofSets sets name vars = .ok f) ↔
      (vars.length ≤ maxNamed ∧ Names.AreValid vars.length vars) ∧
      sets.InSpace (numPoints vars.length) ∧ sets.IsConsistent (numPoints vars.length) := by
  refine ⟨fun ⟨f, hf⟩ ↦ ?_, fun ⟨⟨_, hnames⟩, hspace, hsets⟩ ↦ exists_ofSets hnames hsets hspace⟩
  obtain ⟨hnames, hsets, _⟩ := ofSets_eq_ok_iff.1 hf
  exact ⟨⟨hnames.le_maxNamed, hnames⟩, inSpace_of_ofSets hf, hsets⟩

/-- An on-set and an off-set that divide the two indices of one variable between them, and in the
off-set an index of no point. -/
def offOutside : IndexSets := ⟨some [0], [], some [1, 7]⟩

/-- **An off-set beside an on-set may list what is not in the space.**  By itself it may not. -/
theorem ofSets_offOutside :
    7 ∈ offOutside.offSet ∧ ¬ 7 < numPoints ['a'].length ∧
    (∃ f, ofSets offOutside 'f' ['a'] = .ok f) ∧
    ¬ ∃ f, ofSets { offOutside with on := none } 'f' ['a'] = .ok f := by
  refine ⟨by decide, by decide, exists_ofSets ?_ ?_ ?_, fun ⟨f, hf⟩ ↦ ?_⟩
  · exact Names.check_eq_ok_iff.1 rfl
  · exact IndexSets.check_eq_ok_iff.1 rfl
  · exact ⟨by decide, by decide, nofun⟩
  · exact absurd ((inSpace_of_ofSets hf).off_lt rfl 7 (by decide)) (by decide)

/-! ## All constructors -/

/-- **A constructed formula means what was listed.**  Sets give the indices in them their outputs,
and every other index that of the set that is not given.  Lists, whatever is repeated in them or in
both, give the don't cares to what the second list holds and the explicit output to the rest of the
first, and refuse the first index outside the space.  Outputs are those of the first indices, and
the others have the implicit one. -/
theorem constructed_as_listed :
    (∀ (sets : IndexSets) (name : Char) (vars : List Char) (f : Formula vars.length),
      ofSets sets name vars = .ok f →
        ∀ i, i < numPoints vars.length → f.store.valueAt i = .ok (sets.outputAt i)) ∧
    (∀ (n : Nat) (form : Form) (terms dontCares : List Nat),
      AnswersLists form terms dontCares (ofIndices n form terms dontCares)) ∧
    (∀ (n : Nat) (form : Form) (outputs : List Output), outputs.length ≤ numPoints n →
      AnswersOutputs form outputs (ofOutputs n form outputs)) :=
  ⟨fun _ _ _ _ h _ hi ↦ valueAt_of_ofSets h hi, answersLists_ofIndices,
    fun _ form _ h ↦ answersOutputs_ofOutputs form h⟩

/-- Two variables, of which the off-set is given and one don't care. -/
def givenOff : IndexSets := ⟨none, [3], some [1, 0]⟩

theorem constructed_as_listed_givenOff :
    (∃ f, ofSets givenOff 'g' ['y', 'x'] = .ok f ∧
      f.store.valueAt 1 = .ok .zero ∧ f.store.valueAt 2 = .ok .one ∧
      f.store.valueAt 3 = .ok .dontCare) ∧
    [Output.dontCare, .one, .zero].length ≤ numPoints 2 ∧
    AnswersOutputs (n := 2) .sumOfProducts [.dontCare, .one, .zero]
      (ofOutputs 2 .sumOfProducts [.dontCare, .one, .zero]) := by
  obtain ⟨hsets, _, houtputs⟩ := constructed_as_listed
  have hlength : [Output.dontCare, .one, .zero].length ≤ numPoints 2 := by decide
  have hmade : ∃ f, ofSets givenOff 'g' ['y', 'x'] = .ok f := by
    refine exists_ofSets ?_ ?_ ⟨by decide, by decide, by decide⟩
    · exact Names.check_eq_ok_iff.1 rfl
    · exact IndexSets.check_eq_ok_iff.1 rfl
  obtain ⟨f, hf⟩ := hmade
  refine ⟨⟨f, hf, ?_, ?_, ?_⟩, hlength, houtputs 2 .sumOfProducts _ hlength⟩
  · exact hsets givenOff 'g' ['y', 'x'] f hf 1 (by decide)
  · exact hsets givenOff 'g' ['y', 'x'] f hf 2 (by decide)
  · exact hsets givenOff 'g' ['y', 'x'] f hf 3 (by decide)

end Formula

end TwoLevel
