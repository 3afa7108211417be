import TwoLevel.Proofs.Formula.Equality
import Mathlib.Order.Bounds.Basic

/-!
# Checking a cover

To check a cover against a formula is to look for an index where the two differ although the output
matters (`Formula.firstMismatch?`).  Neither is asked for its outputs: the formula's terms are
compared with the cover's, point by point, and a point that a don't care covers is passed over.
Where the don't cares have been listed beforehand the same can be done by looking into the list;
that is `Formula.check`, a loop over the indices that stops with the first difference, and it comes
to the same (`check_eq`).

Terms are enough to look at.  Where a point is no don't care its output is decided by whether a term
covers it, and in formulas of one form by the same two outputs (`isMismatch_iff`).  So the check
misses no difference, reports none that is not there, and reports the least one
(`firstMismatch?_isExact`).  It does not matter how the formulas came to be, nor how many terms
cover a point.
-/

set_option autoImplicit false

namespace TwoLevel.Formula

variable {n : Nat} {f g : Formula n}

/-! ## One point -/

/-- Whether a point that is no don't care of the first formula is covered by the terms of one of the
formulas and not by those of the other. -/
def isMismatch (f g : Formula n) (x : BitVec n) : Bool :=
  !f.dontCares.covers x && (f.terms.covers x != g.terms.covers x)

/-- A point without don't care has the output that the terms decide. -/
theorem value_of_covers_dontCares_eq_false {x : BitVec n} (h : f.dontCares.covers x = false) :
    f.store.value x = if f.terms.covers x then f.form.explicit else f.form.implicit := by
  rw [dontCares] at h
  rw [Store.value, h]
  rfl

/-- **The terms tell outputs apart**, in formulas of one form of which the second has no don't
cares. -/
theorem isMismatch_iff (hform : g.form = f.form) (hdc : g.dontCares = []) {x : BitVec n} :
    f.isMismatch g x = true ↔
      f.store.value x ≠ .dontCare ∧ g.store.value x ≠ f.store.value x := by
  have hg : g.dontCares.covers x = false := by
    rw [hdc]
    exact Cover.covers_nil x
  have hf : f.store.value x ≠ .dontCare ↔ f.dontCares.covers x = false := by
    rw [ne_eq, Store.value_eq_dontCare_iff, Bool.not_eq_true, dontCares]
  rw [isMismatch, Bool.and_eq_true, Bool.not_eq_true', bne_iff_ne, hf]
  refine and_congr_right fun hx ↦ ?_
  rw [value_of_covers_dontCares_eq_false hx, value_of_covers_dontCares_eq_false hg, hform]
  cases f.terms.covers x <;> cases g.terms.covers x
  · simp
  · simpa using f.form.explicit_ne_implicit
  · simpa using f.form.explicit_ne_implicit.symm
  · simp

/-! ## All indices -/

theorem firstMismatch?_eq (f g : Formula n) :
    f.firstMismatch? g = firstBelow (fun i ↦ f.isMismatch g (BitVec.ofNat n i)) (numPoints n) :=
  rfl

/-- Goes through some indices, passes over those that are listed as don't cares, and stops with the
first at which the terms of one formula cover the point and those of the other do not. -/
def checkFrom (f g : Formula n) : List Nat → Except Nat Unit
  | [] => .ok ()
  | index :: rest =>
    let x := BitVec.ofNat n index
    if f.store.expandedDontCares.contains x then checkFrom f g rest
    else if f.terms.covers x != g.terms.covers x then .error index
    else checkFrom f g rest

/-- Goes through all indices. -/
def check (f g : Formula n) : Except Nat Unit := f.checkFrom g (List.range (numPoints n))

/-- A point is listed as a don't care where a don't care covers it. -/
theorem contains_expandedDontCares (f : Formula n) (x : BitVec n) :
    f.store.expandedDontCares.contains x = f.dontCares.covers x := by
  rw [Bool.eq_iff_iff, List.contains_iff_mem, Store.mem_expandedDontCares,
    Store.value_eq_dontCare_iff, dontCares]

/-- **The loop stops with the first mismatch**, wherever it begins. -/
theorem checkFrom_eq (f g : Formula n) (indices : List Nat) :
    f.checkFrom g indices =
      (indices.find? fun i ↦ f.isMismatch g (BitVec.ofNat n i)).elim (.ok ()) .error := by
  induction indices with
  | nil => rfl
  | cons index rest ih =>
    rw [checkFrom, List.find?_cons, isMismatch, contains_expandedDontCares, ih]
    generalize BitVec.ofNat n index = x
    cases f.dontCares.covers x with
    | true => rfl
    | false =>
      cases hne : f.terms.covers x != g.terms.covers x with
      | true => simp
      | false => simp

/-- To look for the least mismatch is to go through all indices. -/
theorem check_eq (f g : Formula n) :
    f.check g = (f.firstMismatch? g).elim (.ok ()) .error := by
  rw [check, checkFrom_eq, firstMismatch?_eq, firstBelow_eq_find?]

/-! ## What the check says -/

/-- The formulas have different outputs at an index where the first has no don't care. -/
def DiffersAt (f g : Formula n) (index : Nat) : Prop :=
  f.store.valueAt index ≠ .ok .dontCare ∧ g.store.valueAt index ≠ f.store.valueAt index

theorem differsAt_iff {index : Nat} :
    f.DiffersAt g index ↔ index < numPoints n ∧
      f.store.value (BitVec.ofNat n index) ≠ .dontCare ∧
        g.store.value (BitVec.ofNat n index) ≠ f.store.value (BitVec.ofNat n index) := by
  by_cases hlt : index < numPoints n
  · rw [DiffersAt, Store.valueAt_of_lt hlt, Store.valueAt_of_lt hlt, and_iff_right hlt, ne_eq,
      Except.ok.injEq, ne_eq, Except.ok.injEq]
  · have hle := Nat.le_of_not_lt hlt
    rw [DiffersAt, Store.valueAt_of_le hle, Store.valueAt_of_le hle]
    exact iff_of_false (fun h ↦ h.2 rfl) fun h ↦ hlt h.1

theorem differsAt_iff_isMismatch (hform : g.form = f.form) (hdc : g.dontCares = []) {index : Nat} :
    f.DiffersAt g index ↔
      index < numPoints n ∧ f.isMismatch g (BitVec.ofNat n index) = true := by
  rw [differsAt_iff, isMismatch_iff hform hdc]

/-- Nothing is found where the formulas differ nowhere. -/
theorem firstMismatch?_eq_none_iff (hform : g.form = f.form) (hdc : g.dontCares = []) :
    f.firstMismatch? g = none ↔ ∀ index, ¬ f.DiffersAt g index := by
  rw [firstMismatch?_eq, firstBelow_eq_none_iff]
  refine forall_congr' fun index ↦ ?_
  rw [differsAt_iff_isMismatch hform hdc, not_and, Bool.not_eq_true]

/-- What is found is the least index at which they differ. -/
theorem firstMismatch?_eq_some_iff (hform : g.form = f.form) (hdc : g.dontCares = [])
    {index : Nat} : f.firstMismatch? g = some index ↔ IsLeast {i | f.DiffersAt g i} index := by
  have hdiffers : ∀ {i}, f.DiffersAt g i ↔
      i < numPoints n ∧ f.isMismatch g (BitVec.ofNat n i) = true :=
    differsAt_iff_isMismatch hform hdc
  rw [firstMismatch?_eq, firstBelow_eq_some_iff]
  refine ⟨?_, ?_⟩
  · rintro ⟨hlt, hmismatch, hbefore⟩
    refine ⟨hdiffers.2 ⟨hlt, hmismatch⟩, fun i hi ↦ ?_⟩
    by_contra hle
    have hi_false := hbefore i (Nat.lt_of_not_le hle)
    exact Bool.false_ne_true (hi_false.symm.trans (hdiffers.1 hi).2)
  · rintro ⟨hindex, hleast⟩
    obtain ⟨hlt, hmismatch⟩ := hdiffers.1 hindex
    refine ⟨hlt, hmismatch, fun i hi ↦ ?_⟩
    rw [← Bool.not_eq_true]
    exact fun hi_true ↦ Nat.not_le.2 hi (hleast (hdiffers.2 ⟨hi.trans hlt, hi_true⟩))

/-- **The check is exact.**  Checking a cover without don't cares against a formula of the same form
finds nothing exactly if the two have the same output at every index that is no don't care of the
formula, and otherwise the least index at which they do not; and that is how the loop over the
indices ends. -/
theorem firstMismatch?_isExact (hform : g.form = f.form) (hdc : g.dontCares = []) :
    (f.firstMismatch? g = none ↔ ∀ index,
      f.store.valueAt index ≠ .ok .dontCare → g.store.valueAt index = f.store.valueAt index) ∧
    (∀ index, f.firstMismatch? g = some index ↔ IsLeast {i | f.DiffersAt g i} index) ∧
    f.check g = (f.firstMismatch? g).elim (.ok ()) .error := by
  refine ⟨?_, fun _ ↦ firstMismatch?_eq_some_iff hform hdc, check_eq f g⟩
  rw [firstMismatch?_eq_none_iff hform hdc]
  simp only [DiffersAt, not_and, not_not]

/-- A product of sums stored as two half spaces that overlap, with a don't care beside them. -/
def wideZeros : Formula 3 :=
  Formula.ofStore
    (Store.ofCubes .productOfSums [Cube.halfSpace 0 true, Cube.halfSpace 1 true]
      [Cube.minterm 4#3])
    Formula.defaultName (Names.default 3)

/-- A cover that includes the don't care and misses some points of the second half space. -/
def narrowZeros : Formula 3 :=
  Formula.ofCubes .productOfSums [Cube.ofMasks 4#3 3#3, Cube.halfSpace 0 true]

theorem firstMismatch?_isExact_wideZeros :
    wideZeros.Reachable ∧ narrowZeros.Reachable ∧ narrowZeros.form = wideZeros.form ∧
    narrowZeros.dontCares = [] ∧ wideZeros.check narrowZeros = .error 2 ∧
    IsLeast {i | wideZeros.DiffersAt narrowZeros i} 2 := by
  have hset : (Formula.ofCubes .productOfSums
      [Cube.halfSpace 0 true, Cube.halfSpace 1 true]).setAt 4 .dontCare = .ok (true, wideZeros) :=
    rfl
  have hwide : wideZeros.Reachable :=
    .setAt (Formula.reachable_ofCubes _ (by decide) (by decide)) hset
  have hnarrow : narrowZeros.Reachable := Formula.reachable_ofCubes _ (by decide) (by decide)
  have hform : narrowZeros.form = wideZeros.form := rfl
  have hdc : narrowZeros.dontCares = [] := rfl
  have hfound : wideZeros.firstMismatch? narrowZeros = some 2 := by decide
  obtain ⟨_, hsome, hcheck⟩ := firstMismatch?_isExact hform hdc
  refine ⟨hwide, hnarrow, hform, hdc, ?_, (hsome 2).1 hfound⟩
  rw [hcheck, hfound]
  rfl

end TwoLevel.Formula
