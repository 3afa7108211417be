import TwoLevel.Proofs.Store.Split
import TwoLevel.Proofs.Store.Value

/-!
# One output set

`Store.set` leaves a store alone where the point has the output already.  Otherwise it takes the
point out of every cube on both sides and, unless the output is the implicit one, puts it back as a
minterm on the side of the output.  `set_cases` says this once, and nothing after it looks at how a
store is changed.

What it comes to is `value_set_self` and `value_set_of_ne`: the point has the new output, and no
other point has a different one than before, however many cubes overlap there.  The rest says the
same of indices, of which those outside the space are refused.
-/

set_option autoImplicit false

namespace TwoLevel

variable {n : Nat}

/-! ## Indices -/

theorem checkIndex_of_lt {index : Nat} (h : index < numPoints n) :
    checkIndex n index = .ok (BitVec.ofNat n index) :=
  if_pos h

theorem checkIndex_of_le {index : Nat} (h : numPoints n ≤ index) :
    checkIndex n index = .error (.invalidIndex index (numPoints n)) :=
  if_neg (Nat.not_lt.2 h)

/-- Different indices of the space belong to different points. -/
theorem ofNat_ne_of_ne {i j : Nat} (hi : i < numPoints n) (hj : j < numPoints n) (h : i ≠ j) :
    BitVec.ofNat n i ≠ BitVec.ofNat n j := by
  intro heq
  have hnat := congrArg BitVec.toNat heq
  rw [toNat_ofNat_of_lt hi, toNat_ofNat_of_lt hj] at hnat
  exact h hnat

namespace Store

variable {s t : Store n} {x y : BitVec n} {output : Output}

theorem valueAt_of_lt {index : Nat} (h : index < numPoints n) :
    s.valueAt index = .ok (s.value (BitVec.ofNat n index)) := by
  rw [valueAt, checkIndex_of_lt h]
  rfl

theorem valueAt_of_le {index : Nat} (h : numPoints n ≤ index) :
    s.valueAt index = .error (.invalidIndex index (numPoints n)) := by
  rw [valueAt, checkIndex_of_le h]
  rfl

theorem valueAt_toNat (s : Store n) (x : BitVec n) : s.valueAt x.toNat = .ok (s.value x) := by
  rw [valueAt_of_lt x.isLt, BitVec.ofNat_toNat, BitVec.setWidth_eq]

/-- Stores that agree at every point agree at every index, and the other way round. -/
theorem valueAt_eq_iff :
    (∀ index, t.valueAt index = s.valueAt index) ↔ ∀ x, t.value x = s.value x := by
  refine ⟨fun h x ↦ ?_, fun h index ↦ ?_⟩
  · have hx := h x.toNat
    rw [valueAt_toNat, valueAt_toNat] at hx
    exact Except.ok.inj hx
  · rw [valueAt, valueAt]
    simp only [h]

theorem setAt_of_lt {index : Nat} (h : index < numPoints n) :
    s.setAt index output = .ok (decide (s.value (BitVec.ofNat n index) ≠ output),
      s.set (BitVec.ofNat n index) output) := by
  rw [setAt, checkIndex_of_lt h]
  rfl

theorem setAt_of_le {index : Nat} (h : numPoints n ≤ index) :
    s.setAt index output = .error (.invalidIndex index (numPoints n)) := by
  rw [setAt, checkIndex_of_le h]
  rfl

/-! ## The change -/

theorem set_of_value_eq (h : s.value x = output) : s.set x output = s := if_pos h

/-- **What setting an output does to a store.** -/
theorem set_cases (s : Store n) (x : BitVec n) (output : Output) :
    s.value x = output ∧ s.set x output = s ∨
    output = .dontCare ∧ s.set x output =
      ofCubes s.form (splitOff x s.terms) (splitOff x s.dontCares ++ [Cube.minterm x]) ∨
    output = s.form.explicit ∧ s.set x output =
      ofCubes s.form (splitOff x s.terms ++ [Cube.minterm x]) (splitOff x s.dontCares) ∨
    output = s.form.implicit ∧ s.set x output =
      ofCubes s.form (splitOff x s.terms) (splitOff x s.dontCares) := by
  by_cases hv : s.value x = output
  · exact Or.inl ⟨hv, set_of_value_eq hv⟩
  · refine Or.inr ?_
    rw [set, if_neg hv]
    rcases s.form.output_cases output with hdc | hexp | himp
    · exact Or.inl ⟨hdc, if_pos hdc⟩
    · refine Or.inr (Or.inl ⟨hexp, ?_⟩)
      simp only [hexp, if_neg s.form.explicit_ne_dontCare, if_pos]
    · refine Or.inr (Or.inr ⟨himp, ?_⟩)
      simp only [himp, if_neg s.form.implicit_ne_dontCare, if_neg s.form.explicit_ne_implicit.symm]

@[simp]
theorem form_set (s : Store n) (x : BitVec n) (output : Output) :
    (s.set x output).form = s.form := by
  rcases s.set_cases x output with ⟨_, hset⟩ | ⟨_, hset⟩ | ⟨_, hset⟩ | ⟨_, hset⟩ <;>
    rw [hset] <;> rfl

/-! ## What it comes to -/

theorem covers_splitOff_self (f : Cover n) (x : BitVec n) : (splitOff x f).covers x = false := by
  rw [← Bool.not_eq_true, covers_splitOff]
  exact fun h ↦ h.2 rfl

theorem covers_splitOff_of_ne (f : Cover n) (h : y ≠ x) :
    (splitOff x f).covers y = f.covers y := by
  rw [Bool.eq_iff_iff, covers_splitOff]
  exact and_iff_left h

theorem covers_append_minterm_self (f : Cover n) (x : BitVec n) :
    (f ++ [Cube.minterm x]).covers x = true := by
  rw [Cover.covers_append, Cover.covers_cons, Cube.covers_minterm.2 rfl, Bool.true_or,
    Bool.or_true]

theorem covers_append_minterm_of_ne (f : Cover n) (h : y ≠ x) :
    (f ++ [Cube.minterm x]).covers y = f.covers y := by
  have hx : (Cube.minterm x).covers y = false := by
    rw [← Bool.not_eq_true, Cube.covers_minterm]
    exact h.symm
  rw [Cover.covers_append, Cover.covers_cons, hx, Cover.covers_nil, Bool.or_false, Bool.or_false]

theorem value_ofCubes (form : Form) (terms dontCares : Cover n) (x : BitVec n) :
    (ofCubes form terms dontCares).value x =
      if dontCares.covers x then .dontCare
      else if terms.covers x then form.explicit
      else form.implicit :=
  rfl

/-- **The point has the output that it is given.** -/
@[simp]
theorem value_set_self (s : Store n) (x : BitVec n) (output : Output) :
    (s.set x output).value x = output := by
  rcases s.set_cases x output with ⟨hv, hset⟩ | ⟨hv, hset⟩ | ⟨hv, hset⟩ | ⟨hv, hset⟩
  · rw [hset, hv]
  · rw [hset, hv, value_ofCubes, if_pos (covers_append_minterm_self _ x)]
  · rw [hset, hv, value_ofCubes, covers_splitOff_self, covers_append_minterm_self]
    rfl
  · rw [hset, hv, value_ofCubes, covers_splitOff_self, covers_splitOff_self]
    rfl

/-- **Every other point keeps its output.** -/
theorem value_set_of_ne (s : Store n) (h : y ≠ x) (output : Output) :
    (s.set x output).value y = s.value y := by
  rcases s.set_cases x output with ⟨_, hset⟩ | ⟨_, hset⟩ | ⟨_, hset⟩ | ⟨_, hset⟩
  · rw [hset]
  · rw [hset, value_ofCubes, covers_append_minterm_of_ne _ h, covers_splitOff_of_ne _ h,
      covers_splitOff_of_ne _ h, value]
  · rw [hset, value_ofCubes, covers_append_minterm_of_ne _ h, covers_splitOff_of_ne _ h,
      covers_splitOff_of_ne _ h, value]
  · rw [hset, value_ofCubes, covers_splitOff_of_ne _ h, covers_splitOff_of_ne _ h, value]

theorem valueAt_set_self (s : Store n) {index : Nat} (h : index < numPoints n) (output : Output) :
    (s.set (BitVec.ofNat n index) output).valueAt index = .ok output := by
  rw [valueAt_of_lt h, value_set_self]

theorem valueAt_set_of_ne (s : Store n) {index i : Nat} (h : index < numPoints n) (hi : i ≠ index)
    (output : Output) :
    (s.set (BitVec.ofNat n index) output).valueAt i = s.valueAt i := by
  by_cases hlt : i < numPoints n
  · rw [valueAt_of_lt hlt, valueAt_of_lt hlt, value_set_of_ne s (ofNat_ne_of_ne hlt h hi)]
  · rw [valueAt_of_le (Nat.not_lt.1 hlt), valueAt_of_le (Nat.not_lt.1 hlt)]

end Store

end TwoLevel
