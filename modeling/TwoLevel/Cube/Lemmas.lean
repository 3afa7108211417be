import TwoLevel.Cube.Basic

/-!
# What the operations on cubes do to literals and to points

Two views of a cube, and for each operation what it does to them:

* **by position**: `getLsbD_*` for the two sets, and `ext_value`, that the literals determine the
  cube;
* **by point**: `covers_iff`, and after it `covers_full`, `covers_halfSpace`,
  `covers_minterm`, `covers_inter`, `covers_cofactor`.

`literalCount_cofactor_le` and `literalCount_cofactor_lt` are what the recursions on covers end
by: a cofactor has no more literals than the cube it came from, and fewer where the two are
explicit together.
-/

set_option autoImplicit false

namespace TwoLevel.Cube

variable {n : Nat}

/-! ## By position -/

/-- A missing position is not a one. -/
theorem literals_eq_false {c : Cube n} {i : Nat} (h : c.missing.getLsbD i = true) :
    c.literals.getLsbD i = false := by
  have := congrArg (·.getLsbD i) c.disjoint
  simpa [h] using this

theorem ext_masks {c d : Cube n} (hl : c.literals = d.literals) (hm : c.missing = d.missing) :
    c = d := by
  cases c; cases d; simp_all

/-- **A cube is determined by its literals.** -/
theorem ext_value {c d : Cube n} (h : ∀ i, i < n → c.value i = d.value i) : c = d := by
  have key : ∀ i, i < n → c.missing.getLsbD i = d.missing.getLsbD i ∧
      c.literals.getLsbD i = d.literals.getLsbD i := by
    intro i hi
    have hv := h i hi
    unfold value at hv
    cases hcm : c.missing.getLsbD i <;> cases hdm : d.missing.getLsbD i
    · cases hcl : c.literals.getLsbD i <;> cases hdl : d.literals.getLsbD i <;> simp_all
    · cases hcl : c.literals.getLsbD i <;> simp_all
    · cases hdl : d.literals.getLsbD i <;> simp_all
    · simp [literals_eq_false hcm, literals_eq_false hdm]
  exact ext_masks (BitVec.eq_of_getLsbD_eq fun i hi ↦ (key i hi).2)
    (BitVec.eq_of_getLsbD_eq fun i hi ↦ (key i hi).1)

@[simp]
theorem missing_ofMasks (l m : BitVec n) : (ofMasks l m).missing = m := rfl

@[simp]
theorem getLsbD_literals_ofMasks (l m : BitVec n) (i : Nat) :
    (ofMasks l m).literals.getLsbD i = (l.getLsbD i && !m.getLsbD i) :=
  Mask.getLsbD_diff l m i

@[simp]
theorem getElem_literals_ofMasks (l m : BitVec n) (i : Nat) (h : i < n) :
    (ofMasks l m).literals[i] = (l[i] && !m[i]) :=
  Mask.getElem_diff l m i h

@[simp]
theorem getLsbD_care (c : Cube n) (i : Nat) :
    c.care.getLsbD i = (decide (i < n) && !c.missing.getLsbD i) := by
  simp [care]

@[simp]
theorem getElem_care (c : Cube n) (i : Nat) (h : i < n) : c.care[i] = !c.missing[i] := by
  simp [care]

@[simp]
theorem getLsbD_zeros (c : Cube n) (i : Nat) :
    c.zeros.getLsbD i = (decide (i < n) && !c.missing.getLsbD i && !c.literals.getLsbD i) := by
  simp [zeros]

theorem conflicts_eq_zero_iff {c d : Cube n} :
    c.conflicts d = 0#n ↔ ∀ i, c.missing.getLsbD i = false → d.missing.getLsbD i = false →
      c.literals.getLsbD i = d.literals.getLsbD i := by
  constructor
  · intro h i hc hd
    have := congrArg (·.getLsbD i) h
    simpa [conflicts, hc, hd] using this
  · intro h
    apply BitVec.eq_of_getLsbD_eq
    intro i _
    simp only [conflicts, Mask.getLsbD_diff, BitVec.getLsbD_xor, BitVec.getLsbD_or,
      BitVec.getLsbD_zero]
    cases hc : c.missing.getLsbD i
    · cases hd : d.missing.getLsbD i
      · simp [h i hc hd]
      · simp
    · simp

/-! ## By point -/

/-- A point is covered when it has the cube's literal at every explicit position. -/
theorem covers_iff {c : Cube n} {x : BitVec n} :
    c.covers x = true ↔ ∀ i, i < n → c.missing.getLsbD i = false →
      c.literals.getLsbD i = x.getLsbD i := by
  rw [covers, Mask.subset_iff]
  constructor
  · intro h i _ hm
    have := h i
    cases hl : c.literals.getLsbD i <;> cases hx : x.getLsbD i <;> simp_all
  · intro h i hi
    by_cases hn : i < n
    · cases hm : c.missing.getLsbD i
      · have := h i hn hm
        simp [this] at hi
      · rfl
    · have : (c.literals ^^^ x).getLsbD i = false := BitVec.getLsbD_of_ge _ _ (by omega)
      simp [this] at hi

@[simp]
theorem covers_full (x : BitVec n) : (full n).covers x = true := by
  rw [covers_iff]
  intro i hi hm
  simp [full, hi] at hm

theorem covers_minterm {x y : BitVec n} : (minterm x).covers y = true ↔ x = y := by
  rw [covers_iff]
  constructor
  · intro h
    exact BitVec.eq_of_getLsbD_eq fun i hi ↦ h i hi (by simp [minterm])
  · rintro rfl i _ _
    rfl

theorem covers_halfSpace {i : Nat} {v : Bool} {x : BitVec n} (hi : i < n) :
    (halfSpace i v : Cube n).covers x = true ↔ x.getLsbD i = v := by
  rw [covers_iff]
  constructor
  · intro h
    have := h i hi (by simp [halfSpace, hi])
    cases v <;> simp_all [halfSpace]
  · rintro rfl j hj hm
    simp only [halfSpace, missing_ofMasks, Mask.getLsbD_diff, BitVec.getLsbD_allOnes, hj,
      decide_true, Bool.true_and, Mask.getLsbD_bit, hi, Bool.not_eq_eq_eq_not,
      Bool.not_false, decide_eq_true_eq] at hm
    subst hm
    cases hx : x.getLsbD i <;> simp [halfSpace, hi]

/-- Membership of a point is `implies` for its minterm. -/
theorem implies_minterm (c : Cube n) (x : BitVec n) : c.implies (minterm x) = c.covers x := rfl

/-- The points of an intersection are those in both, and there is none exactly where no cube is
returned. -/
theorem covers_inter {c d : Cube n} {x : BitVec n} :
    (∃ e, c.inter d = some e ∧ e.covers x = true) ↔ c.covers x = true ∧ d.covers x = true := by
  unfold inter
  split
  · next h =>
    rw [conflicts_eq_zero_iff] at h
    simp only [Option.some.injEq, exists_eq_left']
    simp only [covers_iff]
    constructor
    · intro hx
      constructor
      · intro i hi hm
        have := hx i hi (by simp [hm])
        cases hd : d.missing.getLsbD i
        · have := h i hm hd; simp_all
        · simpa [hm, hd, literals_eq_false hd] using this
      · intro i hi hm
        have := hx i hi (by simp [hm])
        cases hc : c.missing.getLsbD i
        · have := h i hc hm; simp_all
        · simpa [hm, hc, literals_eq_false hc] using this
    · rintro ⟨hc, hd⟩ i hi hm
      simp only [missing_ofMasks, BitVec.getLsbD_and, Bool.and_eq_false_iff] at hm
      cases hcm : c.missing.getLsbD i <;> cases hdm : d.missing.getLsbD i
      · simp [hcm, hc i hi hcm, hd i hi hdm]
      · simp [hcm, hc i hi hcm, literals_eq_false hdm]
      · simp [hdm, hd i hi hdm, literals_eq_false hcm]
      · simp [hcm, hdm] at hm
  · next h =>
    simp only [reduceCtorEq, false_and, exists_false, false_iff, not_and]
    intro hc hd
    refine h (conflicts_eq_zero_iff.2 fun i hcm hdm ↦ ?_)
    by_cases hi : i < n
    · rw [covers_iff] at hc hd
      rw [hc i hi hcm, hd i hi hdm]
    · simp [BitVec.getLsbD_of_ge _ _ (Nat.le_of_not_lt hi)]

/-- There is no intersection exactly where some literals are opposite. -/
theorem inter_eq_none_iff_conflicts {c d : Cube n} : c.inter d = none ↔ c.conflicts d ≠ 0#n := by
  rw [inter, ite_eq_right_iff]
  exact ⟨fun h hzero ↦ Option.some_ne_none _ (h hzero), fun h hzero ↦ absurd hzero h⟩

theorem covers_of_inter {c d e : Cube n} (h : c.inter d = some e) (x : BitVec n) :
    e.covers x = true ↔ c.covers x = true ∧ d.covers x = true := by
  rw [← covers_inter, h]
  simp only [Option.some.injEq, exists_eq_left']

/-- Inside the cube that was taken out, a cofactor covers what the cube covered. -/
theorem covers_cofactor {c d : Cube n} {x : BitVec n} (hx : d.covers x = true) :
    (∃ e, c.cofactor d = some e ∧ e.covers x = true) ↔ c.covers x = true := by
  have hd := covers_iff.1 hx
  unfold cofactor
  split
  · simp only [Option.some.injEq, exists_eq_left']
    next h =>
    rw [conflicts_eq_zero_iff] at h
    simp only [covers_iff]
    constructor
    · intro hc i hi hm
      cases hdm : d.missing.getLsbD i
      · rw [h i hm hdm, hd i hi hdm]
      · have := hc i hi (by simp [hm, hdm])
        simpa [hm, hdm] using this
    · intro hc i hi hm
      simp only [missing_ofMasks, BitVec.getLsbD_or, getLsbD_care, hi, decide_true, Bool.true_and,
        Bool.or_eq_false_iff, Bool.not_eq_eq_eq_not, Bool.not_false] at hm
      have := hc i hi hm.1
      simp [hm.1, hm.2, this]
  · next h =>
    simp only [reduceCtorEq, false_and, exists_false, false_iff, Bool.not_eq_true]
    rw [← Bool.not_eq_true]
    intro hc
    rw [covers_iff] at hc
    refine h (conflicts_eq_zero_iff.2 fun i hcm hdm ↦ ?_)
    by_cases hi : i < n
    · rw [hc i hi hcm, hd i hi hdm]
    · simp [BitVec.getLsbD_of_ge _ _ (Nat.le_of_not_lt hi)]

/-! ## Counting literals -/

theorem care_cofactor_le {c d e : Cube n} (h : c.cofactor d = some e) (i : Nat)
    (he : e.care.getLsbD i = true) : c.care.getLsbD i = true ∧ d.missing.getLsbD i = true := by
  unfold cofactor at h
  split at h
  · cases h
    rw [getLsbD_care, missing_ofMasks, BitVec.getLsbD_or, getLsbD_care] at he
    rw [getLsbD_care]
    by_cases hi : i < n <;> cases hc : c.missing.getLsbD i <;> cases hd : d.missing.getLsbD i <;>
      simp_all
  · cases h

theorem literalCount_cofactor_le {c d e : Cube n} (h : c.cofactor d = some e) :
    e.literalCount ≤ c.literalCount :=
  Mask.count_le_of_subset fun i hi ↦ (care_cofactor_le h i hi).1

/-- Where the two are explicit together, taking the cofactor loses a literal. -/
theorem literalCount_cofactor_lt {c d e : Cube n} {i : Nat} (h : c.cofactor d = some e)
    (hc : c.care.getLsbD i = true) (hd : d.missing.getLsbD i = false) :
    e.literalCount < c.literalCount := by
  refine Mask.count_lt_of_subset (fun j hj ↦ (care_cofactor_le h j hj).1) hc ?_
  cases he : e.care.getLsbD i
  · rfl
  · simp [(care_cofactor_le h i he).2] at hd

end TwoLevel.Cube
