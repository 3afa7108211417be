import TwoLevel.Proofs.Cube.Points
import Mathlib.Tactic.ByContra

/-!
# Implicants and prime implicants

An **implicant** of a set of points is a cube that covers none but those points.  It is **prime**
when none of its explicit positions can be made missing without losing that.  The set is a predicate
on points, so that one theory serves the table of implicants, which starts from lists of points, and
the expansion of cubes, which knows the set only by what it must not meet.

What is here:

* `Cube.contains_iff`, containment in terms of points, and with it that containment is a partial
  order;
* `Cube.free`, a cube with one position made missing, and `Cube.covers_free_iff`, that all but that
  position still count;
* `Cube.IsImplicant` and `Cube.IsPrime`;
* `Cube.IsPrime.eq_of_contains`, that a prime implicant is contained in no other implicant, and
  `Cube.exists_isPrime_contains`, that every implicant is contained in a prime one;
* `Cube.contains_of_neighbours`, how to see from one point and its neighbours that there is only one
  prime implicant that covers the point.
-/

set_option autoImplicit false

namespace TwoLevel.Cube

variable {n : Nat}

/-! ## Containment -/

/-- One cube contains another when every position explicit in it is explicit in the other, with the
same literal. -/
theorem contains_iff_forall_position {c d : Cube n} :
    c.contains d = true ↔ ∀ i, i < n → c.missing.getLsbD i = false →
      d.missing.getLsbD i = false ∧ c.literals.getLsbD i = d.literals.getLsbD i := by
  have himp : c.implies d = c.covers d.literals := rfl
  rw [contains, Bool.and_eq_true, himp, Mask.subset_iff, covers_iff]
  refine ⟨?_, fun h ↦ ?_⟩
  · rintro ⟨hsub, hlit⟩ i hi hc
    refine ⟨?_, hlit i hi hc⟩
    cases hd : d.missing.getLsbD i with
    | false => rfl
    | true => simp [hsub i hd] at hc
  · refine ⟨fun i hd ↦ ?_, fun i hi hc ↦ (h i hi hc).2⟩
    cases hc : c.missing.getLsbD i with
    | true => rfl
    | false => simp [(h i (BitVec.lt_of_getLsbD hd) hc).1] at hd

/-- **One cube contains another when it covers all its points.** -/
theorem contains_iff {c d : Cube n} :
    c.contains d = true ↔ ∀ x, d.covers x = true → c.covers x = true := by
  rw [contains_iff_forall_position]
  refine ⟨fun h x hx ↦ ?_, fun h i hi hc ↦ ?_⟩
  · rw [covers_iff] at hx ⊢
    intro i hi hc
    obtain ⟨hd, hl⟩ := h i hi hc
    rw [hl, hx i hi hd]
  · have hl : c.literals.getLsbD i = d.literals.getLsbD i :=
      covers_iff.1 (h _ d.covers_literals) i hi hc
    refine ⟨?_, hl⟩
    -- were the position missing in `d`, then `d` would cover a point that has a one there
    cases hd : d.missing.getLsbD i with
    | false => rfl
    | true =>
      have hx : d.covers (d.literals ||| d.missing) = true := by
        rw [covers_iff]
        intro j _ hj
        simp [hj]
      have hone := covers_iff.1 (h _ hx) i hi hc
      rw [BitVec.getLsbD_or, hd, Bool.or_true] at hone
      rw [literals_eq_false hd, hone] at hl
      exact absurd hl (by decide)

theorem contains_refl (c : Cube n) : c.contains c = true :=
  contains_iff.2 fun _ h ↦ h

theorem contains_trans {c d e : Cube n} (hcd : c.contains d = true) (hde : d.contains e = true) :
    c.contains e = true :=
  contains_iff.2 fun x hx ↦ contains_iff.1 hcd x (contains_iff.1 hde x hx)

theorem contains_antisymm {c d : Cube n} (hcd : c.contains d = true) (hdc : d.contains c = true) :
    c = d := by
  rw [contains_iff_forall_position] at hcd hdc
  have hm : c.missing = d.missing := by
    apply BitVec.eq_of_getLsbD_eq
    intro i hi
    cases hc : c.missing.getLsbD i with
    | false => exact (hcd i hi hc).1.symm
    | true =>
      cases hd : d.missing.getLsbD i with
      | true => rfl
      | false => exact absurd (hdc i hi hd).1 (by simp [hc])
  refine ext_masks (BitVec.eq_of_getLsbD_eq fun i hi ↦ ?_) hm
  cases hc : c.missing.getLsbD i with
  | false => exact (hcd i hi hc).2
  | true => rw [literals_eq_false hc, literals_eq_false (hm ▸ hc)]

/-- **A cube is determined by its points.** -/
theorem ext_covers {c d : Cube n} (h : ∀ x, c.covers x = true ↔ d.covers x = true) : c = d :=
  contains_antisymm (contains_iff.2 fun x ↦ (h x).2) (contains_iff.2 fun x ↦ (h x).1)

theorem contains_full (c : Cube n) : (full n).contains c = true :=
  contains_iff.2 fun x _ ↦ covers_full x

/-- A minterm is contained in a cube exactly when its point is covered. -/
theorem contains_minterm_iff {c : Cube n} {x : BitVec n} :
    c.contains (minterm x) = true ↔ c.covers x = true := by
  rw [contains_iff]
  refine ⟨fun h ↦ ?_, fun h y hy ↦ ?_⟩
  · exact h x (covers_minterm.2 rfl)
  · exact covers_minterm.1 hy ▸ h

/-! ## One position made missing -/

/-- The cube with one more position missing. -/
def free (c : Cube n) (position : Nat) : Cube n :=
  ofMasks c.literals (c.missing ||| Mask.bit position)

@[simp]
theorem getLsbD_missing_free (c : Cube n) (i j : Nat) :
    (c.free i).missing.getLsbD j =
      (c.missing.getLsbD j || (decide (i < n) && decide (i = j))) := by
  rw [free, missing_ofMasks, BitVec.getLsbD_or, Mask.getLsbD_bit]

/-- At the freed position anything goes; the others are as they were. -/
theorem covers_free_iff {c : Cube n} {i : Nat} {x : BitVec n} :
    (c.free i).covers x = true ↔ ∀ j, j < n → j ≠ i → c.missing.getLsbD j = false →
      c.literals.getLsbD j = x.getLsbD j := by
  rw [covers_iff]
  refine ⟨fun h j hj hji hm ↦ ?_, fun h j hj hm ↦ ?_⟩
  · have hfree : (c.free i).missing.getLsbD j = false := by simp [hm, Ne.symm hji]
    rw [← h j hj hfree, free, getLsbD_literals_ofMasks]
    simp [hm, Ne.symm hji]
  · rw [getLsbD_missing_free, Bool.or_eq_false_iff] at hm
    have hji : j ≠ i := by
      rintro rfl
      simp [hj] at hm
    rw [free, getLsbD_literals_ofMasks, h j hj hji hm.1]
    simp [hm.1, Ne.symm hji]

theorem free_contains (c : Cube n) (i : Nat) : (c.free i).contains c = true :=
  contains_iff.2 fun _ hx ↦ covers_free_iff.2 fun j hj _ ↦ covers_iff.1 hx j hj

/-- Making an explicit position missing loses a literal. -/
theorem literalCount_free_lt {c : Cube n} {i : Nat} (hi : i < n)
    (hm : c.missing.getLsbD i = false) : (c.free i).literalCount < c.literalCount := by
  refine Mask.count_lt_of_subset (i := i) (fun j hj ↦ ?_) ?_ ?_
  · rw [getLsbD_care, Bool.and_eq_true, getLsbD_missing_free] at hj
    rw [getLsbD_care, Bool.and_eq_true]
    refine ⟨hj.1, ?_⟩
    cases hmj : c.missing.getLsbD j with
    | false => rfl
    | true => simp [hmj] at hj
  · rw [getLsbD_care, hm, decide_eq_true hi]
    rfl
  · rw [getLsbD_care, getLsbD_missing_free, decide_eq_true hi, decide_eq_true rfl, Bool.and_self,
      Bool.or_true]
    rfl

/-- A position is explicit exactly when it is not missing. -/
theorem value_ne_missing_iff {c : Cube n} {i : Nat} :
    c.value i ≠ .missing ↔ c.missing.getLsbD i = false := by
  rw [value]
  cases c.missing.getLsbD i with
  | true => simp
  | false => cases c.literals.getLsbD i <;> simp

/-! ## Implicants -/

/-- A cube is an implicant of a set of points when it covers no others. -/
def IsImplicant (p : BitVec n → Prop) (c : Cube n) : Prop :=
  ∀ x, c.covers x = true → p x

/-- A **prime** implicant is one that stops being an implicant whichever of its explicit positions
is made missing. -/
structure IsPrime (p : BitVec n → Prop) (c : Cube n) : Prop where
  /-- It covers only points of the set. -/
  implicant : c.IsImplicant p
  /-- No explicit position can be given up. -/
  maximal : ∀ i, i < n → c.value i ≠ .missing → ¬ (c.free i).IsImplicant p

variable {p : BitVec n → Prop}

/-- A cube is checked point by point. -/
instance [DecidablePred p] (c : Cube n) : Decidable (c.IsImplicant p) :=
  decidable_of_iff (∀ x ∈ c.points, p x) (forall_congr' fun _ ↦ imp_congr_left mem_points)

/-- And it is checked with each of its positions freed. -/
instance [DecidablePred p] (c : Cube n) : Decidable (c.IsPrime p) :=
  decidable_of_iff (c.IsImplicant p ∧
      ∀ i, i < n → c.value i ≠ .missing → ¬ (c.free i).IsImplicant p)
    ⟨fun h ↦ ⟨h.1, h.2⟩, fun h ↦ ⟨h.implicant, h.maximal⟩⟩

theorem IsImplicant.of_contains {c d : Cube n} (hd : d.IsImplicant p) (h : d.contains c = true) :
    c.IsImplicant p :=
  fun x hx ↦ hd x (contains_iff.1 h x hx)

theorem isImplicant_minterm_iff {x : BitVec n} : (minterm x).IsImplicant p ↔ p x := by
  refine ⟨fun h ↦ ?_, fun h y hy ↦ ?_⟩
  · exact h x (covers_minterm.2 rfl)
  · exact covers_minterm.1 hy ▸ h

/-- Two descriptions of a set of points have the same prime implicants. -/
theorem IsPrime.congr {q : BitVec n → Prop} {c : Cube n} (h : ∀ x, p x ↔ q x) (hc : c.IsPrime p) :
    c.IsPrime q where
  implicant x hx := (h x).1 (hc.implicant x hx)
  maximal i hi hv himp := hc.maximal i hi hv fun x hx ↦ (h x).2 (himp x hx)

/-- **A prime implicant is contained in no other implicant.** -/
theorem IsPrime.eq_of_contains {c d : Cube n} (hc : c.IsPrime p) (hd : d.IsImplicant p)
    (h : d.contains c = true) : d = c := by
  refine contains_antisymm h (contains_iff_forall_position.2 fun i hi hm ↦ ?_)
  rw [contains_iff_forall_position] at h
  cases hdm : d.missing.getLsbD i with
  | false => exact ⟨rfl, (h i hi hdm).2.symm⟩
  | true =>
    -- then the position could be given up inside `d`
    refine absurd (hd.of_contains ?_) (hc.maximal i hi (value_ne_missing_iff.2 hm))
    refine contains_iff.2 fun x hx ↦ covers_iff.2 fun j hj hjm ↦ ?_
    have hji : j ≠ i := by
      rintro rfl
      simp [hdm] at hjm
    rw [(h j hj hjm).2]
    exact covers_free_iff.1 hx j hj hji (h j hj hjm).1

/-- Positions of an implicant can be given up one by one until it is prime. -/
theorem exists_isPrime_contains {c : Cube n} (hc : c.IsImplicant p) :
    ∃ d : Cube n, d.IsPrime p ∧ d.contains c = true := by
  induction hk : c.literalCount using Nat.strongRecOn generalizing c with
  | ind k ih =>
    by_cases hprime : c.IsPrime p
    · exact ⟨c, hprime, contains_refl c⟩
    · have hex : ∃ i, i < n ∧ c.value i ≠ .missing ∧ (c.free i).IsImplicant p := by
        by_contra hno
        exact hprime ⟨hc, fun i hi hv himp ↦ hno ⟨i, hi, hv, himp⟩⟩
      obtain ⟨i, hi, hv, himp⟩ := hex
      have hlt : (c.free i).literalCount < k :=
        hk ▸ literalCount_free_lt hi (value_ne_missing_iff.1 hv)
      obtain ⟨d, hd, hdc⟩ := ih _ hlt himp rfl
      exact ⟨d, hd, contains_trans hdc (free_contains c i)⟩

/-- Every point of the set is covered by a prime implicant. -/
theorem exists_isPrime_covers {x : BitVec n} (hx : p x) :
    ∃ d : Cube n, d.IsPrime p ∧ d.covers x = true := by
  obtain ⟨d, hd, hdx⟩ := exists_isPrime_contains (isImplicant_minterm_iff.2 hx)
  exact ⟨d, hd, contains_minterm_iff.1 hdx⟩

/-- A single point has only its minterm as a prime implicant. -/
theorem IsPrime.eq_minterm {c : Cube n} (hc : c.IsPrime p) {x : BitVec n} (h : ∀ y, p y ↔ y = x) :
    c = minterm x := by
  refine (hc.eq_of_contains (isImplicant_minterm_iff.2 ((h x).2 rfl)) ?_).symm
  exact contains_iff.2 fun y hy ↦ covers_minterm.2 ((h y).1 (hc.implicant y hy)).symm

/-! ## Neighbouring points -/

/-- A cube with a position missing covers a point with either value there. -/
theorem covers_xor_bit {c : Cube n} {x : BitVec n} {i : Nat} (h : c.covers x = true)
    (hm : c.missing.getLsbD i = true) : c.covers (x ^^^ Mask.bit i) = true := by
  rw [covers_iff] at h ⊢
  intro j hj hjm
  have hji : j ≠ i := by
    rintro rfl
    simp [hm] at hjm
  rw [Mask.getLsbD_xor_bit_of_ne x hji]
  exact h j hj hjm

/-- If changing a point at any explicit position of a cube around it leads out of the set, the cube
contains every implicant that covers the point. -/
theorem contains_of_neighbours {c d : Cube n} {x : BitVec n} (hcx : c.covers x = true)
    (hout : ∀ i, i < n → c.value i ≠ .missing → ¬ p (x ^^^ Mask.bit i)) (hd : d.IsImplicant p)
    (hdx : d.covers x = true) : c.contains d = true := by
  rw [contains_iff_forall_position]
  intro i hi hm
  have hdm : d.missing.getLsbD i = false := by
    by_contra hdm
    rw [Bool.not_eq_false] at hdm
    exact hout i hi (value_ne_missing_iff.2 hm) (hd _ (covers_xor_bit hdx hdm))
  exact ⟨hdm, (covers_iff.1 hcx i hi hm).trans (covers_iff.1 hdx i hi hdm).symm⟩

/-- Then the cube is prime if it is an implicant itself. -/
theorem IsImplicant.isPrime_of_neighbours {c : Cube n} (hc : c.IsImplicant p) {x : BitVec n}
    (hcx : c.covers x = true)
    (hout : ∀ i, i < n → c.value i ≠ .missing → ¬ p (x ^^^ Mask.bit i)) : c.IsPrime p where
  implicant := hc
  maximal i hi hm hfree := by
    have hx : (c.free i).covers x = true := contains_iff.1 (free_contains c i) x hcx
    refine hout i hi hm (hfree _ (covers_xor_bit hx ?_))
    rw [getLsbD_missing_free, decide_eq_true hi, decide_eq_true rfl, Bool.and_self, Bool.or_true]

end TwoLevel.Cube
