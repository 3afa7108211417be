/-!
# Sets of positions as bit vectors

A cube over `n` positions is held as two bit vectors, and every operation on cubes is a few
word operations on them.  Seen as sets, `&&&`, `|||` and `^^^` are the library's; what it does not
name is here:

* `Mask.bit i`, the set with one position, and `Mask.diff x y`, what is in `x` and not in `y`;
* `Mask.subset x y`, decided by one union and one comparison;
* `Mask.positions x`, the members in increasing order, and `Mask.count x`, how many there are.

The view of all of them is `BitVec.getLsbD`, one lemma for each operation.  None of the operations
forms the complement of a set by hand, so none of them has to know where the set ends.
-/

set_option autoImplicit false

namespace TwoLevel.Mask

variable {n : Nat}

/-! ## Operations -/

/-- The set with the one position `i`, or with none if there is no such position. -/
def bit (i : Nat) : BitVec n := BitVec.twoPow n i

/-- The positions in `x` and not in `y`. -/
def diff (x y : BitVec n) : BitVec n := x ^^^ (x &&& y)

/-- Whether every position in `x` is in `y`. -/
def subset (x y : BitVec n) : Bool := (x ||| y) == y

/-- The positions in `x`, in increasing order. -/
def positions (x : BitVec n) : List Nat := (List.range n).filter x.getLsbD

/-- The number of positions in `x`. -/
def count (x : BitVec n) : Nat := (positions x).length

/-! ## Membership -/

@[simp]
theorem getLsbD_bit (i j : Nat) :
    (bit i : BitVec n).getLsbD j = (decide (i < n) && decide (i = j)) :=
  BitVec.getLsbD_twoPow i j

@[simp]
theorem getLsbD_diff (x y : BitVec n) (i : Nat) :
    (diff x y).getLsbD i = (x.getLsbD i && !y.getLsbD i) := by
  simp only [diff, BitVec.getLsbD_xor, BitVec.getLsbD_and]
  cases x.getLsbD i <;> cases y.getLsbD i <;> rfl

@[simp]
theorem getElem_bit (i j : Nat) (h : j < n) : (bit i : BitVec n)[j] = decide (i = j) := by
  rw [← BitVec.getLsbD_eq_getElem, getLsbD_bit]
  by_cases hij : i = j
  · subst hij; simp [h]
  · simp [hij]

@[simp]
theorem getElem_diff (x y : BitVec n) (i : Nat) (h : i < n) :
    (diff x y)[i] = (x[i] && !y[i]) := by
  rw [← BitVec.getLsbD_eq_getElem, getLsbD_diff, BitVec.getLsbD_eq_getElem,
    BitVec.getLsbD_eq_getElem]

/-- Changing one position leaves the others as they are. -/
theorem getLsbD_xor_bit_of_ne (x : BitVec n) {i j : Nat} (h : j ≠ i) :
    (x ^^^ bit i).getLsbD j = x.getLsbD j := by
  rw [BitVec.getLsbD_xor, getLsbD_bit, decide_eq_false (Ne.symm h), Bool.and_false, Bool.xor_false]

theorem subset_iff {x y : BitVec n} :
    subset x y = true ↔ ∀ i, x.getLsbD i = true → y.getLsbD i = true := by
  simp only [subset, beq_iff_eq]
  constructor
  · intro h i hi
    have := congrArg (·.getLsbD i) h
    simpa [hi] using this.symm
  · intro h
    apply BitVec.eq_of_getLsbD_eq
    intro i _
    simp only [BitVec.getLsbD_or]
    cases hx : x.getLsbD i
    · simp
    · simp [h i hx]

@[simp]
theorem mem_positions {x : BitVec n} {i : Nat} : i ∈ positions x ↔ x.getLsbD i = true := by
  simp only [positions, List.mem_filter, List.mem_range, and_iff_right_iff_imp]
  exact BitVec.lt_of_getLsbD

theorem positions_nodup (x : BitVec n) : (positions x).Nodup :=
  List.nodup_range.filter _

theorem positions_increasing (x : BitVec n) : (positions x).Pairwise (· < ·) :=
  List.pairwise_lt_range.filter _

/-- A set has no member exactly when it is empty. -/
theorem positions_eq_nil_iff {x : BitVec n} : positions x = [] ↔ x = 0#n := by
  constructor
  · intro h
    apply BitVec.eq_of_getLsbD_eq
    intro i _
    cases hx : x.getLsbD i
    · simp
    · exact absurd (mem_positions.2 hx) (by simp [h])
  · rintro rfl
    simp [positions]

theorem diff_and_self (x y : BitVec n) : diff x y &&& y = 0#n := by
  apply BitVec.eq_of_getLsbD_eq
  intro i _
  simp only [BitVec.getLsbD_and, getLsbD_diff, BitVec.getLsbD_zero]
  cases y.getLsbD i <;> simp

/-! ## Counting -/

theorem count_eq_countP (x : BitVec n) : count x = (List.range n).countP x.getLsbD := by
  rw [count, positions, ← List.countP_eq_length_filter]

theorem count_eq_zero_iff {x : BitVec n} : count x = 0 ↔ x = 0#n := by
  rw [count, List.length_eq_zero_iff, positions_eq_nil_iff]

theorem count_eq_one_iff {x : BitVec n} :
    count x = 1 ↔ ∃ i, ∀ j, x.getLsbD j = true ↔ j = i := by
  rw [count, List.length_eq_one_iff]
  refine exists_congr fun i ↦ ⟨fun h j ↦ ?_, fun h ↦ ?_⟩
  · rw [← mem_positions, h, List.mem_singleton]
  · rw [← List.perm_singleton]
    refine (List.perm_ext_iff_of_nodup (positions_nodup x) (List.pairwise_singleton _ i)).2
      fun j ↦ ?_
    rw [mem_positions, h j, List.mem_singleton]

theorem count_le (x : BitVec n) : count x ≤ n := by
  have h := List.length_filter_le x.getLsbD (List.range n)
  rwa [List.length_range] at h

/-- A subset has no more members. -/
theorem count_le_of_subset {x y : BitVec n}
    (h : ∀ i, x.getLsbD i = true → y.getLsbD i = true) : count x ≤ count y := by
  rw [count_eq_countP, count_eq_countP]
  exact List.countP_mono_left fun i _ ↦ h i

/-- A subset that misses a member has strictly fewer. -/
theorem count_lt_of_subset {x y : BitVec n} {i : Nat}
    (h : ∀ j, x.getLsbD j = true → y.getLsbD j = true)
    (hy : y.getLsbD i = true) (hx : x.getLsbD i = false) : count x < count y := by
  have hsub : positions x = (positions y).filter x.getLsbD := by
    simp only [positions, List.filter_filter]
    apply List.filter_congr
    intro j _
    cases hj : x.getLsbD j
    · simp
    · simp [h j hj]
  rw [count, hsub, count, List.length_filter_lt_length_iff_exists]
  exact ⟨i, mem_positions.2 hy, by simp [hx]⟩

end TwoLevel.Mask
