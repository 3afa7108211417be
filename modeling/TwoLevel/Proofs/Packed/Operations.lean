import TwoLevel.Proofs.Packed.Basic

/-!
# Operations on the words of cubes

For each operation on cubes the one on words makes the words of its result.  Where the operation on
words ends in the masking constructor, there is only left to see what it is given below the size,
and that is read off with `BitVec.setWidth`; `combine`, `lower` and `negate` write their words
directly and are followed bit by bit.

The two questions are asked of terms of any two sizes, and the words, which are all of one width,
are compared as the numbers they are (`implies_packed`, `contains_packed`).

The terms an expansion lists are made from a counter, bit by bit (`foldl_fill`).
-/

set_option autoImplicit false

namespace TwoLevel.Packed

variable {n : Nat}

section

variable (hn : n ≤ maxPositions) (c d : Cube n)

include hn

theorem full_packed : full n = (Cube.full n).packed := by
  refine mk_eq_packed hn (fun i _ ↦ ?_) fun i _ ↦ ?_
  · simp [Cube.full]
  · rw [getLsbD_fullMask hn, Cube.full, BitVec.getLsbD_allOnes]

theorem negate_packed : c.packed.negate = c.negate.packed := by
  refine mk_eq_packed hn (fun i hi ↦ ?_) fun i _ ↦ getLsbD_missing_packed hn c i
  rw [BitVec.getLsbD_and, BitVec.getLsbD_not, getLsbD_literals_packed hn, getLsbD_care_packed hn,
    Cube.negate, Cube.getLsbD_literals_ofMasks, Cube.getLsbD_zeros, Cube.getLsbD_care,
    decide_eq_true hi]
  cases c.missing.getLsbD i <;> cases c.literals.getLsbD i <;> simp

theorem lower_packed (mask : BitVec 32) :
    c.packed.lower mask = (c.keep (mask.setWidth n)).packed := by
  have hmissing : ∀ i, i < 32 →
      (c.packed.missing ||| (~~~mask &&& fullMask n)).getLsbD i =
        (c.keep (mask.setWidth n)).missing.getLsbD i := by
    intro i hi
    rw [BitVec.getLsbD_or, BitVec.getLsbD_and, BitVec.getLsbD_not, getLsbD_missing_packed hn,
      getLsbD_fullMask hn, Cube.keep, Cube.missing_ofMasks, BitVec.getLsbD_or, Mask.getLsbD_diff,
      BitVec.getLsbD_allOnes, BitVec.getLsbD_setWidth, decide_eq_true hi]
    by_cases hin : i < n <;> simp [hin]
  refine mk_eq_packed hn (fun i hi ↦ ?_) hmissing
  show (c.packed.literals &&& ~~~(c.packed.missing ||| (~~~mask &&& fullMask n))).getLsbD i = _
  rw [BitVec.getLsbD_and, BitVec.getLsbD_not, hmissing i hi, getLsbD_literals_packed hn,
    decide_eq_true hi, Bool.true_and, Cube.keep, Cube.missing_ofMasks,
    Cube.getLsbD_literals_ofMasks]

theorem supercube_packed : c.packed.supercube d.packed = (c.supercube d).packed := by
  refine (masked_eq_packed hn _ _).trans (congrArg Cube.packed ?_)
  rw [BitVec.setWidth_or, BitVec.setWidth_or, BitVec.setWidth_xor, setWidth_literals_packed hn,
    setWidth_literals_packed hn, setWidth_missing_packed hn, setWidth_missing_packed hn,
    Cube.supercube]

theorem conflicts_packed : c.packed.conflicts d.packed = (c.conflicts d).setWidth 32 := by
  refine BitVec.eq_of_getLsbD_eq fun i _ ↦ ?_
  rw [conflicts, BitVec.getLsbD_and, BitVec.getLsbD_and, BitVec.getLsbD_xor,
    getLsbD_literals_packed hn, getLsbD_literals_packed hn, getLsbD_care_packed hn,
    getLsbD_care_packed hn, getLsbD_setWidth_word hn, Cube.conflicts, Mask.getLsbD_diff,
    BitVec.getLsbD_xor, BitVec.getLsbD_or, Cube.getLsbD_care, Cube.getLsbD_care]
  by_cases hi : i < n
  · cases c.missing.getLsbD i <;> simp [hi]
  · simp [hi, BitVec.getLsbD_of_ge _ _ (Nat.le_of_not_lt hi)]

theorem setWidth_eq_zero_iff (x : BitVec n) : x.setWidth 32 = 0#32 ↔ x = 0#n := by
  refine ⟨fun h ↦ ?_, ?_⟩
  · rw [← setWidth_setWidth_word hn x, h]
    exact BitVec.setWidth_zero n 32
  · rintro rfl
    exact BitVec.setWidth_zero 32 n

/-- What is made of two cubes unless they conflict is made of their words unless these do. -/
theorem ite_conflicts_packed (l m : BitVec 32) :
    (if c.packed.conflicts d.packed ≠ 0#32 then none else some (masked l m n)) =
      (if c.conflicts d = 0#n then some (Cube.ofMasks (l.setWidth n) (m.setWidth n))
        else none).map Cube.packed := by
  rw [conflicts_packed hn, masked_eq_packed hn]
  by_cases h : c.conflicts d = 0#n
  · rw [if_neg (not_not_intro ((setWidth_eq_zero_iff hn _).2 h)), if_pos h, Option.map_some]
  · rw [if_pos fun hzero ↦ h ((setWidth_eq_zero_iff hn _).1 hzero), if_neg h, Option.map_none]

theorem cofactor_packed : c.packed.cofactor d.packed = (c.cofactor d).map Cube.packed := by
  refine (ite_conflicts_packed hn c d _ _).trans ?_
  rw [BitVec.setWidth_or, setWidth_literals_packed hn, setWidth_missing_packed hn,
    setWidth_care_packed hn, Cube.cofactor]

theorem inter_packed : c.packed.inter d.packed = (c.inter d).map Cube.packed := by
  refine (ite_conflicts_packed hn c d _ _).trans ?_
  rw [BitVec.setWidth_or, BitVec.setWidth_and, setWidth_literals_packed hn,
    setWidth_literals_packed hn, setWidth_missing_packed hn, setWidth_missing_packed hn, Cube.inter]

theorem missing_packed_eq_iff : c.packed.missing = d.packed.missing ↔ c.missing = d.missing := by
  refine ⟨fun h ↦ ?_, fun h ↦ ?_⟩
  · rw [← setWidth_missing_packed hn c, h, setWidth_missing_packed hn]
  · rw [Cube.packed, Cube.packed, h]

theorem toNat_cpop_setWidth (x : BitVec n) : (x.setWidth 32).cpop.toNat = Mask.count x := by
  have hle : n ≤ 32 := Nat.le_succ_of_le hn
  rw [BitVec.toNat_cpop_setWidth_eq_of_le hle, Mask.toNat_cpop]

theorem differences_packed (hm : c.missing = d.missing) :
    c.packed.differences d.packed = (c.conflicts d).setWidth 32 := by
  refine BitVec.eq_of_getLsbD_eq fun i hi ↦ ?_
  rw [differences, BitVec.getLsbD_and, BitVec.getLsbD_xor, BitVec.getLsbD_not,
    getLsbD_literals_packed hn, getLsbD_literals_packed hn, getLsbD_missing_packed hn,
    getLsbD_setWidth_word hn, Cube.conflicts, Mask.getLsbD_diff, BitVec.getLsbD_xor,
    BitVec.getLsbD_or, ← hm, decide_eq_true hi, Bool.true_and, Bool.or_self]

theorem combine_packed : c.packed.combine d.packed = (c.combine d).map Cube.packed := by
  rw [combine, Cube.combine]
  by_cases hm : c.missing = d.missing
  · have hdiff := differences_packed hn c d hm
    have hsame : ¬ (c.packed.size ≠ d.packed.size ∨ c.packed.missing ≠ d.packed.missing) :=
      fun h ↦ h.elim (· rfl) (· ((missing_packed_eq_iff hn c d).2 hm))
    rw [if_neg hsame, hdiff, toNat_cpop_setWidth hn]
    by_cases hone : Mask.count (c.conflicts d) = 1
    · rw [if_neg (not_not_intro hone), if_pos ⟨hm, hone⟩]
      refine congrArg some (mk_eq_packed hn (fun i hi ↦ ?_) fun i _ ↦ ?_)
      · rw [BitVec.getLsbD_and, BitVec.getLsbD_not, getLsbD_literals_packed hn,
          getLsbD_setWidth_word hn, Cube.getLsbD_literals_ofMasks, BitVec.getLsbD_or,
          decide_eq_true hi, Bool.true_and]
        cases hci : c.missing.getLsbD i with
        | true => rw [Cube.literals_eq_false hci, Bool.false_and, Bool.false_and]
        | false => rw [Bool.false_or]
      · rw [BitVec.getLsbD_or, getLsbD_missing_packed hn, getLsbD_setWidth_word hn,
          Cube.missing_ofMasks, BitVec.getLsbD_or]
    · rw [if_pos hone, if_neg fun h ↦ hone h.2]
      rfl
  · rw [if_pos (Or.inr fun h ↦ hm ((missing_packed_eq_iff hn c d).1 h)), if_neg fun h ↦ hm h.1]
    rfl

theorem valueAt_packed (i : Nat) : c.packed.valueAt i = c.value i := by
  simp only [valueAt, Cube.value, and_shiftLeft_ne_zero_iff, getLsbD_missing_packed hn,
    getLsbD_literals_packed hn]

theorem count_packed (l : Literal) : c.packed.count l = c.count l := by
  cases l with
  | zero =>
    have hzeros : ~~~c.packed.literals &&& c.packed.care = c.zeros.setWidth 32 := by
      refine BitVec.eq_of_getLsbD_eq fun i hi ↦ ?_
      rw [BitVec.getLsbD_and, BitVec.getLsbD_not, getLsbD_literals_packed hn,
        getLsbD_care_packed hn, getLsbD_setWidth_word hn, Cube.zeros, Mask.getLsbD_diff,
        decide_eq_true hi, Bool.true_and, Bool.and_comm]
    rw [count, hzeros, toNat_cpop_setWidth hn]
    rfl
  | one => exact toNat_cpop_setWidth hn c.literals
  | missing => exact toNat_cpop_setWidth hn c.missing

theorem positions_packed : c.packed.positions = Mask.positions c.missing := by
  refine List.filter_congr fun i _ ↦ ?_
  rw [Bool.eq_iff_iff, bne_iff_ne, and_shiftLeft_ne_zero_iff, getLsbD_missing_packed hn]

theorem shiftLeft_eq_setWidth {i : Nat} (hi : i < n) :
    1#32 <<< i = (Mask.bit i : BitVec n).setWidth 32 := by
  have hlt : i < 32 := Nat.lt_of_lt_of_le hi (Nat.le_succ_of_le hn)
  refine BitVec.eq_of_getLsbD_eq fun j _ ↦ ?_
  rw [← BitVec.twoPow_eq, BitVec.getLsbD_twoPow, getLsbD_setWidth_word hn, Mask.getLsbD_bit,
    decide_eq_true hi, decide_eq_true hlt]

/-- The positions are filled as by the recursion on them. -/
theorem foldl_fill (next k : Nat) {is : List Nat} (his : ∀ i ∈ is, i < n) (x : BitVec n) :
    (is.zipIdx k).foldl (fill next (k + is.length)) (x.setWidth 32) =
      (x ||| Expansion.scatter next is).setWidth 32 := by
  induction is generalizing k x with
  | nil => rw [List.zipIdx_nil, List.foldl_nil, Expansion.scatter, BitVec.or_zero]
  | cons i is ih =>
    obtain ⟨hi, his⟩ := List.forall_mem_cons.1 his
    have hshift : k + (i :: is).length - 1 - k = is.length := by
      rw [List.length_cons]
      omega
    have hrest : k + (i :: is).length = k + 1 + is.length := by
      rw [List.length_cons]
      omega
    have hbit : (next >>> is.length) &&& 1 = 1 ↔ next.testBit is.length = true := by
      rw [Nat.testBit, Nat.and_comm 1, Nat.and_one_is_mod, bne_iff_ne]
      omega
    have hfill : fill next (k + (i :: is).length) (x.setWidth 32) (i, k) =
        (x ||| if next.testBit is.length then Mask.bit i else 0#n).setWidth 32 := by
      rw [fill, hshift]
      by_cases htest : next.testBit is.length = true
      · rw [if_pos (hbit.2 htest), if_pos htest, BitVec.setWidth_or, shiftLeft_eq_setWidth hn hi]
      · rw [if_neg (htest ∘ hbit.1), if_neg htest, BitVec.or_zero]
    rw [List.zipIdx_cons, List.foldl_cons, hfill, hrest, ih (k + 1) his, Expansion.scatter,
      BitVec.or_assoc]

theorem explicit?_packed (j : Nat) :
    c.packed.explicit? j = (c.points[j]?).map fun x ↦ (Cube.minterm x).packed := by
  have hlt : ∀ i ∈ Mask.positions c.missing, i < n := fun i hi ↦
    BitVec.lt_of_getLsbD (Mask.mem_positions.1 hi)
  rw [explicit?, positions_packed hn]
  by_cases hj : j < numPoints (c.count .missing)
  · have hfill := foldl_fill hn j 0 hlt c.literals
    rw [Nat.zero_add] at hfill
    rw [if_pos (show j < numPoints (Mask.positions c.missing).length from hj),
      Cube.getElem?_points_of_lt hj, Option.map_some, ← masked_minterm hn, ← hfill]
    rfl
  · rw [if_neg (show ¬ j < numPoints (Mask.positions c.missing).length from hj),
      Cube.getElem?_points_eq_none_iff.2 (Nat.le_of_not_lt hj)]
    rfl

end

/-! ## Questions about two terms -/

section

variable {a b : Term} (ha : a.size ≤ maxPositions) (hb : b.size ≤ maxPositions)

include ha hb

theorem implies_packed : a.packed.implies b.packed = a.implies b := by
  rw [implies, differences, ← Mask.subset_eq_beq_zero, ← Term.subset_eq_beq_toNat,
    BitVec.toNat_xor, Term.packed, Term.packed, Cube.packed, Cube.packed, toNat_setWidth_word ha,
    toNat_setWidth_word hb, toNat_setWidth_word ha]
  rfl

theorem contains_packed : a.packed.contains b.packed = a.contains b := by
  rw [contains, implies_packed ha hb, ← Mask.subset_eq_beq_zero, ← Term.subset_eq_beq_toNat,
    Term.packed, Term.packed, Cube.packed, Cube.packed, toNat_setWidth_word ha,
    toNat_setWidth_word hb]
  rfl

end

end TwoLevel.Packed
