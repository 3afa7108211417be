import TwoLevel.Proofs.Packed.Operations

/-!
# The words of terms that come from outside

A term is made from an index, from two masks or from a text.  In each case the words are those of
the term that is made from cubes, and what is refused is refused with the same error.

The check of the masks looks for a bit outside the mask of the size and counts the zeros in front of
the highest one.  With numbers it is a comparison with a power of two and a logarithm.

A text is read from the left, with a bit for each character that is shifted in from the top
(`readChar`), where `Term.readFrom` fills a cube from the lowest position on.  They meet in
`foldlM_readChar`, because a character is only ever put where there is nothing yet.
-/

set_option autoImplicit false

namespace TwoLevel.Packed

variable {n : Nat}

/-! ## From an index and from masks -/

theorem ofIndex_eq_map_packed (index : BitVec 64) (size : Nat) :
    ofIndex index size = (Term.ofIndex index.toNat size).map Term.packed := by
  rw [ofIndex, Term.ofIndex, checkSize]
  by_cases h : size ≤ maxPositions
  · rw [if_pos h]
    show (if index < 1#64 <<< size then _ else _) =
      Except.map Term.packed (if index.toNat < numPoints size then _ else _)
    have hshift : (1#64 <<< size).toNat = numPoints size :=
      toNat_shiftLeft_one (Nat.lt_of_le_of_lt h (by decide))
    have hiff : index < 1#64 <<< size ↔ index.toNat < numPoints size := by
      rw [BitVec.lt_def, hshift]
    by_cases hlt : index.toNat < numPoints size
    · rw [if_pos (hiff.2 hlt), if_pos hlt]
      refine congrArg Except.ok ((masked_eq_packed h _ _).trans (congrArg Cube.packed ?_))
      have hle : size ≤ 32 := Nat.le_succ_of_le h
      rw [BitVec.setWidth_setWidth_of_le index hle, ← BitVec.ofNat_toNat, BitVec.setWidth_zero]
      exact ofMasks_zero _
    · rw [if_neg (hlt ∘ hiff.1), if_neg hlt, hshift]
      rfl
  · rw [if_neg h]
    rfl

/-- Nothing is left of a word outside the mask when it has no bit at or above the size. -/
theorem and_not_fullMask_eq_zero_iff {size : Nat} (h : size ≤ maxPositions) {x : BitVec 32} :
    x &&& ~~~fullMask size = 0#32 ↔ ∀ i, size ≤ i → x.getLsbD i = false := by
  have hbit : ∀ i, (x &&& ~~~fullMask size).getLsbD i = (x.getLsbD i && !decide (i < size)) := by
    intro i
    rw [BitVec.getLsbD_and, BitVec.getLsbD_not, getLsbD_fullMask h]
    cases hx : x.getLsbD i with
    | false => rw [Bool.false_and, Bool.false_and]
    | true => rw [decide_eq_true (BitVec.lt_of_getLsbD hx), Bool.true_and]
  refine ⟨fun hzero i hi ↦ ?_, fun hx ↦ BitVec.eq_of_getLsbD_eq fun i _ ↦ ?_⟩
  · have hi' := hbit i
    rw [hzero, decide_eq_false (Nat.not_lt.2 hi), Bool.not_false, Bool.and_true] at hi'
    rw [← hi']
    exact BitVec.getLsbD_zero
  · rw [hbit, show (0#32).getLsbD i = false from BitVec.getLsbD_zero]
    by_cases hi : i < size
    · rw [decide_eq_true hi, Bool.not_true, Bool.and_false]
    · rw [hx i (Nat.le_of_not_lt hi), Bool.false_and]

theorem toNat_lt_numPoints_iff {size : Nat} {x : BitVec 32} :
    x.toNat < numPoints size ↔ ∀ i, size ≤ i → x.getLsbD i = false := by
  refine ⟨fun hlt i hi ↦ ?_, fun hx ↦ Nat.lt_pow_two_of_testBit _ fun i hi ↦ hx i hi⟩
  exact Nat.testBit_lt_two_pow (Nat.lt_of_lt_of_le hlt (Nat.pow_le_pow_right (by decide) hi))

/-- The highest bit of a word, by the number of zeros in front of it. -/
theorem sub_clz_eq_log2 {x : BitVec 32} (h : x ≠ 0#32) : 32 - x.clz.toNat - 1 = x.toNat.log2 := by
  have hne : x.toNat ≠ 0 := fun hzero ↦ h (BitVec.eq_of_toNat_eq hzero)
  have hlt : x.clz.toNat < 32 := BitVec.lt_def.1 (BitVec.clz_lt_iff_ne_zero.2 h)
  have hlow := BitVec.two_pow_sub_clz_le_toNat_of_ne_zero (by decide) h
  have hhigh := x.toNat_lt_two_pow_sub_clz
  refine ((Nat.log2_eq_iff hne).2 ⟨?_, ?_⟩).symm
  · rwa [Nat.sub_right_comm]
  · rwa [Nat.sub_add_cancel (by omega)]

theorem ofMasks_eq_map_packed (l m : BitVec 32) (size : Nat) :
    ofMasks l m size = (Term.ofMasks l.toNat m.toNat size).map Term.packed := by
  rw [ofMasks, Term.ofMasks, checkSize, ← BitVec.toNat_or]
  by_cases h : size ≤ maxPositions
  · rw [if_pos h]
    show (if (l ||| m) &&& ~~~fullMask size = 0#32 then _ else _) =
      Except.map Term.packed (if (l ||| m).toNat < numPoints size then _ else _)
    have hiff : (l ||| m) &&& ~~~fullMask size = 0#32 ↔ (l ||| m).toNat < numPoints size := by
      rw [and_not_fullMask_eq_zero_iff h, toNat_lt_numPoints_iff]
    by_cases hlt : (l ||| m).toNat < numPoints size
    · rw [if_pos (hiff.2 hlt), if_pos hlt, BitVec.ofNat_toNat, BitVec.ofNat_toNat]
      exact congrArg Except.ok (masked_eq_packed h l m)
    · have hne : l ||| m ≠ 0#32 := by
        intro hzero
        refine hlt ?_
        rw [hzero]
        exact Nat.two_pow_pos size
      rw [if_neg (hlt ∘ hiff.1), if_neg hlt, sub_clz_eq_log2 hne]
      rfl
  · rw [if_neg h]
    rfl

/-! ## From a text -/

theorem value_eq_zero_of_readFrom {size : Nat} {cs : List Char} {c : Cube size}
    (h : Term.readFrom size cs = .ok c) (hle : cs.length ≤ size) {i : Nat} (hi : cs.length ≤ i)
    (hlt : i < size) : c.value i = .zero := by
  induction cs generalizing c i with
  | nil =>
    cases h
    simp [Cube.value, Cube.minterm]
  | cons ch cs ih =>
    rw [List.length_cons] at hle hi
    cases hch : Literal.ofChar? ch with
    | none =>
      rw [Term.readFrom_cons_of_none hch] at h
      cases h
    | some l =>
      rw [Term.readFrom_cons_of_some hch] at h
      cases hrest : Term.readFrom size cs with
      | error e =>
        rw [hrest] at h
        cases h
      | ok d =>
        rw [hrest] at h
        cases h
        have hd : ∀ j, cs.length ≤ j → j < size → d.value j = .zero :=
          fun j hj hjs ↦ ih hrest (Nat.le_of_succ_le hle) hj hjs
        rw [Cube.value_place (by omega) (hd _ (Nat.le_refl _) (by omega)), if_neg (by omega)]
        exact hd i (by omega) hlt

/-- A literal placed in a cube is placed in its words. -/
theorem packed_place {c : Cube n} (hn : n ≤ maxPositions) {i : Nat} (hi : i < n)
    (hzero : c.value i = .zero) (l : Literal) :
    (c.place i l).packed =
      ⟨c.packed.literals ||| (if l = .one then 1#32 <<< i else 0#32),
        c.packed.missing ||| (if l = .missing then 1#32 <<< i else 0#32), n⟩ := by
  have hm : c.missing.getLsbD i = false := Cube.value_ne_missing_iff.1 (by rw [hzero]; decide)
  have hl : c.literals.getLsbD i = false := by
    rw [← Bool.not_eq_true, ← Cube.value_eq_one_iff, hzero]
    decide
  cases l with
  | zero =>
    rw [if_neg (by decide), if_neg (by decide)]
    refine (mk_eq_packed hn (fun j _ ↦ ?_) fun j _ ↦ ?_).symm
    · rw [BitVec.or_zero]
      exact getLsbD_literals_packed hn c j
    · rw [BitVec.or_zero]
      exact getLsbD_missing_packed hn c j
  | one =>
    rw [if_pos rfl, if_neg (by decide), shiftLeft_eq_setWidth hn hi]
    refine (mk_eq_packed hn (fun j _ ↦ ?_) fun j _ ↦ ?_).symm
    · rw [BitVec.getLsbD_or, getLsbD_literals_packed hn, getLsbD_setWidth_word hn, Cube.place,
        Cube.getLsbD_literals_ofMasks, BitVec.getLsbD_or]
      cases hmj : c.missing.getLsbD j with
      | false => rw [Bool.not_false, Bool.and_true]
      | true =>
        have hij : i ≠ j := by
          rintro rfl
          rw [hm] at hmj
          cases hmj
        rw [Cube.literals_eq_false hmj, Mask.getLsbD_bit, decide_eq_false hij]
        simp
    · rw [BitVec.or_zero]
      exact getLsbD_missing_packed hn c j
  | missing =>
    rw [if_neg (by decide), if_pos rfl, shiftLeft_eq_setWidth hn hi]
    refine (mk_eq_packed hn (fun j _ ↦ ?_) fun j _ ↦ ?_).symm
    · rw [BitVec.or_zero, getLsbD_literals_packed hn, Cube.place, Cube.getLsbD_literals_ofMasks,
        BitVec.getLsbD_or, Mask.getLsbD_bit, decide_eq_true hi, Bool.true_and]
      by_cases hij : i = j
      · rw [← hij, hl, Bool.false_and]
      · rw [decide_eq_false hij, Bool.or_false]
        cases hmj : c.missing.getLsbD j with
        | false => rw [Bool.not_false, Bool.and_true]
        | true => rw [Cube.literals_eq_false hmj, Bool.false_and]
    · rw [BitVec.getLsbD_or, getLsbD_missing_packed hn, getLsbD_setWidth_word hn, Cube.place,
        Cube.missing_ofMasks, BitVec.getLsbD_or]

theorem readChar_eq {size k : Nat} {ch : Char} {l : Literal} (h : Literal.ofChar? ch = some l)
    (words : BitVec 32 × BitVec 32) : readChar size words (ch, k) =
      .ok (words.1 ||| (if l = .one then 1#32 <<< (size - 1 - k) else 0#32),
        words.2 ||| (if l = .missing then 1#32 <<< (size - 1 - k) else 0#32)) := by
  rw [readChar, h]
  cases l <;> simp

/-- The characters are read into the words as by the recursion on them. -/
theorem foldlM_readChar {size : Nat} (hsize : size ≤ maxPositions) {cs : List Char} {k : Nat}
    (hk : k + cs.length = size) (words : BitVec 32 × BitVec 32) :
    (cs.zipIdx k).foldlM (readChar size) words =
      (Term.readFrom size cs).map fun c ↦
        (words.1 ||| c.packed.literals, words.2 ||| c.packed.missing) := by
  induction cs generalizing k words with
  | nil =>
    have hempty : (Cube.minterm (BitVec.ofNat size 0)).packed = ⟨0#32, 0#32, size⟩ := by
      rw [Cube.packed, Cube.minterm, BitVec.setWidth_zero]
    show Except.ok words =
      Except.ok (words.1 ||| (Cube.minterm (BitVec.ofNat size 0)).packed.literals,
        words.2 ||| (Cube.minterm (BitVec.ofNat size 0)).packed.missing)
    rw [hempty, BitVec.or_zero, BitVec.or_zero]
  | cons ch cs ih =>
    have hposition : size - 1 - k = cs.length := by
      rw [List.length_cons] at hk
      omega
    rw [List.zipIdx_cons, List.foldlM_cons]
    cases hch : Literal.ofChar? ch with
    | none =>
      rw [Term.readFrom_cons_of_none hch, readChar, hch, hposition]
      rfl
    | some l =>
      rw [Term.readFrom_cons_of_some hch, readChar_eq hch, hposition]
      show (cs.zipIdx (k + 1)).foldlM (readChar size) _ = _
      rw [ih (by rw [List.length_cons] at hk; omega)]
      cases hrest : Term.readFrom size cs with
      | error e => rfl
      | ok c =>
        have hlt : cs.length < size := by
          rw [List.length_cons] at hk
          omega
        have hzero := value_eq_zero_of_readFrom hrest (Nat.le_of_lt hlt) (Nat.le_refl _) hlt
        have hplace := packed_place hsize hlt hzero l
        show Except.ok (_ ||| c.packed.literals, _ ||| c.packed.missing) =
          Except.ok (words.1 ||| (c.place cs.length l).packed.literals,
            words.2 ||| (c.place cs.length l).packed.missing)
        rw [hplace, BitVec.or_assoc, BitVec.or_assoc, BitVec.or_comm c.packed.literals,
          BitVec.or_comm c.packed.missing]

theorem parse_eq_map_packed (s : String) : parse s = (Term.parse s).map Term.packed := by
  rw [parse, Term.parse, Term.ofChars]
  by_cases h : s.toList.length = 0 ∨ maxPositions < s.toList.length
  · rw [if_pos h, if_pos h]
    rfl
  · have hsize : s.toList.length ≤ maxPositions := by omega
    rw [if_neg h, if_neg h, foldlM_readChar hsize (Nat.zero_add _)]
    cases hread : Term.readFrom s.toList.length s.toList with
    | error e => rfl
    | ok c =>
      show Except.ok (masked (0#32 ||| c.packed.literals) (0#32 ||| c.packed.missing)
        s.toList.length) = Except.ok c.packed
      rw [BitVec.zero_or, BitVec.zero_or, masked_packed hsize]

end TwoLevel.Packed
