import TwoLevel.Proofs.Term.Expansion
import TwoLevel.Proofs.Term.Text

/-!
# Terms as words

What is stored, compared and hashed of a term is two words of 32 bits and a number of positions
(`Packed`).  Nothing in that form keeps a word from having a bit where the term has no position, or
both words from having the same bit, so every operation has to see to it: either what comes out is
masked (`Packed.masked`), or words are complemented only under a mask.

Here are the operations as they are on words, and the words of a cube (`Cube.packed`): its two sets,
made longer by zeros.  Two lemmas are what `Operations.lean` and `Input.lean` compare the two by:

* the words that the masking constructor makes are those of a cube, whatever it is given
  (`masked_eq_packed`);
* words that have the bits of a cube are its words (`mk_eq_packed`).
-/

set_option autoImplicit false

namespace TwoLevel

variable {n : Nat}

/-- The bits of a word are counted as the members of the set that it is. -/
theorem Mask.toNat_cpop (x : BitVec n) : x.cpop.toNat = Mask.count x := by
  have key : ∀ k, x.cpopNatRec k 0 = (List.range k).countP x.getLsbD := by
    intro k
    induction k with
    | zero => rfl
    | succ k ih =>
      rw [BitVec.cpopNatRec_succ, BitVec.cpopNatRec_add, ih, List.range_succ, List.countP_append,
        List.countP_singleton]
      cases x.getLsbD k <;> rfl
  rw [BitVec.toNat_cpop, key, Mask.count_eq_countP]

/-- One set lies in another if nothing of it is left outside. -/
theorem Mask.subset_eq_beq_zero (x y : BitVec n) : Mask.subset x y = (x &&& ~~~y == 0#n) := by
  rw [Bool.eq_iff_iff, Mask.subset_iff, beq_iff_eq]
  refine ⟨fun h ↦ BitVec.eq_of_getLsbD_eq fun i hi ↦ ?_, fun h i hx ↦ ?_⟩
  · rw [BitVec.getLsbD_and, BitVec.getLsbD_not, decide_eq_true hi, BitVec.getLsbD_zero]
    cases hx : x.getLsbD i with
    | false => rfl
    | true =>
      rw [h i hx]
      rfl
  · have hbit := congrArg (·.getLsbD i) h
    simpa [hx, BitVec.lt_of_getLsbD hx] using hbit

/-- Two words of positions and the number of positions. -/
@[ext]
structure Packed where
  /-- The positions that are one. -/
  literals : BitVec 32
  /-- The positions that may be either. -/
  missing : BitVec 32
  /-- The number of positions. -/
  size : Nat
deriving DecidableEq

namespace Packed

/-! ## Operations on words -/

/-- The positions of a term of a size. -/
def fullMask (size : Nat) : BitVec 32 := (1#32 <<< size) - 1#32

/-- The positions that are not missing. -/
def care (p : Packed) : BitVec 32 := ~~~p.missing &&& fullMask p.size

/-- The words masked so that they are those of a term. -/
def masked (literals missing : BitVec 32) (size : Nat) : Packed where
  literals := literals &&& ~~~(missing &&& fullMask size) &&& fullMask size
  missing := missing &&& fullMask size
  size := size

/-- The term with the given index and no missing positions. -/
def ofIndex (index : BitVec 64) (size : Nat) : Except Error Packed := do
  checkSize size
  if index < 1#64 <<< size then .ok (masked (index.setWidth 32) 0#32 size)
  else .error (.invalidIndex index.toNat (1#64 <<< size).toNat)

/-- The term with the given sets of positions; a position in both is missing. -/
def ofMasks (literals missing : BitVec 32) (size : Nat) : Except Error Packed := do
  checkSize size
  if (literals ||| missing) &&& ~~~fullMask size = 0#32 then .ok (masked literals missing size)
  else .error (.invalidPosition (32 - (literals ||| missing).clz.toNat - 1) size)

/-- The term with every position missing. -/
def full (size : Nat) : Packed := ⟨0#32, fullMask size, size⟩

/-- The words with one more character read into them. -/
def readChar (size : Nat) (words : BitVec 32 × BitVec 32) (entry : Char × Nat) :
    Except Error (BitVec 32 × BitVec 32) :=
  match Literal.ofChar? entry.1 with
  | some .zero => .ok words
  | some .one => .ok (words.1 ||| 1#32 <<< (size - 1 - entry.2), words.2)
  | some .missing => .ok (words.1, words.2 ||| 1#32 <<< (size - 1 - entry.2))
  | none => .error (.invalidPosition (size - 1 - entry.2) size)

/-- The term written as the given text. -/
def parse (s : String) : Except Error Packed := do
  let size := s.toList.length
  if size = 0 ∨ maxPositions < size then
    .error (.invalidTermSize size (max 1 (min size maxPositions)))
  else
    let words ← s.toList.zipIdx.foldlM (readChar size) (0#32, 0#32)
    return masked words.1 words.2 size

/-- The literal at a position. -/
def valueAt (p : Packed) (position : Nat) : Literal :=
  if p.missing &&& 1#32 <<< position ≠ 0#32 then .missing
  else if p.literals &&& 1#32 <<< position ≠ 0#32 then .one
  else .zero

/-- The number of positions with the given literal. -/
def count (p : Packed) : Literal → Nat
  | .one => p.literals.cpop.toNat
  | .zero => (~~~p.literals &&& p.care).cpop.toNat
  | .missing => p.missing.cpop.toNat

/-- The explicit positions of the first term at which the literals differ. -/
def differences (a b : Packed) : BitVec 32 := (a.literals ^^^ b.literals) &&& ~~~a.missing

/-- Whether the literals do not differ at any explicit position of the first term. -/
def implies (a b : Packed) : Bool := a.differences b == 0#32

/-- Whether what is missing in the second term is missing in the first, and the first implies the
second. -/
def contains (a b : Packed) : Bool := b.missing &&& ~~~a.missing == 0#32 && a.implies b

/-- The term that covers the points of both, where they differ in one explicit position. -/
def combine (a b : Packed) : Option Packed :=
  if a.size ≠ b.size ∨ a.missing ≠ b.missing then none
  else if (a.differences b).cpop.toNat ≠ 1 then none
  else some ⟨a.literals &&& ~~~a.differences b, a.missing ||| a.differences b, a.size⟩

/-- The positions explicit in both terms at which the literals differ. -/
def conflicts (a b : Packed) : BitVec 32 := (a.literals ^^^ b.literals) &&& a.care &&& b.care

/-- The first term seen from inside the second. -/
def cofactor (a b : Packed) : Option Packed :=
  if a.conflicts b ≠ 0#32 then none
  else some (masked a.literals (a.missing ||| b.care) a.size)

/-- The term of the points in both. -/
def inter (a b : Packed) : Option Packed :=
  if a.conflicts b ≠ 0#32 then none
  else some (masked (a.literals ||| b.literals) (a.missing &&& b.missing) a.size)

/-- The smallest term that contains both. -/
def supercube (a b : Packed) : Packed :=
  masked a.literals (a.missing ||| b.missing ||| (a.literals ^^^ b.literals)) a.size

/-- The term with every position outside a word made missing. -/
def lower (p : Packed) (mask : BitVec 32) : Packed :=
  let missing := p.missing ||| (~~~mask &&& fullMask p.size)
  ⟨p.literals &&& ~~~missing, missing, p.size⟩

/-- The term with the opposite literal at every explicit position. -/
def negate (p : Packed) : Packed := ⟨~~~p.literals &&& p.care, p.missing, p.size⟩

/-- The missing positions in increasing order. -/
def positions (p : Packed) : List Nat :=
  (List.range p.size).filter fun i ↦ p.missing &&& 1#32 <<< i != 0#32

/-- The literals with one missing position filled from a counter, whose highest bit goes to the
first of them. -/
def fill (next count : Nat) (literals : BitVec 32) (entry : Nat × Nat) : BitVec 32 :=
  if (next >>> (count - 1 - entry.2)) &&& 1 = 1 then literals ||| 1#32 <<< entry.1 else literals

/-- What the call with a number answers that lists the explicit terms of a term. -/
def explicit? (p : Packed) (next : Nat) : Option Packed :=
  if next < numPoints p.positions.length then
    some (masked (p.positions.zipIdx.foldl (fill next p.positions.length) p.literals) 0#32 p.size)
  else none

/-- The words of a term have no bit in common, and none where it has no position. -/
structure IsWellFormed (p : Packed) : Prop where
  /-- There are no more positions than a term can have. -/
  size_le : p.size ≤ maxPositions
  /-- No position is both. -/
  and_eq_zero : p.literals &&& p.missing = 0#32
  /-- No bit of the literals is at or above the size. -/
  literals_eq_false : ∀ i, p.size ≤ i → p.literals.getLsbD i = false
  /-- No missing position is at or above the size. -/
  missing_eq_false : ∀ i, p.size ≤ i → p.missing.getLsbD i = false

/-! ## Bits -/

theorem toNat_shiftLeft_one {w i : Nat} (h : i < w) : (1#w <<< i).toNat = numPoints i := by
  rw [← BitVec.twoPow_eq, BitVec.toNat_twoPow_of_lt h]
  rfl

theorem getLsbD_fullMask {size : Nat} (h : size ≤ maxPositions) (i : Nat) :
    (fullMask size).getLsbD i = decide (i < size) := by
  have hshift : (1#32 <<< size).toNat = 2 ^ size := toNat_shiftLeft_one (Nat.lt_succ_of_le h)
  have hmask : (fullMask size).toNat = 2 ^ size - 1 := by
    rw [fullMask, BitVec.toNat_sub_of_le, hshift]
    · rfl
    · rw [BitVec.le_def, hshift]
      exact Nat.one_le_two_pow
  rw [BitVec.getLsbD, hmask, Nat.testBit_two_pow_sub_one]

/-- A bit is looked at by itself. -/
theorem and_shiftLeft_ne_zero_iff {x : BitVec 32} {i : Nat} :
    x &&& 1#32 <<< i ≠ 0#32 ↔ x.getLsbD i = true := by
  rw [← BitVec.twoPow_eq, BitVec.and_twoPow]
  cases hx : x.getLsbD i with
  | false => simp
  | true =>
    have hbit : (BitVec.twoPow 32 i).getLsbD i = true := by
      rw [BitVec.getLsbD_twoPow, decide_eq_true (BitVec.lt_of_getLsbD hx), decide_eq_true rfl]
      rfl
    refine iff_of_true (fun hzero ↦ ?_) rfl
    rw [if_pos rfl] at hzero
    rw [hzero] at hbit
    simp at hbit

section

variable {size : Nat} (h : size ≤ maxPositions)

include h

theorem getLsbD_missing_masked (l m : BitVec 32) (i : Nat) :
    (masked l m size).missing.getLsbD i = (m.getLsbD i && decide (i < size)) := by
  rw [masked, BitVec.getLsbD_and, getLsbD_fullMask h]

theorem getLsbD_literals_masked (l m : BitVec 32) (i : Nat) :
    (masked l m size).literals.getLsbD i =
      (l.getLsbD i && !m.getLsbD i && decide (i < size)) := by
  rw [masked, BitVec.getLsbD_and, BitVec.getLsbD_and, BitVec.getLsbD_not, BitVec.getLsbD_and,
    getLsbD_fullMask h]
  by_cases hi : i < size
  · have hlt : i < 32 := Nat.lt_of_lt_of_le hi (Nat.le_succ_of_le h)
    simp [hi, hlt]
  · simp [hi]

end

/-- **What the masking constructor makes is well formed**, whatever it is given. -/
theorem isWellFormed_masked {size : Nat} (h : size ≤ maxPositions) (l m : BitVec 32) :
    (masked l m size).IsWellFormed where
  size_le := h
  and_eq_zero := by
    refine BitVec.eq_of_getLsbD_eq fun i _ ↦ ?_
    rw [BitVec.getLsbD_and, getLsbD_literals_masked h, getLsbD_missing_masked h]
    cases m.getLsbD i <;> simp
  literals_eq_false i hi := by
    have hnot : ¬ i < size := Nat.not_lt.2 hi
    rw [getLsbD_literals_masked h, decide_eq_false hnot, Bool.and_false]
  missing_eq_false i hi := by
    have hnot : ¬ i < size := Nat.not_lt.2 hi
    rw [getLsbD_missing_masked h, decide_eq_false hnot, Bool.and_false]

end Packed

/-! ## The words of a cube -/

/-- The words of a cube. -/
def Cube.packed (c : Cube n) : Packed := ⟨c.literals.setWidth 32, c.missing.setWidth 32, n⟩

/-- The words of a term. -/
def Term.packed (t : Term) : Packed := t.cube.packed

namespace Packed

theorem ofMasks_zero (x : BitVec n) : Cube.ofMasks x 0#n = Cube.minterm x := by
  refine Cube.ext_masks (BitVec.eq_of_getLsbD_eq fun i _ ↦ ?_) rfl
  rw [Cube.getLsbD_literals_ofMasks, BitVec.getLsbD_zero, Bool.not_false, Bool.and_true]
  rfl

theorem ofMasks_self (c : Cube n) : Cube.ofMasks c.literals c.missing = c := by
  refine Cube.ext_masks (BitVec.eq_of_getLsbD_eq fun i _ ↦ ?_) rfl
  rw [Cube.getLsbD_literals_ofMasks]
  cases hm : c.missing.getLsbD i with
  | true => rw [Cube.literals_eq_false hm, Bool.false_and]
  | false => rw [Bool.not_false, Bool.and_true]

section

variable (hn : n ≤ maxPositions) (c d : Cube n)

include hn

theorem getLsbD_setWidth_word (x : BitVec n) (i : Nat) :
    (x.setWidth 32).getLsbD i = x.getLsbD i := by
  rw [BitVec.getLsbD_setWidth]
  cases hx : x.getLsbD i with
  | false => rw [Bool.and_false]
  | true =>
    have hlt : i < 32 := Nat.lt_of_lt_of_le (BitVec.lt_of_getLsbD hx) (Nat.le_succ_of_le hn)
    rw [decide_eq_true hlt, Bool.and_self]

theorem toNat_setWidth_word (x : BitVec n) : (x.setWidth 32).toNat = x.toNat := by
  have hle : n ≤ 32 := Nat.le_succ_of_le hn
  exact BitVec.toNat_setWidth_of_le hle

theorem getLsbD_literals_packed (i : Nat) : c.packed.literals.getLsbD i = c.literals.getLsbD i :=
  getLsbD_setWidth_word hn c.literals i

theorem getLsbD_missing_packed (i : Nat) : c.packed.missing.getLsbD i = c.missing.getLsbD i :=
  getLsbD_setWidth_word hn c.missing i

theorem getLsbD_care_packed (i : Nat) : c.packed.care.getLsbD i = c.care.getLsbD i := by
  show (~~~c.packed.missing &&& fullMask n).getLsbD i = _
  rw [BitVec.getLsbD_and, BitVec.getLsbD_not, getLsbD_missing_packed hn, getLsbD_fullMask hn,
    Cube.getLsbD_care]
  by_cases hi : i < n
  · have hlt : i < 32 := Nat.lt_of_lt_of_le hi (Nat.le_succ_of_le hn)
    simp [hi, hlt]
  · simp [hi]

variable {c} in
/-- Words that have the bits of a cube are its words. -/
theorem mk_eq_packed {l m : BitVec 32} (hl : ∀ i, i < 32 → l.getLsbD i = c.literals.getLsbD i)
    (hm : ∀ i, i < 32 → m.getLsbD i = c.missing.getLsbD i) : (⟨l, m, n⟩ : Packed) = c.packed := by
  have hl' : l = c.literals.setWidth 32 := BitVec.eq_of_getLsbD_eq fun i hi ↦ by
    rw [hl i hi, getLsbD_setWidth_word hn]
  have hm' : m = c.missing.setWidth 32 := BitVec.eq_of_getLsbD_eq fun i hi ↦ by
    rw [hm i hi, getLsbD_setWidth_word hn]
  rw [hl', hm', Cube.packed]

/-- **The masking constructor makes the words of a cube**, of that with the given sets. -/
theorem masked_eq_packed (l m : BitVec 32) :
    masked l m n = (Cube.ofMasks (l.setWidth n) (m.setWidth n)).packed := by
  refine mk_eq_packed hn (fun i _ ↦ ?_) fun i _ ↦ ?_
  · rw [Cube.getLsbD_literals_ofMasks, BitVec.getLsbD_setWidth, BitVec.getLsbD_setWidth]
    refine (getLsbD_literals_masked hn l m i).trans ?_
    by_cases hi : i < n <;> simp [hi]
  · rw [Cube.missing_ofMasks, BitVec.getLsbD_setWidth, Bool.and_comm]
    exact getLsbD_missing_masked hn l m i

theorem setWidth_setWidth_word (x : BitVec n) : (x.setWidth 32).setWidth n = x := by
  have hle : n ≤ 32 := Nat.le_succ_of_le hn
  rw [BitVec.setWidth_setWidth_of_le x hle, BitVec.setWidth_eq]

theorem setWidth_literals_packed : c.packed.literals.setWidth n = c.literals :=
  setWidth_setWidth_word hn c.literals

theorem setWidth_missing_packed : c.packed.missing.setWidth n = c.missing :=
  setWidth_setWidth_word hn c.missing

theorem setWidth_care_packed : c.packed.care.setWidth n = c.care := by
  refine BitVec.eq_of_getLsbD_eq fun i hi ↦ ?_
  rw [BitVec.getLsbD_setWidth, getLsbD_care_packed hn, decide_eq_true hi, Bool.true_and]

/-- What is masked already stays as it is. -/
theorem masked_packed : masked c.packed.literals c.packed.missing n = c.packed := by
  rw [masked_eq_packed hn, setWidth_literals_packed hn, setWidth_missing_packed hn, ofMasks_self c]

theorem masked_minterm (x : BitVec n) :
    masked (x.setWidth 32) 0#32 n = (Cube.minterm x).packed := by
  rw [← masked_packed hn (Cube.minterm x), Cube.packed, Cube.minterm, BitVec.setWidth_zero]

end

end Packed

end TwoLevel
