import TwoLevel.Proofs.Packed.Input

/-!
# Every term that can be made is well formed

A `Recipe` says how a term is made: from outside, as an index, two masks or a text, or as the term
with every position missing, and from there on by any of the operations.  It is carried out twice,
on words (`Recipe.words`) and on terms made from cubes (`Recipe.term`).

By induction on the recipe the words are well formed (`isWellFormed_of_words`).  Most of the steps
end in the masking constructor, which sees to it whatever it is given, even two terms of different
sizes.  Where the operations are only given terms of the sizes they ask for, the words are those of
the term made from cubes (`words_eq`), so neither way makes what the other does not.

Well-formed words are the words of a cube (`IsWellFormed.exists_eq_packed`).  So words of one size
are equal when they have the same value at every position, and every position is counted under
exactly one literal.
-/

set_option autoImplicit false

namespace TwoLevel

variable {n : Nat}

/-- Every position has one of the three literals. -/
theorem Cube.count_add_count_add_count (c : Cube n) :
    c.count .zero + c.count .one + c.count .missing = n := by
  have key : ∀ is : List Nat, (is.filter fun i ↦ c.value i == .zero).length +
      (is.filter fun i ↦ c.value i == .one).length +
        (is.filter fun i ↦ c.value i == .missing).length = is.length := by
    intro is
    induction is with
    | nil => rfl
    | cons i is ih =>
      simp only [List.filter_cons, List.length_cons]
      cases c.value i <;> simp <;> omega
  rw [count_eq_length_filter, count_eq_length_filter, count_eq_length_filter, key,
    List.length_range]

namespace Term

/-- An operation on cubes put to terms, which have to be of one size. -/
def pair? (op : {n : Nat} → Cube n → Cube n → Option (Cube n)) (a b : Term) : Option Term :=
  if h : b.size = a.size then (op a.cube (h ▸ b.cube)).map (⟨a.size, ·⟩) else none

theorem pair?_mk (op : {n : Nat} → Cube n → Cube n → Option (Cube n)) (c d : Cube n) :
    pair? op ⟨n, c⟩ ⟨n, d⟩ = (op c d).map (⟨n, ·⟩) :=
  dif_pos rfl

end Term

namespace Packed

/-! ## Well-formed words -/

namespace IsWellFormed

variable {p q : Packed}

/-- What is well formed is not changed by masking. -/
theorem masked_eq (h : p.IsWellFormed) : masked p.literals p.missing p.size = p := by
  have hmissing : ∀ i, (p.missing &&& fullMask p.size).getLsbD i = p.missing.getLsbD i := by
    intro i
    rw [BitVec.getLsbD_and, getLsbD_fullMask h.size_le]
    by_cases hi : i < p.size
    · rw [decide_eq_true hi, Bool.and_true]
    · rw [h.missing_eq_false i (Nat.le_of_not_lt hi), Bool.false_and]
  have hliterals : ∀ i, (masked p.literals p.missing p.size).literals.getLsbD i =
      p.literals.getLsbD i := by
    intro i
    rw [getLsbD_literals_masked h.size_le]
    by_cases hi : i < p.size
    · have hboth : (p.literals.getLsbD i && p.missing.getLsbD i) = false := by
        rw [← BitVec.getLsbD_and, h.and_eq_zero, BitVec.getLsbD_zero]
      rw [decide_eq_true hi, Bool.and_true]
      cases hl : p.literals.getLsbD i with
      | false => rfl
      | true =>
        rw [hl, Bool.true_and] at hboth
        rw [hboth, Bool.not_false, Bool.and_true]
    · rw [h.literals_eq_false i (Nat.le_of_not_lt hi), Bool.false_and, Bool.false_and]
  exact Packed.ext (BitVec.eq_of_getLsbD_eq fun i _ ↦ hliterals i)
    (BitVec.eq_of_getLsbD_eq fun i _ ↦ hmissing i) rfl

/-- **Well-formed words are those of a cube.** -/
theorem exists_eq_packed (h : p.IsWellFormed) :
    ∃ (n : Nat) (c : Cube n), n ≤ maxPositions ∧ p = c.packed :=
  ⟨p.size, _, h.size_le, h.masked_eq.symm.trans (masked_eq_packed h.size_le _ _)⟩

end IsWellFormed

theorem isWellFormed_packed (hn : n ≤ maxPositions) (c : Cube n) : c.packed.IsWellFormed :=
  masked_packed hn c ▸ isWellFormed_masked hn _ _

/-- **Words of one size are equal exactly if they have the same values.** -/
theorem IsWellFormed.eq_iff {p q : Packed} (hp : p.IsWellFormed) (hq : q.IsWellFormed)
    (hsize : p.size = q.size) : p = q ↔ ∀ i, i < p.size → p.valueAt i = q.valueAt i := by
  obtain ⟨n, c, hn, rfl⟩ := hp.exists_eq_packed
  obtain ⟨k, d, hk, rfl⟩ := hq.exists_eq_packed
  obtain rfl : n = k := hsize
  refine ⟨fun h i _ ↦ by rw [h], fun h ↦ congrArg Cube.packed (Cube.ext_value fun i hi ↦ ?_)⟩
  rw [← valueAt_packed hn, h i hi, valueAt_packed hn]

/-- Every position is counted once. -/
theorem IsWellFormed.count_add {p : Packed} (h : p.IsWellFormed) :
    p.count .zero + p.count .one + p.count .missing = p.size := by
  obtain ⟨n, c, hn, rfl⟩ := h.exists_eq_packed
  rw [count_packed hn, count_packed hn, count_packed hn]
  exact c.count_add_count_add_count

/-! ## What the operations make -/

theorem isWellFormed_of_checkSize {size : Nat} {l m : BitVec 32} {e : Error} {p : Packed}
    {q : Prop} [Decidable q]
    (h : (do checkSize size; if q then .ok (masked l m size) else .error e) = .ok p) :
    p.IsWellFormed := by
  obtain ⟨_, hsize, h⟩ := bind_eq_ok_iff.1 h
  split at h
  · cases h
    exact isWellFormed_masked (checkSize_eq_ok_iff.1 hsize) l m
  · cases h

theorem isWellFormed_of_parse {s : String} {p : Packed} (h : parse s = .ok p) :
    p.IsWellFormed := by
  rw [parse] at h
  split at h
  · cases h
  · next hsize =>
    have hle : s.toList.length ≤ maxPositions := by omega
    obtain ⟨words, -, h⟩ := bind_eq_ok_iff.1 h
    cases h
    exact isWellFormed_masked hle _ _

namespace IsWellFormed

variable {p q r : Packed}

theorem combine (hp : p.IsWellFormed) (hq : q.IsWellFormed) (h : p.combine q = some r) :
    r.IsWellFormed := by
  by_cases hsize : p.size = q.size
  · obtain ⟨n, c, hn, rfl⟩ := hp.exists_eq_packed
    obtain ⟨k, d, hk, rfl⟩ := hq.exists_eq_packed
    obtain rfl : n = k := hsize
    rw [combine_packed hn] at h
    obtain ⟨e, -, rfl⟩ := Option.map_eq_some_iff.1 h
    exact isWellFormed_packed hn e
  · rw [Packed.combine, if_pos (Or.inl hsize)] at h
    cases h

/-- The second term may have any size, and be any two words. -/
theorem cofactor (hp : p.IsWellFormed) (h : p.cofactor q = some r) : r.IsWellFormed := by
  rw [Packed.cofactor] at h
  split at h
  · cases h
  · cases h
    exact isWellFormed_masked hp.size_le _ _

theorem inter (hp : p.IsWellFormed) (h : p.inter q = some r) : r.IsWellFormed := by
  rw [Packed.inter] at h
  split at h
  · cases h
  · cases h
    exact isWellFormed_masked hp.size_le _ _

theorem supercube (hp : p.IsWellFormed) (q : Packed) : (p.supercube q).IsWellFormed :=
  isWellFormed_masked hp.size_le _ _

theorem lower (hp : p.IsWellFormed) (mask : BitVec 32) : (p.lower mask).IsWellFormed := by
  obtain ⟨n, c, hn, rfl⟩ := hp.exists_eq_packed
  rw [lower_packed hn]
  exact isWellFormed_packed hn _

theorem negate (hp : p.IsWellFormed) : p.negate.IsWellFormed := by
  obtain ⟨n, c, hn, rfl⟩ := hp.exists_eq_packed
  rw [negate_packed hn]
  exact isWellFormed_packed hn _

theorem explicit? (hp : p.IsWellFormed) {next : Nat} (h : p.explicit? next = some r) :
    r.IsWellFormed := by
  rw [Packed.explicit?] at h
  split at h
  · cases h
    exact isWellFormed_masked hp.size_le _ _
  · cases h

end IsWellFormed

end Packed

/-! ## Recipes -/

/-- A way to make a term. -/
inductive Recipe where
  /-- A term from an index. -/
  | ofIndex (index : BitVec 64) (size : Nat)
  /-- A term from two masks. -/
  | ofMasks (literals missing : BitVec 32) (size : Nat)
  /-- The term with every position missing. -/
  | full (size : Nat)
  /-- A term from a text. -/
  | parse (s : String)
  /-- The one term that covers the points of both. -/
  | combine (a b : Recipe)
  /-- The first term seen from inside the second. -/
  | cofactor (a b : Recipe)
  /-- The term of the points in both. -/
  | inter (a b : Recipe)
  /-- The smallest term that contains both. -/
  | supercube (a b : Recipe)
  /-- A term with every position outside a mask made missing. -/
  | lower (a : Recipe) (mask : BitVec 32)
  /-- A term with opposite literals. -/
  | negate (a : Recipe)
  /-- What a call of the expansion of a term answers. -/
  | explicit (a : Recipe) (next : Nat)

namespace Recipe

/-- The words that are made, if nothing is refused and there is a result. -/
def words : Recipe → Option Packed
  | .ofIndex index size => (Packed.ofIndex index size).toOption
  | .ofMasks literals missing size => (Packed.ofMasks literals missing size).toOption
  | .full size => if size ≤ maxPositions then some (Packed.full size) else none
  | .parse s => (Packed.parse s).toOption
  | .combine a b => do (← a.words).combine (← b.words)
  | .cofactor a b => do (← a.words).cofactor (← b.words)
  | .inter a b => do (← a.words).inter (← b.words)
  | .supercube a b => do return (← a.words).supercube (← b.words)
  | .lower a mask => do return (← a.words).lower mask
  | .negate a => do return (← a.words).negate
  | .explicit a next => do (← a.words).explicit? next

/-- The term that is made from cubes. -/
def term : Recipe → Option Term
  | .ofIndex index size => (Term.ofIndex index.toNat size).toOption
  | .ofMasks literals missing size => (Term.ofMasks literals.toNat missing.toNat size).toOption
  | .full size => if size ≤ maxPositions then some (Term.full size) else none
  | .parse s => (Term.parse s).toOption
  | .combine a b => do (← a.term).combine (← b.term)
  | .cofactor a b => do (← a.term).pair? Cube.cofactor (← b.term)
  | .inter a b => do (← a.term).pair? Cube.inter (← b.term)
  | .supercube a b => do (← a.term).pair? (fun c d ↦ some (c.supercube d)) (← b.term)
  | .lower a mask => do let t ← a.term; return ⟨t.size, t.cube.keep (mask.setWidth t.size)⟩
  | .negate a => do let t ← a.term; return ⟨t.size, t.cube.negate⟩
  | .explicit a next => do (← a.term).explicit? next

/-! ## Words -/

theorem eq_ok_of_toOption {e : Except Error Packed} {p : Packed} (h : e.toOption = some p) :
    e = .ok p := by
  cases e with
  | error _ => cases h
  | ok q => rw [Option.some.inj h]

/-- **Every term that can be made is well formed.** -/
theorem isWellFormed_of_words {r : Recipe} {p : Packed} (h : r.words = some p) :
    p.IsWellFormed := by
  induction r generalizing p with
  | ofIndex index size => exact Packed.isWellFormed_of_checkSize (eq_ok_of_toOption h)
  | ofMasks literals missing size => exact Packed.isWellFormed_of_checkSize (eq_ok_of_toOption h)
  | full size =>
    rw [words] at h
    split at h
    · next hsize =>
      cases h
      rw [Packed.full_packed hsize]
      exact Packed.isWellFormed_packed hsize _
    · cases h
  | parse s => exact Packed.isWellFormed_of_parse (eq_ok_of_toOption h)
  | combine a b iha ihb =>
    obtain ⟨x, hx, h⟩ := Option.bind_eq_some_iff.1 h
    obtain ⟨y, hy, h⟩ := Option.bind_eq_some_iff.1 h
    exact (iha hx).combine (ihb hy) h
  | cofactor a b iha _ =>
    obtain ⟨x, hx, h⟩ := Option.bind_eq_some_iff.1 h
    obtain ⟨y, _, h⟩ := Option.bind_eq_some_iff.1 h
    exact (iha hx).cofactor h
  | inter a b iha _ =>
    obtain ⟨x, hx, h⟩ := Option.bind_eq_some_iff.1 h
    obtain ⟨y, _, h⟩ := Option.bind_eq_some_iff.1 h
    exact (iha hx).inter h
  | supercube a b iha _ =>
    obtain ⟨x, hx, h⟩ := Option.bind_eq_some_iff.1 h
    obtain ⟨y, _, h⟩ := Option.bind_eq_some_iff.1 h
    cases h
    exact (iha hx).supercube y
  | lower a mask ih =>
    obtain ⟨x, hx, h⟩ := Option.bind_eq_some_iff.1 h
    cases h
    exact (ih hx).lower mask
  | negate a ih =>
    obtain ⟨x, hx, h⟩ := Option.bind_eq_some_iff.1 h
    cases h
    exact (ih hx).negate
  | explicit a next ih =>
    obtain ⟨x, hx, h⟩ := Option.bind_eq_some_iff.1 h
    exact (ih hx).explicit? h

/-! ## Words and terms -/

/-- An operation on two cubes is only given terms of one size. -/
def SizesAgree : Recipe → Prop
  | .ofIndex _ _ | .ofMasks _ _ _ | .full _ | .parse _ => True
  | .combine a b => a.SizesAgree ∧ b.SizesAgree
  | .cofactor a b | .inter a b | .supercube a b => (a.SizesAgree ∧ b.SizesAgree) ∧
      ∀ p q, a.words = some p → b.words = some q → p.size = q.size
  | .lower a _ | .negate a | .explicit a _ => a.SizesAgree

theorem toOption_map_packed {e : Except Error Packed} {f : Except Error Term}
    (h : e = f.map Term.packed) : e.toOption = f.toOption.map Term.packed := by
  rw [h]
  cases f <;> rfl

/-- One step for one term, from the steps before it. -/
theorem bind_term {a : Recipe} {op : Term → Option Term} {wop : Packed → Option Packed}
    (hop : ∀ t : Term, t.size ≤ maxPositions → wop t.packed = (op t).map Term.packed)
    (ha : a.words = a.term.map Term.packed) :
    a.words.bind wop = (a.term.bind op).map Term.packed := by
  cases hta : a.term with
  | none =>
    rw [ha, hta]
    rfl
  | some t =>
    rw [hta] at ha
    rw [ha]
    exact hop t (isWellFormed_of_words ha).size_le

/-- One step for two terms. -/
theorem bind_pair? {a b : Recipe} {op : {n : Nat} → Cube n → Cube n → Option (Cube n)}
    {wop : Packed → Packed → Option Packed}
    (hop : ∀ {n : Nat}, n ≤ maxPositions → ∀ c d : Cube n,
      wop c.packed d.packed = (op c d).map Cube.packed)
    (ha : a.words = a.term.map Term.packed) (hb : b.words = b.term.map Term.packed)
    (hsize : ∀ p q, a.words = some p → b.words = some q → p.size ≠ q.size → wop p q = none) :
    (a.words.bind fun p ↦ b.words.bind fun q ↦ wop p q) =
      (a.term.bind fun t ↦ b.term.bind fun u ↦ t.pair? op u).map Term.packed := by
  cases hta : a.term with
  | none =>
    rw [ha, hta]
    rfl
  | some t =>
    rw [hta] at ha
    cases htb : b.term with
    | none =>
      rw [ha, hb, htb]
      rfl
    | some u =>
      rw [htb] at hb
      have ht : t.size ≤ maxPositions := (isWellFormed_of_words ha).size_le
      obtain ⟨n, c⟩ := t
      obtain ⟨k, d⟩ := u
      by_cases hnk : n = k
      · obtain rfl := hnk
        rw [ha, hb]
        show wop c.packed d.packed = (Term.pair? op ⟨n, c⟩ ⟨n, d⟩).map Term.packed
        rw [Term.pair?_mk, Option.map_map]
        exact hop ht c d
      · have hnone := hsize _ _ ha hb hnk
        rw [ha, hb]
        show wop c.packed d.packed = (Term.pair? op ⟨n, c⟩ ⟨k, d⟩).map Term.packed
        rw [Term.pair?, dif_neg (Ne.symm hnk)]
        exact hnone

/-- **The words are those of the term made from cubes.** -/
theorem words_eq {r : Recipe} (h : r.SizesAgree) : r.words = r.term.map Term.packed := by
  induction r with
  | ofIndex index size => exact toOption_map_packed (Packed.ofIndex_eq_map_packed index size)
  | ofMasks l m size => exact toOption_map_packed (Packed.ofMasks_eq_map_packed l m size)
  | full size =>
    rw [words, term]
    split
    · next hsize => exact congrArg some (Packed.full_packed hsize)
    · rfl
  | parse s => exact toOption_map_packed (Packed.parse_eq_map_packed s)
  | combine a b iha ihb =>
    refine bind_pair? Packed.combine_packed (iha h.1) (ihb h.2) fun p q _ _ hne ↦ ?_
    rw [Packed.combine, if_pos (Or.inl hne)]
  | cofactor a b iha ihb =>
    obtain ⟨⟨ha, hb⟩, hsize⟩ := h
    exact bind_pair? Packed.cofactor_packed (iha ha) (ihb hb)
      fun p q hp hq hne ↦ absurd (hsize p q hp hq) hne
  | inter a b iha ihb =>
    obtain ⟨⟨ha, hb⟩, hsize⟩ := h
    exact bind_pair? Packed.inter_packed (iha ha) (ihb hb)
      fun p q hp hq hne ↦ absurd (hsize p q hp hq) hne
  | supercube a b iha ihb =>
    obtain ⟨⟨ha, hb⟩, hsize⟩ := h
    refine bind_pair? (fun hn c d ↦ ?_) (iha ha) (ihb hb)
      fun p q hp hq hne ↦ absurd (hsize p q hp hq) hne
    exact congrArg some (Packed.supercube_packed hn c d)
  | lower a mask ih =>
    exact bind_term (fun t ht ↦ congrArg some (Packed.lower_packed ht t.cube mask)) (ih h)
  | negate a ih =>
    exact bind_term (fun t ht ↦ congrArg some (Packed.negate_packed ht t.cube)) (ih h)
  | explicit a next ih =>
    refine bind_term (fun t ht ↦ (Packed.explicit?_packed ht t.cube next).trans ?_) (ih h)
    rw [Term.explicit?_eq, Option.map_map]
    rfl

/-! ## All terms -/

/-- What a recipe makes is well formed, with what follows from that for equality and counting. -/
structure IsSound (r : Recipe) : Prop where
  /-- The words are those of the term that is made from cubes. -/
  words_eq : r.SizesAgree → r.words = r.term.map Term.packed
  /-- No position is both literal and missing, and neither word has a bit at or above the size; this
  holds even where two terms of different sizes are put together. -/
  isWellFormed : ∀ p, r.words = some p → p.IsWellFormed
  /-- Words of one size, however they were made, are equal exactly if all values agree. -/
  eq_iff : ∀ (s : Recipe) (p q : Packed), r.words = some p → s.words = some q → p.size = q.size →
    (p = q ↔ ∀ i, i < p.size → p.valueAt i = q.valueAt i)
  /-- The three counts come to the number of positions. -/
  count_add : ∀ p, r.words = some p →
    p.count .zero + p.count .one + p.count .missing = p.size

theorem isSound (r : Recipe) : r.IsSound where
  words_eq := words_eq
  isWellFormed _ hp := isWellFormed_of_words hp
  eq_iff _ _ _ hp hq hsize := (isWellFormed_of_words hp).eq_iff (isWellFormed_of_words hq) hsize
  count_add _ hp := (isWellFormed_of_words hp).count_add

end Recipe

namespace Packed

/-! ## The check of the masks -/

theorem ofMasks_of_le {l m : BitVec 32} {size : Nat} (h : size ≤ maxPositions) :
    ofMasks l m size = if (l ||| m) &&& ~~~fullMask size = 0#32 then .ok (masked l m size)
      else .error (.invalidPosition (32 - (l ||| m).clz.toNat - 1) size) := by
  rw [ofMasks, checkSize_eq_ok_iff.2 h]
  rfl

theorem exists_ofMasks_iff {l m : BitVec 32} {size : Nat} (h : size ≤ maxPositions) :
    (∃ e, ofMasks l m size = .error e) ↔
      ∃ i, size ≤ i ∧ (l.getLsbD i = true ∨ m.getLsbD i = true) := by
  have hinside := and_not_fullMask_eq_zero_iff h (x := l ||| m)
  rw [ofMasks_of_le h]
  by_cases hzero : (l ||| m) &&& ~~~fullMask size = 0#32
  · rw [if_pos hzero]
    refine iff_of_false nofun ?_
    rintro ⟨i, hi, hbit⟩
    have hnone := hinside.1 hzero i hi
    rw [BitVec.getLsbD_or, Bool.or_eq_false_iff] at hnone
    rw [hnone.1, hnone.2] at hbit
    exact hbit.elim nofun nofun
  · rw [if_neg hzero]
    refine iff_of_true ⟨_, rfl⟩ ?_
    by_contra hno
    refine hzero (hinside.2 fun i hi ↦ ?_)
    rw [BitVec.getLsbD_or, ← Bool.not_eq_true, Bool.or_eq_true]
    exact fun hbit ↦ hno ⟨i, hi, hbit⟩

/-- A position is the highest of those given at or above a size. -/
structure IsHighest (l m : BitVec 32) (size position : Nat) : Prop where
  /-- The position is at or above the size. -/
  le : size ≤ position
  /-- It is given in one of the masks. -/
  isGiven : l.getLsbD position = true ∨ m.getLsbD position = true
  /-- Nothing is given above it. -/
  above : ∀ i, position < i → l.getLsbD i = false ∧ m.getLsbD i = false

theorem isHighest_log2 {l m : BitVec 32} {size i : Nat} (hi : size ≤ i)
    (hbit : l.getLsbD i = true ∨ m.getLsbD i = true) :
    IsHighest l m size (l ||| m).toNat.log2 := by
  have hset : (l ||| m).getLsbD i = true := by rwa [BitVec.getLsbD_or, Bool.or_eq_true]
  have habove : ∀ j, (l ||| m).toNat.log2 < j → (l ||| m).getLsbD j = false := fun j hj ↦
    Nat.testBit_lt_two_pow (Nat.lt_of_lt_of_le Nat.lt_log2_self
      (Nat.pow_le_pow_right (by decide) hj))
  have hne : (l ||| m).toNat ≠ 0 := by
    intro hzero
    rw [BitVec.getLsbD, hzero, Nat.zero_testBit] at hset
    cases hset
  refine ⟨Nat.le_trans hi (Nat.le_of_not_lt fun hlt ↦ ?_), ?_, fun j hj ↦ ?_⟩
  · rw [habove i hlt] at hset
    cases hset
  · rw [← Bool.or_eq_true, ← BitVec.getLsbD_or]
    exact Nat.testBit_log2 hne
  · rw [← Bool.or_eq_false_iff, ← BitVec.getLsbD_or]
    exact habove j hj

/-- What is checked of two masks. -/
structure ChecksMasks (l m : BitVec 32) (size : Nat) : Prop where
  /-- The masks make the words of the term that the numbers make. -/
  eq_map_packed : ofMasks l m size = (Term.ofMasks l.toNat m.toNat size).map Term.packed
  /-- A size that no term has is refused, whatever the masks. -/
  unsupported : maxPositions < size →
    ofMasks l m size = .error (.invalidVariables (.unsupported size))
  /-- Otherwise the masks are refused exactly if something is given at or above the size. -/
  fails_iff : size ≤ maxPositions → ((∃ e, ofMasks l m size = .error e) ↔
    ∃ i, size ≤ i ∧ (l.getLsbD i = true ∨ m.getLsbD i = true))
  /-- A refusal names the highest position that is given at or above the size. -/
  names_highest : size ≤ maxPositions → ∀ e, ofMasks l m size = .error e →
    ∃ position, e = .invalidPosition position size ∧ IsHighest l m size position

theorem checksMasks (l m : BitVec 32) (size : Nat) : ChecksMasks l m size where
  eq_map_packed := ofMasks_eq_map_packed l m size
  unsupported h := by
    rw [ofMasks, checkSize, if_neg (Nat.not_le_of_lt h)]
    rfl
  fails_iff := exists_ofMasks_iff
  names_highest h e he := by
    obtain ⟨i, hi, hbit⟩ := (exists_ofMasks_iff h).1 ⟨e, he⟩
    refine ⟨_, ?_, isHighest_log2 hi hbit⟩
    rw [ofMasks_of_le h] at he
    split at he
    · cases he
    · cases he
      rw [sub_clz_eq_log2]
      intro hzero
      have hset : (l ||| m).getLsbD i = true := by rwa [BitVec.getLsbD_or, Bool.or_eq_true]
      rw [hzero, BitVec.getLsbD_zero] at hset
      cases hset

end Packed

/-- **Terms are always well formed**, however they are made, and masks are refused exactly if they
give a position that the term does not have. -/
theorem made_terms_wellFormed : (∀ r : Recipe, r.IsSound) ∧
    ∀ (l m : BitVec 32) (size : Nat), Packed.ChecksMasks l m size :=
  ⟨Recipe.isSound, Packed.checksMasks⟩

end TwoLevel
