import TwoLevel.Proofs.Cover.ComplementCube
import TwoLevel.Proofs.Cube.Neighbour
import Mathlib.Algebra.Group.Nat.Defs
import Mathlib.Data.List.Perm.Subperm

/-!
# The position a cover is split on

A cover is split on its most **binate** position, one at which some cube is one and some cube is
zero.  How many cubes of either kind there are is counted in one pass over the cubes, a word for
each position and each kind (`Counters`).  A second pass, over the positions, keeps the best one
seen so far (`Counters.select`).

The counts are right by induction on the cubes, and one cube adds to the two counters of each
position exactly what it is there (`getElem?_countRow`).  Words count modulo `2 ^ 32`, so with fewer
cubes than that they hold the numbers `Cover.ones` and `Cover.zeros` themselves, and the two passes
are `Cover.binateSelect` (`select_counters`).

Which of two positions is better is decided first by the smaller side and then by the larger one.
Neither side is longer than the cover, so both together are one number (`splitRank`), and the
position that is kept is the first of the largest.

The recursion goes on with the two halves.  There the position is missing in every cube, and a
cofactor has no literals but those of the cubes it comes from, so no position becomes binate
(`isBinate_of_cofactor`).
-/

set_option autoImplicit false

namespace TwoLevel

variable {n : Nat}

namespace Cube

/-- Where a cofactor is explicit it has the literal of the cube it comes from. -/
theorem value_of_cofactor {c p e : Cube n} (h : c.cofactor p = some e) {i : Nat}
    (he : e.value i ≠ .missing) : c.value i = e.value i := by
  rw [cofactor] at h
  split at h
  · cases h
    rw [value_ne_missing_iff, missing_ofMasks, BitVec.getLsbD_or, Bool.or_eq_false_iff] at he
    rw [value, value, missing_ofMasks, getLsbD_literals_ofMasks, BitVec.getLsbD_or, he.1, he.2]
    simp
  · cases h

end Cube

namespace Cover

/-! ## Counting -/

/-- How many cubes are one and how many are zero at each position, as words. -/
structure Counters where
  /-- The number of ones at each position. -/
  ones : List (BitVec 32)
  /-- The number of zeros at each position. -/
  zeros : List (BitVec 32)

/-- The counters with one more for the literal of a cube at a position, if it has one there. -/
def Counters.countAt (c : Cube n) (k : Counters) (position : Nat) : Counters :=
  if c.care.getLsbD position then
    if c.literals.getLsbD position then { k with ones := k.ones.modify position (· + 1) }
    else { k with zeros := k.zeros.modify position (· + 1) }
  else k

/-- The counters with a cube counted at every position. -/
def Counters.count (k : Counters) (c : Cube n) : Counters := (List.range n).foldl (countAt c) k

/-- The counters of a cover. -/
def counters (f : Cover n) : Counters :=
  f.foldl Counters.count ⟨List.replicate n 0, List.replicate n 0⟩

/-- One row of counters with one more at every position of a set. -/
def countRow (s : BitVec n) (row : List (BitVec 32)) : List (BitVec 32) :=
  (List.range n).foldl
    (fun row i ↦ if s.getLsbD i then row.modify i (· + 1) else row) row

/-- A cube is counted in the row of ones at its literals, and does not touch that row elsewhere. -/
theorem ones_count (k : Counters) (c : Cube n) : (k.count c).ones = countRow c.literals k.ones := by
  refine (List.foldl_hom Counters.ones fun k i ↦ ?_).symm
  rw [Counters.countAt]
  cases hl : c.literals.getLsbD i with
  | true =>
    have hm : c.missing.getLsbD i = false := by
      rw [← Bool.not_eq_true]
      intro hm
      rw [Cube.literals_eq_false hm] at hl
      cases hl
    rw [Cube.getLsbD_care, hm, decide_eq_true (BitVec.lt_of_getLsbD hl)]
    rfl
  | false => cases c.care.getLsbD i <;> rfl

/-- In the row of zeros it is counted where it is neither one nor missing. -/
theorem zeros_count (k : Counters) (c : Cube n) : (k.count c).zeros = countRow c.zeros k.zeros := by
  refine (List.foldl_hom Counters.zeros fun k i ↦ ?_).symm
  rw [Counters.countAt, Cube.zeros, Mask.getLsbD_diff]
  cases c.care.getLsbD i <;> cases c.literals.getLsbD i <;> rfl

/-- What one cube does to a counter. -/
theorem getElem?_countRow (s : BitVec n) (row : List (BitVec 32)) (i : Nat) :
    (countRow s row)[i]? = row[i]?.map (· + BitVec.ofNat 32 (s.getLsbD i).toNat) := by
  -- after the positions below `m`, the counters below `m` are done and the others untouched
  have key : ∀ m, ((List.range m).foldl
      (fun row i ↦ if s.getLsbD i then row.modify i (· + 1) else row) row)[i]? =
        row[i]?.map (· + BitVec.ofNat 32 (decide (i < m) && s.getLsbD i).toNat) := by
    intro m
    induction m with
    | zero => simp
    | succ m ih =>
      rw [List.range_succ, List.foldl_append, List.foldl_cons, List.foldl_nil]
      cases hs : s.getLsbD m with
      | false =>
        have hi : (decide (i < m + 1) && s.getLsbD i) = (decide (i < m) && s.getLsbD i) := by
          rcases Nat.lt_trichotomy i m with h | rfl | h
          · simp [h, Nat.lt_succ_of_lt h]
          · simp [hs]
          · simp [Nat.not_lt_of_lt h, Nat.not_lt.2 (Nat.succ_le_of_lt h)]
        rw [if_neg Bool.false_ne_true, ih, hi]
      | true =>
        rw [if_pos rfl, List.getElem?_modify, ih]
        rcases Nat.lt_trichotomy i m with h | rfl | h
        · simp [h, Nat.ne_of_gt h, Nat.lt_succ_of_lt h]
        · simp [hs]
        · simp [Nat.not_lt_of_lt h, Nat.ne_of_lt h, Nat.not_lt.2 (Nat.succ_le_of_lt h)]
  have hlt : (decide (i < n) && s.getLsbD i) = s.getLsbD i := by
    cases hs : s.getLsbD i with
    | true => simp [BitVec.lt_of_getLsbD hs]
    | false => simp
  rw [countRow, key, hlt]

/-- What the cubes of a cover do to a row, if each is counted at the positions of a set. -/
theorem foldl_countRow (s : Cube n → BitVec n) (f : Cover n) :
    f.foldl (fun row c ↦ countRow (s c) row) (List.replicate n 0) =
      (List.range n).map fun i ↦ BitVec.ofNat 32 (f.countP fun c ↦ (s c).getLsbD i) := by
  have key : ∀ (row : List (BitVec 32)) (i : Nat),
      (f.foldl (fun row c ↦ countRow (s c) row) row)[i]? =
        row[i]?.map (· + BitVec.ofNat 32 (f.countP fun c ↦ (s c).getLsbD i)) := by
    intro row i
    induction f generalizing row with
    | nil => simp
    | cons c f ih =>
      rw [List.foldl_cons, ih, getElem?_countRow, Option.map_map, List.countP_cons]
      refine congrArg (Option.map · _) (funext fun k ↦ ?_)
      show k + _ + _ = k + _
      rw [BitVec.add_assoc, ← BitVec.ofNat_add, Nat.add_comm]
      cases (s c).getLsbD i <;> rfl
  refine List.ext_getElem? fun i ↦ ?_
  rw [key, List.getElem?_map, List.getElem?_replicate]
  by_cases hi : i < n
  · simp [hi]
  · simp [hi]

/-- **The counters hold the numbers of ones and zeros**, modulo `2 ^ 32`. -/
theorem counters_eq (f : Cover n) : f.counters =
    ⟨(List.range n).map fun i ↦ BitVec.ofNat 32 (f.ones i),
      (List.range n).map fun i ↦ BitVec.ofNat 32 (f.zeros i)⟩ := by
  have hones : f.counters.ones =
      f.foldl (fun row c ↦ countRow c.literals row) (List.replicate n 0) :=
    (List.foldl_hom Counters.ones fun k c ↦ (ones_count k c).symm).symm
  have hzeros : f.counters.zeros =
      f.foldl (fun row c ↦ countRow c.zeros row) (List.replicate n 0) :=
    (List.foldl_hom Counters.zeros fun k c ↦ (zeros_count k c).symm).symm
  rw [foldl_countRow] at hones hzeros
  show (⟨f.counters.ones, f.counters.zeros⟩ : Counters) = _
  rw [hones, hzeros]
  congr 1
  · refine List.map_congr_left fun i _ ↦ congrArg _ (List.countP_congr fun c _ ↦ ?_)
    rw [beq_iff_eq, Cube.value_eq_one_iff]
  · refine List.map_congr_left fun i hi ↦ congrArg _ (List.countP_congr fun c _ ↦ ?_)
    rw [beq_iff_eq, Cube.value_eq_zero_iff (List.mem_range.1 hi)]

/-! ## Choosing by the counters -/

/-- The positions at which neither counter is zero. -/
def Counters.binate (k : Counters) : List Nat :=
  (k.ones.zip k.zeros).zipIdx.filterMap fun entry ↦
    if entry.1.1 ≠ 0 ∧ entry.1.2 ≠ 0 then some entry.2 else none

/-- How good a position is to split on, by its counters. -/
def Counters.key (k : Counters) (position : Nat) : Nat × Nat :=
  let ones := (k.ones.getD position 0).toNat
  let zeros := (k.zeros.getD position 0).toNat
  (min ones zeros, max ones zeros)

/-- The best position to split on, found in one pass that keeps the best one so far. -/
def Counters.select (k : Counters) : Option Nat :=
  (k.binate.foldl
    (fun best i ↦ keepBetter (fun a b ↦ splitsBetter a.2 b.2) best (i, k.key i)) none).map (·.1)

section

variable {f : Cover n} (hlength : f.length < 2 ^ 32)

include hlength

/-- A word holds the number of the cubes that have some property. -/
theorem toNat_ofNat_countP (p : Cube n → Bool) :
    (BitVec.ofNat 32 (f.countP p)).toNat = f.countP p := by
  rw [BitVec.toNat_ofNat]
  exact Nat.mod_eq_of_lt (Nat.lt_of_le_of_lt List.countP_le_length hlength)

/-- The positions with two counters that are not zero are the binate ones. -/
theorem binate_counters : f.counters.binate = f.binatePositions := by
  have hzip : (((List.range n).map fun i ↦ BitVec.ofNat 32 (f.ones i)).zip
      ((List.range n).map fun i ↦ BitVec.ofNat 32 (f.zeros i))).zipIdx =
        (List.range n).map fun i ↦
          ((BitVec.ofNat 32 (f.ones i), BitVec.ofNat 32 (f.zeros i)), i) := by
    rw [List.zip_map']
    refine List.ext_getElem? fun i ↦ ?_
    by_cases hi : i < n
    · simp [hi]
    · simp [hi]
  rw [counters_eq, Counters.binate, hzip, List.filterMap_map, binatePositions,
    ← List.filterMap_eq_filter]
  refine congrArg (List.filterMap · _) (funext fun i ↦ ?_)
  rw [Option.guard_def]
  simp only [Function.comp_apply, ne_eq, ← BitVec.toNat_inj, ones, zeros,
    toNat_ofNat_countP hlength, Bool.and_eq_true, bne_iff_ne]
  rfl

theorem key_counters {i : Nat} (hi : i < n) : f.counters.key i = f.splitKey i := by
  rw [counters_eq, Counters.key, splitKey, List.getD_eq_getElem?_getD, List.getD_eq_getElem?_getD,
    List.getElem?_map, List.getElem?_map, List.getElem?_range hi, Option.map_some, Option.map_some,
    Option.getD_some, Option.getD_some, ones, zeros, toNat_ofNat_countP hlength,
    toNat_ofNat_countP hlength]

/-- **The two passes select the position the recursions split on.** -/
theorem select_counters : f.counters.select = f.binateSelect := by
  have hkeys : f.binatePositions.map (fun i ↦ (i, f.counters.key i)) =
      f.binatePositions.map fun i ↦ (i, f.splitKey i) := by
    refine List.map_congr_left fun i hi ↦ ?_
    rw [key_counters hlength (List.mem_range.1 (List.mem_filter.1 hi).1)]
  rw [Counters.select, binate_counters hlength, ← List.foldl_map, hkeys, foldl_keepBetter_none,
    binateSelect]

end

/-! ## The most binate position -/

/-- A position is binate when some cube is one and some cube is zero there. -/
def IsBinate (f : Cover n) (i : Nat) : Prop := i < n ∧ f.ones i ≠ 0 ∧ f.zeros i ≠ 0

theorem mem_binatePositions {f : Cover n} {i : Nat} : i ∈ f.binatePositions ↔ f.IsBinate i := by
  rw [binatePositions, List.mem_filter, List.mem_range, Bool.and_eq_true, bne_iff_ne, bne_iff_ne,
    IsBinate]

theorem binatePositions_eq_nil_iff {f : Cover n} :
    f.binatePositions = [] ↔ ∀ i, ¬ f.IsBinate i := by
  rw [List.eq_nil_iff_forall_not_mem]
  exact forall_congr' fun i ↦ not_congr mem_binatePositions

/-- A position is the most binate one when it is the lowest of those with the most cubes on the
larger side, of those with the most cubes on the smaller side. -/
structure IsMostBinate (f : Cover n) (i : Nat) : Prop where
  /-- It is binate. -/
  isBinate : f.IsBinate i
  /-- No binate position has more cubes on its smaller side. -/
  min_le : ∀ j, f.IsBinate j → min (f.ones j) (f.zeros j) ≤ min (f.ones i) (f.zeros i)
  /-- None with as many there has more on its larger side. -/
  max_le : ∀ j, f.IsBinate j → min (f.ones j) (f.zeros j) = min (f.ones i) (f.zeros i) →
    max (f.ones j) (f.zeros j) ≤ max (f.ones i) (f.zeros i)
  /-- None with as many on both sides is lower. -/
  le : ∀ j, f.IsBinate j → min (f.ones j) (f.zeros j) = min (f.ones i) (f.zeros i) →
    max (f.ones j) (f.zeros j) = max (f.ones i) (f.zeros i) → i ≤ j

/-- There is only one. -/
theorem IsMostBinate.unique {f : Cover n} {i j : Nat} (hi : f.IsMostBinate i)
    (hj : f.IsMostBinate j) : i = j := by
  have hmin : min (f.ones i) (f.zeros i) = min (f.ones j) (f.zeros j) :=
    Nat.le_antisymm (hj.min_le i hi.isBinate) (hi.min_le j hj.isBinate)
  have hmax : max (f.ones i) (f.zeros i) = max (f.ones j) (f.zeros j) :=
    Nat.le_antisymm (hj.max_le i hi.isBinate hmin) (hi.max_le j hj.isBinate hmin.symm)
  exact Nat.le_antisymm (hi.le j hj.isBinate hmin.symm hmax.symm) (hj.le i hi.isBinate hmin hmax)

/-- How good a position is to split on, as one number: neither side is longer than the cover. -/
def splitRank (f : Cover n) (i : Nat) : Nat :=
  (f.splitKey i).1 * (f.length + 1) + (f.splitKey i).2

theorem splitKey_snd_le (f : Cover n) (i : Nat) : (f.splitKey i).2 ≤ f.length :=
  Nat.max_le.2 ⟨List.countP_le_length, List.countP_le_length⟩

/-- A larger first part outweighs every second part. -/
theorem splitRank_lt_of_fst_lt {f : Cover n} {i j : Nat} (h : (f.splitKey j).1 < (f.splitKey i).1) :
    f.splitRank j < f.splitRank i := by
  have hj := f.splitKey_snd_le j
  have hmul := Nat.mul_le_mul_right (f.length + 1) (Nat.succ_le_of_lt h)
  rw [Nat.succ_mul] at hmul
  rw [splitRank, splitRank]
  omega

theorem splitRank_lt_iff {f : Cover n} {i j : Nat} : f.splitRank j < f.splitRank i ↔
    (f.splitKey j).1 < (f.splitKey i).1 ∨
      (f.splitKey j).1 = (f.splitKey i).1 ∧ (f.splitKey j).2 < (f.splitKey i).2 := by
  rcases Nat.lt_trichotomy (f.splitKey j).1 (f.splitKey i).1 with h | h | h
  · exact iff_of_true (splitRank_lt_of_fst_lt h) (Or.inl h)
  · rw [splitRank, splitRank, h]
    omega
  · have hrank := splitRank_lt_of_fst_lt h
    omega

theorem binateSelect_eq_firstBest (f : Cover n) : f.binateSelect =
    firstBest (fun i j ↦ decide (f.splitRank j < f.splitRank i)) f.binatePositions := by
  have hbetter : (fun i j ↦ splitsBetter (f.splitKey i) (f.splitKey j)) =
      fun i j ↦ decide (f.splitRank j < f.splitRank i) := by
    refine funext fun i ↦ funext fun j ↦ ?_
    rw [splitsBetter, decide_eq_decide, splitRank_lt_iff]
  rw [binateSelect, firstBest_map, hbetter, Option.map_map]
  exact congrFun Option.map_id _

theorem binateSelect_eq_none_iff {f : Cover n} :
    f.binateSelect = none ↔ ∀ i, ¬ f.IsBinate i := by
  rw [binateSelect_eq_firstBest, firstBest_eq_none_iff, binatePositions_eq_nil_iff]

/-- What is selected is the most binate position. -/
theorem isMostBinate_of_binateSelect {f : Cover n} {i : Nat} (h : f.binateSelect = some i) :
    f.IsMostBinate i := by
  rw [binateSelect_eq_firstBest] at h
  have hlargest := isFirstLargest_of_firstBest h
  have hrank : ∀ j, f.IsBinate j → f.splitRank j ≤ f.splitRank i :=
    fun j hj ↦ hlargest.le (mem_binatePositions.2 hj)
  refine ⟨mem_binatePositions.1 (mem_of_firstBest h), fun j hj ↦ ?_, fun j hj hmin ↦ ?_,
    fun j hj hmin hmax ↦ ?_⟩
  · refine Nat.le_of_not_lt fun hlt ↦ ?_
    exact Nat.not_lt.2 (hrank j hj) (splitRank_lt_iff.2 (Or.inl hlt))
  · refine Nat.le_of_not_lt fun hlt ↦ ?_
    exact Nat.not_lt.2 (hrank j hj) (splitRank_lt_iff.2 (Or.inr ⟨hmin.symm, hlt⟩))
  · -- what comes before the selected position has a smaller rank, so this one comes after it
    obtain ⟨before, after, heq, hbefore, _⟩ := hlargest
    have hsorted : (before ++ i :: after).Pairwise (· < ·) := by
      rw [← heq]
      exact List.pairwise_lt_range.filter _
    have hsame : f.splitRank j = f.splitRank i := by
      rw [splitRank, splitRank, splitKey, splitKey, hmin, hmax]
    have hmem : j ∈ before ++ i :: after := heq ▸ mem_binatePositions.2 hj
    rcases List.mem_append.1 hmem with hj | hj
    · exact absurd (hbefore j hj) (by rw [hsame]; exact Nat.lt_irrefl _)
    · rcases List.mem_cons.1 hj with rfl | hj
      · exact Nat.le_refl _
      · exact Nat.le_of_lt (List.rel_of_pairwise_cons (List.pairwise_append.1 hsorted).2.1 hj)

/-- **The most binate position is selected.** -/
theorem binateSelect_eq_some_iff {f : Cover n} {i : Nat} :
    f.binateSelect = some i ↔ f.IsMostBinate i := by
  refine ⟨isMostBinate_of_binateSelect, fun h ↦ ?_⟩
  cases hsel : f.binateSelect with
  | none => exact absurd h.isBinate (binateSelect_eq_none_iff.1 hsel i)
  | some j => rw [(isMostBinate_of_binateSelect hsel).unique h]

/-! ## The halves -/

/-- **No position becomes binate in a cofactor.** -/
theorem isBinate_of_cofactor {f : Cover n} {p : Cube n} {i : Nat}
    (h : IsBinate (f.cofactor p) i) : f.IsBinate i := by
  have hcount : ∀ l : Literal, l ≠ .missing →
      (f.cofactor p).countP (fun e ↦ e.value i == l) ≠ 0 →
        f.countP (fun c ↦ c.value i == l) ≠ 0 := by
    intro l hl hne
    obtain ⟨e, he, hel⟩ := List.countP_pos_iff.1 (Nat.pos_of_ne_zero hne)
    rw [beq_iff_eq] at hel
    obtain ⟨c, hc, hce⟩ := List.mem_filterMap.1 he
    refine Nat.ne_of_gt (List.countP_pos_iff.2 ⟨c, hc, ?_⟩)
    rw [beq_iff_eq, Cube.value_of_cofactor hce (hel ▸ hl), hel]
  exact ⟨h.1, hcount .one (by decide) h.2.1, hcount .zero (by decide) h.2.2⟩

/-- What is left to split of a cover in one half of a position. -/
structure IsSettledHalf (f : Cover n) (i : Nat) (g : Cover n) : Prop where
  /-- The position is missing in every cube. -/
  value_eq_missing : ∀ c ∈ g, c.value i = .missing
  /-- A position is binate only if it was so before. -/
  isBinate : ∀ j, g.IsBinate j → f.IsBinate j
  /-- There are fewer binate positions than before. -/
  length_lt : g.binatePositions.length < f.binatePositions.length

theorem value_eq_missing_of_mem_cofactor {f : Cover n} {p c : Cube n} {i : Nat} (hi : i < n)
    (hp : p.missing.getLsbD i = false) (hc : c ∈ f.cofactor p) : c.value i = .missing := by
  obtain ⟨d, _, hd⟩ := List.mem_filterMap.1 hc
  exact Cube.value_eq_missing_iff.2 (Cube.missing_of_cofactor hd hi hp)

theorem isSettledHalf_cofactor {f : Cover n} {i : Nat} (h : f.IsBinate i) (v : Bool) :
    f.IsSettledHalf i (f.cofactor (Cube.halfSpace i v)) := by
  have hmissing : ∀ c ∈ f.cofactor (Cube.halfSpace i v), c.value i = .missing :=
    fun c hc ↦ value_eq_missing_of_mem_cofactor h.1 (missing_halfSpace h.1) hc
  have hnot : ¬ IsBinate (f.cofactor (Cube.halfSpace i v)) i := by
    rintro ⟨_, hone, _⟩
    obtain ⟨c, hc, hci⟩ := List.countP_pos_iff.1 (Nat.pos_of_ne_zero hone)
    rw [hmissing c hc] at hci
    cases hci
  refine ⟨hmissing, fun j hj ↦ isBinate_of_cofactor hj, ?_⟩
  have hnodup : (i :: binatePositions (f.cofactor (Cube.halfSpace i v))).Nodup :=
    List.nodup_cons.2 ⟨fun hi ↦ hnot (mem_binatePositions.1 hi), List.nodup_range.filter _⟩
  refine (List.subperm_of_subset hnodup
    (List.cons_subset.2 ⟨mem_binatePositions.2 h, ?_⟩)).length_le
  exact fun j hj ↦ mem_binatePositions.2 (isBinate_of_cofactor (mem_binatePositions.1 hj))

/-! ## The position that is selected -/

/-- The columns of a cover are counted right, and by the counts the most binate position is
selected. -/
structure SelectsMostBinate (f : Cover n) : Prop where
  /-- At each position the first row has the number of cubes that are one there. -/
  ones_eq : f.counters.ones.map BitVec.toNat = (List.range n).map f.ones
  /-- At each position the second row has the number of cubes that are zero there. -/
  zeros_eq : f.counters.zeros.map BitVec.toNat = (List.range n).map f.zeros
  /-- The cover is unate by its counters exactly if it is unate. -/
  isEmpty_binate : f.counters.binate.isEmpty = f.isUnate
  /-- The position that is selected by the counters is the one the recursions split on. -/
  select_eq : f.counters.select = f.binateSelect
  /-- The cover is unate exactly if no position is binate. -/
  isUnate_iff : f.isUnate = true ↔ ∀ i, ¬ f.IsBinate i
  /-- No position is selected exactly if none is binate. -/
  eq_none_iff : f.binateSelect = none ↔ ∀ i, ¬ f.IsBinate i
  /-- Otherwise it is the most binate one. -/
  eq_some_iff : ∀ i, f.binateSelect = some i ↔ f.IsMostBinate i
  /-- In both of its halves the position is settled, and nothing else has become binate. -/
  isSettledHalf : ∀ i, f.binateSelect = some i → ∀ v,
    f.IsSettledHalf i (f.cofactor (Cube.halfSpace i v))

/-- **A cover is split on its most binate position**, as long as its cubes can be counted in a
word. -/
theorem selectsMostBinate {f : Cover n} (hlength : f.length < 2 ^ 32) : f.SelectsMostBinate where
  ones_eq := by
    rw [counters_eq, List.map_map]
    exact List.map_congr_left fun i _ ↦ toNat_ofNat_countP hlength _
  zeros_eq := by
    rw [counters_eq, List.map_map]
    exact List.map_congr_left fun i _ ↦ toNat_ofNat_countP hlength _
  isEmpty_binate := by rw [binate_counters hlength, isUnate]
  select_eq := select_counters hlength
  isUnate_iff := by rw [isUnate, List.isEmpty_iff, binatePositions_eq_nil_iff]
  eq_none_iff := binateSelect_eq_none_iff
  eq_some_iff _ := binateSelect_eq_some_iff
  isSettledHalf _ hi v := isSettledHalf_cofactor (binateSelect_eq_some_iff.1 hi).isBinate v

/-- Of the positions of `11`, `00` and `1-` both have a cube on their smaller side, and the left one
has more on its larger side. -/
theorem selectsMostBinate_threeCubes :
    binateSelect [Cube.ofMasks 3#2 0#2, Cube.ofMasks 0#2 0#2, Cube.ofMasks 2#2 1#2] = some 1 ∧
      SelectsMostBinate [Cube.ofMasks 3#2 0#2, Cube.ofMasks 0#2 0#2, Cube.ofMasks 2#2 1#2] :=
  ⟨by decide, selectsMostBinate (by decide)⟩

end Cover

end TwoLevel
