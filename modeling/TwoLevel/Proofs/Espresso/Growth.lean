import TwoLevel.Espresso.Growth
import TwoLevel.Proofs.Cube.Prime

/-!
# A grown cube is prime

The off-set is seen only through the blocking rows, and a set of kept positions makes an implicant
exactly when it meets every row (`isImplicant_keep_iff`).  So what has to be shown of the growth of
one cube is about sets of positions:

* the kept positions meet every row in the end (`meets_grow`).  While positions are decided it is
  enough that every row has a kept or a free position, and giving one up is safe because by then
  every row in which nothing is kept has two;
* after the last walk no kept position can be spared (`needed_release`), since what a row needs, it
  needs all the more of fewer positions.

The main statement is `isPrime_expandCube`.
-/

set_option autoImplicit false

namespace TwoLevel

variable {n : Nat}

namespace Mask

theorem and_ne_zero_iff {x y : BitVec n} :
    x &&& y ≠ 0#n ↔ ∃ i, x.getLsbD i = true ∧ y.getLsbD i = true := by
  rw [ne_eq, ← positions_eq_nil_iff, List.eq_nil_iff_forall_not_mem]
  simp only [mem_positions, BitVec.getLsbD_and, Bool.and_eq_true, not_forall, Decidable.not_not]

theorem and_eq_zero_iff {x y : BitVec n} :
    x &&& y = 0#n ↔ ∀ i, x.getLsbD i = true → y.getLsbD i = false := by
  rw [← not_iff_not, ← ne_eq, and_ne_zero_iff]
  simp only [not_forall, exists_prop, Bool.not_eq_false]

/-- A set that has a member, but not just one, has a member besides any given position. -/
theorem exists_ne_of_count_ne_one {x : BitVec n} {i : Nat} (hi : x.getLsbD i = true)
    (h : count x ≠ 1) (k : Nat) : ∃ j, x.getLsbD j = true ∧ j ≠ k := by
  by_contra hno
  have honly : ∀ j, x.getLsbD j = true → j = k := by
    intro j hj
    by_contra hjk
    exact hno ⟨j, hj, hjk⟩
  refine h (count_eq_one_iff.2 ⟨k, fun j ↦ ⟨honly j, ?_⟩⟩)
  rintro rfl
  rwa [← honly i hi]

end Mask

namespace Espresso

/-- A set of positions meets every row. -/
def MeetsAll (rows : List (BitVec n)) (kept : BitVec n) : Prop :=
  ∀ row ∈ rows, row &&& kept ≠ 0#n

namespace Growth

/-! ## Deciding positions -/

/-- Every row has a position that is kept or may still be. -/
def Feasible (rows : List (BitVec n)) (g : Growth n) : Prop :=
  MeetsAll rows (g.lowered ||| g.free)

/-- No row without a kept position is down to its last free one. -/
def Settled (rows : List (BitVec n)) (g : Growth n) : Prop :=
  ∀ row ∈ rows, row &&& g.lowered = 0#n → Mask.count (row &&& g.free) ≠ 1

/-- Settling a row only moves positions from the free ones to the kept ones. -/
theorem lowered_or_free_settleRow (g : Growth n) (row : BitVec n) :
    (g.settleRow row).lowered ||| (g.settleRow row).free = g.lowered ||| g.free := by
  rw [settleRow]
  split
  · refine BitVec.eq_of_getLsbD_eq fun i _ ↦ ?_
    simp only [BitVec.getLsbD_or, BitVec.getLsbD_and, Mask.getLsbD_diff]
    cases g.lowered.getLsbD i <;> cases row.getLsbD i <;> cases g.free.getLsbD i <;> rfl
  · rfl

theorem lowered_or_free_settleRows (rows : List (BitVec n)) (g : Growth n) :
    (g.settleRows rows).lowered ||| (g.settleRows rows).free = g.lowered ||| g.free := by
  induction rows generalizing g with
  | nil => rfl
  | cons row rows ih => exact (ih (g.settleRow row)).trans (lowered_or_free_settleRow g row)

theorem lowered_or_free_settle (rows : List (BitVec n)) (g : Growth n) :
    (g.settle rows).lowered ||| (g.settle rows).free = g.lowered ||| g.free := by
  fun_induction settle rows g with
  | case1 g next _ ih => exact ih.trans (lowered_or_free_settleRows rows g)
  | case2 g next _ => exact lowered_or_free_settleRows rows g

/-- A pass over the rows that decides nothing has found nothing to decide. -/
theorem settled_of_count_free_le {rows : List (BitVec n)} {g : Growth n}
    (h : Mask.count g.free ≤ Mask.count (g.settleRows rows).free) :
    g.settleRows rows = g ∧ g.Settled rows := by
  induction rows generalizing g with
  | nil => exact ⟨rfl, fun row hrow ↦ absurd hrow List.not_mem_nil⟩
  | cons row rows ih =>
    by_cases hfire : row &&& g.lowered = 0#n ∧ Mask.count (row &&& g.free) = 1
    · -- the row decides its position, and no later row frees it again
      exfalso
      obtain ⟨i, hi⟩ := Mask.count_eq_one_iff.1 hfire.2
      have hmem := (hi i).2 rfl
      rw [BitVec.getLsbD_and, Bool.and_eq_true] at hmem
      have hlt : Mask.count (g.settleRow row).free < Mask.count g.free := by
        refine Mask.count_lt_of_subset (i := i) (free_settleRow g row) hmem.2 ?_
        rw [settleRow, if_pos hfire, Mask.getLsbD_diff, BitVec.getLsbD_and, hmem.1, hmem.2]
        rfl
      have hle : Mask.count (g.settleRows (row :: rows)).free ≤ Mask.count (g.settleRow row).free :=
        Mask.count_le_of_subset (free_settleRows rows (g.settleRow row))
      omega
    · have hsame : g.settleRow row = g := by rw [settleRow, if_neg hfire]
      have hrows : g.settleRows (row :: rows) = g.settleRows rows := by
        rw [settleRows, List.foldl_cons, hsame, ← settleRows]
      rw [hrows] at h ⊢
      obtain ⟨heq, hsettled⟩ := ih h
      refine ⟨heq, fun r hr hlow hone ↦ ?_⟩
      rcases List.mem_cons.1 hr with rfl | hr
      · exact hfire ⟨hlow, hone⟩
      · exact hsettled r hr hlow hone

/-- **Settling ends with every row settled.** -/
theorem settled_settle (rows : List (BitVec n)) (g : Growth n) : (g.settle rows).Settled rows := by
  fun_induction settle rows g with
  | case1 g next _ ih => exact ih
  | case2 g next h =>
    obtain ⟨heq, hsettled⟩ := settled_of_count_free_le (Nat.le_of_not_lt h)
    show (g.settleRows rows).Settled rows
    rwa [heq]

/-- Dropping what no row needs leaves to every row what it needs. -/
theorem and_free_dropUnneeded {rows : List (BitVec n)} {g : Growth n} {row : BitVec n}
    (hrow : row ∈ rows) (hlow : row &&& g.lowered = 0#n) :
    row &&& (g.dropUnneeded rows).free = row &&& g.free := by
  have hor : ∀ (rs : List (BitVec n)) (acc : BitVec n) (i : Nat),
      (acc.getLsbD i = true ∨ ∃ r ∈ rs, r.getLsbD i = true) →
        (rs.foldl (· ||| ·) acc).getLsbD i = true := by
    intro rs
    induction rs with
    | nil => simp
    | cons r rs ih =>
      intro acc i h
      refine ih _ i ?_
      rw [BitVec.getLsbD_or, Bool.or_eq_true]
      simpa [or_assoc] using h
  refine BitVec.eq_of_getLsbD_eq fun i _ ↦ ?_
  rw [dropUnneeded, BitVec.getLsbD_and, BitVec.getLsbD_and, BitVec.getLsbD_and]
  cases hr : row.getLsbD i with
  | false => rfl
  | true =>
    have hmem : row ∈ g.unblocked rows := List.mem_filter.2 ⟨hrow, by simp [hlow]⟩
    rw [hor _ _ i (Or.inr ⟨row, hmem, hr⟩), Bool.and_true]

theorem feasible_decided {rows : List (BitVec n)} {g : Growth n} (h : g.Feasible rows) :
    (g.decided rows).Feasible rows := by
  intro row hrow
  have hreach := h row hrow
  rw [← lowered_or_free_settle rows g, Mask.and_ne_zero_iff] at hreach
  obtain ⟨i, hri, hi⟩ := hreach
  rw [Mask.and_ne_zero_iff]
  by_cases hlow : row &&& (g.settle rows).lowered = 0#n
  · have hnot := Mask.and_eq_zero_iff.1 hlow i hri
    rw [BitVec.getLsbD_or, hnot, Bool.false_or] at hi
    have hfree : (row &&& (g.decided rows).free).getLsbD i = true := by
      rw [decided, and_free_dropUnneeded hrow hlow, BitVec.getLsbD_and, hri, hi]
      rfl
    rw [BitVec.getLsbD_and, Bool.and_eq_true] at hfree
    exact ⟨i, hri, by rw [BitVec.getLsbD_or, hfree.2, Bool.or_true]⟩
  · obtain ⟨j, hrj, hj⟩ := Mask.and_ne_zero_iff.1 hlow
    have hkept : (g.decided rows).lowered = (g.settle rows).lowered := rfl
    exact ⟨j, hrj, by rw [BitVec.getLsbD_or, hkept, hj, Bool.true_or]⟩

theorem settled_decided (rows : List (BitVec n)) (g : Growth n) :
    (g.decided rows).Settled rows := by
  intro row hrow hlow
  have hlow' : row &&& (g.settle rows).lowered = 0#n := hlow
  rw [decided, and_free_dropUnneeded hrow hlow']
  exact settled_settle rows g row hrow hlow'

/-- **Once the rows are settled any free position can be given up.** -/
theorem feasible_raise {rows : List (BitVec n)} {g : Growth n} (h : g.Feasible rows)
    (hs : g.Settled rows) (position : Nat) : (g.raise position).Feasible rows := by
  intro row hrow
  rw [Mask.and_ne_zero_iff]
  by_cases hlow : row &&& g.lowered = 0#n
  · obtain ⟨i, hri, hi⟩ := Mask.and_ne_zero_iff.1 (h row hrow)
    rw [BitVec.getLsbD_or, Mask.and_eq_zero_iff.1 hlow i hri, Bool.false_or] at hi
    have hmem : (row &&& g.free).getLsbD i = true := by
      rw [BitVec.getLsbD_and, hri, hi]
      rfl
    obtain ⟨j, hj, hjp⟩ := Mask.exists_ne_of_count_ne_one hmem (hs row hrow hlow) position
    rw [BitVec.getLsbD_and, Bool.and_eq_true] at hj
    refine ⟨j, hj.1, ?_⟩
    rw [raise, BitVec.getLsbD_or, Mask.getLsbD_diff, Mask.getLsbD_bit, hj.2]
    simp [Ne.symm hjp]
  · obtain ⟨j, hrj, hj⟩ := Mask.and_ne_zero_iff.1 hlow
    exact ⟨j, hrj, by rw [raise, BitVec.getLsbD_or, hj, Bool.true_or]⟩

theorem free_eq_zero_of_raiseFirst?_eq_none {blocking covering : List (BitVec n)} {g : Growth n}
    (h : g.raiseFirst? blocking covering = none) : g.free = 0#n := by
  rw [raiseFirst?, Option.map_eq_none_iff, firstBest_eq_none_iff, List.map_eq_nil_iff] at h
  exact Mask.positions_eq_nil_iff.1 h

/-- **The kept positions meet every row.** -/
theorem meets_grow {blocking : List (BitVec n)} {g : Growth n} (h : g.Feasible blocking)
    (covering : List (BitVec n)) : MeetsAll blocking (grow blocking covering g) := by
  fun_induction grow blocking covering g with
  | case1 g decided hnone =>
    have hd := feasible_decided h
    rw [Feasible, free_eq_zero_of_raiseFirst?_eq_none hnone, BitVec.or_zero] at hd
    exact hd
  | case2 g decided i _ ih =>
    exact ih (feasible_raise (feasible_decided h) (settled_decided blocking g) i)

end Growth

/-! ## Sparing positions -/

/-- Some row would be missed without the position. -/
def Needed (rows : List (BitVec n)) (kept : BitVec n) (position : Nat) : Prop :=
  ∃ row ∈ rows, row &&& Mask.diff kept (Mask.bit position) = 0#n

/-- What is needed of a set is needed of its subsets. -/
theorem Needed.of_subset {rows : List (BitVec n)} {kept less : BitVec n} {position : Nat}
    (h : Needed rows kept position)
    (hsub : ∀ i, less.getLsbD i = true → kept.getLsbD i = true) : Needed rows less position := by
  obtain ⟨row, hrow, hzero⟩ := h
  refine ⟨row, hrow, Mask.and_eq_zero_iff.2 fun i hi ↦ ?_⟩
  have hkept := Mask.and_eq_zero_iff.1 hzero i hi
  rw [Mask.getLsbD_diff] at hkept ⊢
  cases hl : less.getLsbD i with
  | false => rfl
  | true => rwa [hsub i hl] at hkept

theorem releaseOne_subset {rows : List (BitVec n)} {kept : BitVec n} {position i : Nat}
    (h : (releaseOne rows kept position).getLsbD i = true) : kept.getLsbD i = true := by
  rw [releaseOne] at h
  split at h
  · rw [Mask.getLsbD_diff] at h
    exact (Bool.and_eq_true_iff.1 h).1
  · exact h

theorem meets_releaseOne {rows : List (BitVec n)} {kept : BitVec n} (h : MeetsAll rows kept)
    (position : Nat) : MeetsAll rows (releaseOne rows kept position) := by
  rw [releaseOne]
  split
  · next hall =>
    intro row hrow
    simpa using List.all_eq_true.1 hall row hrow
  · exact h

/-- A position that is still kept after it was tried is needed. -/
theorem needed_releaseOne {rows : List (BitVec n)} {kept : BitVec n} {position : Nat}
    (h : (releaseOne rows kept position).getLsbD position = true) :
    Needed rows (releaseOne rows kept position) position := by
  rw [releaseOne] at h ⊢
  split at h
  · simp [BitVec.lt_of_getLsbD h] at h
  · next hall =>
    rw [if_neg hall]
    rw [Bool.not_eq_true, List.all_eq_false] at hall
    obtain ⟨row, hrow, hzero⟩ := hall
    exact ⟨row, hrow, by simpa using hzero⟩

/-- Trying positions in turn keeps every row met, and of the positions tried leaves only needed
ones. -/
theorem foldl_releaseOne {rows : List (BitVec n)} {kept : BitVec n} (h : MeetsAll rows kept)
    (positions : List Nat) :
    MeetsAll rows (positions.foldl (releaseOne rows) kept) ∧
      (∀ i, (positions.foldl (releaseOne rows) kept).getLsbD i = true → kept.getLsbD i = true) ∧
      ∀ i ∈ positions, (positions.foldl (releaseOne rows) kept).getLsbD i = true →
        Needed rows (positions.foldl (releaseOne rows) kept) i := by
  induction positions generalizing kept with
  | nil => exact ⟨h, fun _ hi ↦ hi, fun _ hi ↦ absurd hi List.not_mem_nil⟩
  | cons position positions ih =>
    obtain ⟨hmeets, hsub, hneeded⟩ := ih (meets_releaseOne h position)
    rw [List.foldl_cons]
    refine ⟨hmeets, fun i hi ↦ releaseOne_subset (hsub i hi), fun i hmem hi ↦ ?_⟩
    rcases List.mem_cons.1 hmem with rfl | hmem
    · exact (needed_releaseOne (hsub i hi)).of_subset hsub
    · exact hneeded i hmem hi

theorem meets_release {rows : List (BitVec n)} {kept : BitVec n} (h : MeetsAll rows kept) :
    MeetsAll rows (release rows kept) :=
  (foldl_releaseOne h _).1

/-- **After the last walk every kept position is needed.** -/
theorem needed_release {rows : List (BitVec n)} {kept : BitVec n} (h : MeetsAll rows kept) {i : Nat}
    (hi : (release rows kept).getLsbD i = true) : Needed rows (release rows kept) i :=
  have hfold := foldl_releaseOne h (Mask.positions kept)
  hfold.2.2 i (Mask.mem_positions.2 (hfold.2.1 i hi)) hi

end Espresso

/-! ## From rows to points -/

namespace Cube

/-- Two cubes have opposite literals somewhere exactly when they have no point in common. -/
theorem conflicts_ne_zero_iff {c d : Cube n} :
    c.conflicts d ≠ 0#n ↔ ∀ x, c.covers x = true → d.covers x = false := by
  rw [← inter_eq_none_iff_conflicts, inter_eq_none_iff]
  simp only [not_and, Bool.not_eq_true]

/-- Of the conflicts of a cube those at kept positions remain. -/
theorem conflicts_keep (c d : Cube n) (kept : BitVec n) :
    (c.keep kept).conflicts d = c.conflicts d &&& kept := by
  refine BitVec.eq_of_getLsbD_eq fun i hi ↦ ?_
  rw [conflicts, conflicts, keep]
  simp only [Mask.getLsbD_diff, BitVec.getLsbD_xor, BitVec.getLsbD_or, BitVec.getLsbD_and,
    getLsbD_literals_ofMasks, missing_ofMasks, BitVec.getLsbD_allOnes, decide_eq_true hi]
  cases c.literals.getLsbD i <;> cases c.missing.getLsbD i <;> cases d.literals.getLsbD i <;>
    cases d.missing.getLsbD i <;> cases kept.getLsbD i <;> rfl

theorem free_keep (c : Cube n) (kept : BitVec n) (i : Nat) :
    (c.keep kept).free i = c.keep (Mask.diff kept (Mask.bit i)) := by
  refine ext_masks ?_ ?_
  all_goals
    refine BitVec.eq_of_getLsbD_eq fun j hj ↦ ?_
    rw [free, keep, keep]
    simp only [Mask.getLsbD_diff, BitVec.getLsbD_or, getLsbD_literals_ofMasks, missing_ofMasks,
      BitVec.getLsbD_allOnes, decide_eq_true hj]
    cases c.literals.getLsbD j <;> cases c.missing.getLsbD j <;> cases kept.getLsbD j <;>
      cases (Mask.bit i : BitVec n).getLsbD j <;> rfl

theorem keep_contains (c : Cube n) (kept : BitVec n) : (c.keep kept).contains c = true := by
  rw [contains_iff_forall_position]
  intro i _ hm
  rw [keep, missing_ofMasks] at hm
  rw [keep, getLsbD_literals_ofMasks, hm]
  rw [BitVec.getLsbD_or, Bool.or_eq_false_iff] at hm
  exact ⟨hm.1, by simp⟩

end Cube

namespace Espresso

/-- A cube meets no cube of the off-set. -/
abbrev Avoids (off : Cover n) (c : Cube n) : Prop :=
  c.IsImplicant fun x ↦ off.covers x = false

/-- A cube meets no cube of the off-set, and no larger one does not. -/
abbrev IsPrimeAgainst (off : Cover n) (c : Cube n) : Prop :=
  c.IsPrime fun x ↦ off.covers x = false

theorem avoids_iff {off : Cover n} {c : Cube n} :
    Avoids off c ↔ ∀ r ∈ off, c.conflicts r ≠ 0#n := by
  simp only [Cube.conflicts_ne_zero_iff]
  refine ⟨fun h r hr x hx ↦ ?_, fun h x hx ↦ ?_⟩
  · exact Cover.covers_eq_false_iff.1 (h x hx) r hr
  · exact Cover.covers_eq_false_iff.2 fun r hr ↦ h r hr x hx

/-- **Kept positions make an implicant exactly when they meet every blocking row.** -/
theorem avoids_keep_iff {off : Cover n} {c : Cube n} {kept : BitVec n} :
    Avoids off (c.keep kept) ↔ MeetsAll (off.map c.conflicts) kept := by
  rw [avoids_iff, MeetsAll, List.forall_mem_map]
  simp only [Cube.conflicts_keep]

/-- A cube that meets no cube of the off-set can start growing. -/
theorem feasible_care {off : Cover n} {c : Cube n} (hc : Avoids off c) :
    Growth.Feasible (off.map c.conflicts) ⟨c.care, 0#n⟩ := by
  rw [Growth.Feasible, BitVec.zero_or, MeetsAll, List.forall_mem_map]
  intro r hr
  have hrow := avoids_iff.1 hc r hr
  have hcare : c.conflicts r &&& c.care = c.conflicts r := by
    refine BitVec.eq_of_getLsbD_eq fun i hi ↦ ?_
    rw [BitVec.getLsbD_and, Cube.getLsbD_care, decide_eq_true hi, Cube.conflicts,
      Mask.getLsbD_diff, BitVec.getLsbD_or]
    cases c.missing.getLsbD i <;> simp
  rwa [hcare]

/-- **A cube that meets no cube of the off-set grows into a prime one.** -/
theorem isPrime_expandCube {off others : Cover n} {c : Cube n} (hc : Avoids off c) :
    IsPrimeAgainst off (expandCube off others c) := by
  have hmeets := Growth.meets_grow (feasible_care hc) (others.map (coveringRow c))
  refine ⟨avoids_keep_iff.2 (meets_release hmeets), fun i hi hv ↦ ?_⟩
  rw [expandCube, Cube.free_keep, ← Avoids, avoids_keep_iff]
  have hkept : (release (off.map c.conflicts) (Growth.grow (off.map c.conflicts)
      (others.map (coveringRow c)) ⟨c.care, 0#n⟩)).getLsbD i = true := by
    have hm := Cube.value_ne_missing_iff.1 hv
    rw [expandCube, Cube.keep, Cube.missing_ofMasks, BitVec.getLsbD_or, Bool.or_eq_false_iff,
      Mask.getLsbD_diff, BitVec.getLsbD_allOnes, decide_eq_true hi] at hm
    simpa using hm.2
  obtain ⟨row, hrow, hzero⟩ := needed_release hmeets hkept
  exact fun h ↦ h row hrow hzero

theorem expandCube_contains (off others : Cover n) (c : Cube n) :
    (expandCube off others c).contains c = true :=
  Cube.keep_contains c _

end Espresso

end TwoLevel
