import TwoLevel.Espresso.Working

/-!
# EXPAND: cubes grow into primes

A cube may grow as long as it meets no cube of the off-set.  Which of its explicit positions are
given up is a choice, made one cube at a time, largest cubes first.

The off-set enters as one set of positions for each of its cubes, those at which the two conflict:
of each *blocking row* at least one position has to be kept.  The other cubes of the cover enter as
one set each, too, the positions that have to be given up before the grown cube contains the other.

Positions are `free` until they are decided; those decided to be kept are `lowered`.  Round by
round (`grow`):

* a row that is not blocked yet and has one free position left decides that position
  (`settle`, until nothing changes);
* a position that no row needs any more is given up (`dropUnneeded`);
* of the others one is given up (`raiseFirst?`): the one that brings the cube closest to containing
  other cubes, then the one that fewest rows rely on, then the lowest.

Since kept positions are decided for one row each, a position kept early may turn out to be
unnecessary; a last walk (`release`) gives up whatever every row can spare.  The grown cube swallows
the cubes it contains.
-/

set_option autoImplicit false

namespace TwoLevel.Espresso

variable {n : Nat}

/-! ## Growing one cube -/

/-- How far the positions of a cube are decided. -/
structure Growth (n : Nat) where
  /-- The positions not decided yet. -/
  free : BitVec n
  /-- The positions that stay explicit. -/
  lowered : BitVec n
deriving DecidableEq

namespace Growth

/-- The rows in which no position is kept yet. -/
def unblocked (g : Growth n) (rows : List (BitVec n)) : List (BitVec n) :=
  rows.filter fun row ↦ row &&& g.lowered == 0#n

/-- Keeps the last free position of a row in which none is kept yet. -/
def settleRow (g : Growth n) (row : BitVec n) : Growth n :=
  if row &&& g.lowered = 0#n ∧ Mask.count (row &&& g.free) = 1 then
    ⟨Mask.diff g.free (row &&& g.free), g.lowered ||| (row &&& g.free)⟩
  else g

/-- Settles the rows in turn, each knowing what those before it decided. -/
def settleRows (rows : List (BitVec n)) (g : Growth n) : Growth n := rows.foldl settleRow g

/-- Settles the rows over and over until no row decides anything. -/
def settle (rows : List (BitVec n)) (g : Growth n) : Growth n :=
  let next := settleRows rows g
  if Mask.count next.free < Mask.count g.free then settle rows next else next
termination_by Mask.count g.free

/-- Gives up the free positions that no unblocked row needs. -/
def dropUnneeded (rows : List (BitVec n)) (g : Growth n) : Growth n :=
  { g with free := g.free &&& (g.unblocked rows).foldl (· ||| ·) 0#n }

/-- How many rows in which nothing is kept have a position. -/
def reliance (g : Growth n) (rows : List (BitVec n)) (position : Nat) : Nat :=
  (g.unblocked rows).countP fun row ↦ row.getLsbD position

/-- The free position to give up next. -/
def raiseFirst? (blocking covering : List (BitVec n)) (g : Growth n) : Option Nat :=
  let candidates := (Mask.positions g.free).map fun i ↦
    (i, g.reliance covering i, g.reliance blocking i)
  (firstBest (fun a b ↦ decide (b.2.1 < a.2.1 ∨ b.2.1 = a.2.1 ∧ a.2.2 < b.2.2)) candidates).map
    (·.1)

/-- What is decided in one round before a position is given up. -/
def decided (blocking : List (BitVec n)) (g : Growth n) : Growth n :=
  (g.settle blocking).dropUnneeded blocking

/-- The state after a free position is given up. -/
def raise (g : Growth n) (position : Nat) : Growth n :=
  { g with free := Mask.diff g.free (Mask.bit position) }

/-! ### Fewer and fewer free positions -/

theorem free_settleRow (g : Growth n) (row : BitVec n) (i : Nat)
    (h : (g.settleRow row).free.getLsbD i = true) : g.free.getLsbD i = true := by
  unfold settleRow at h
  split at h
  · rw [Mask.getLsbD_diff] at h
    exact (Bool.and_eq_true_iff.1 h).1
  · exact h

theorem free_settleRows (rows : List (BitVec n)) (g : Growth n) (i : Nat)
    (h : (g.settleRows rows).free.getLsbD i = true) : g.free.getLsbD i = true := by
  induction rows generalizing g with
  | nil => exact h
  | cons row rows ih => exact free_settleRow g row i (ih (g.settleRow row) h)

theorem free_settle (rows : List (BitVec n)) (g : Growth n) (i : Nat)
    (h : (g.settle rows).free.getLsbD i = true) : g.free.getLsbD i = true := by
  fun_induction settle rows g with
  | case1 g next _ ih => exact free_settleRows rows g i (ih h)
  | case2 g next _ => exact free_settleRows rows g i h

theorem free_decided (blocking : List (BitVec n)) (g : Growth n) (i : Nat)
    (h : (g.decided blocking).free.getLsbD i = true) : g.free.getLsbD i = true := by
  rw [decided, dropUnneeded, BitVec.getLsbD_and] at h
  exact free_settle blocking g i (Bool.and_eq_true_iff.1 h).1

theorem free_of_raiseFirst? {blocking covering : List (BitVec n)} {g : Growth n} {i : Nat}
    (h : g.raiseFirst? blocking covering = some i) : g.free.getLsbD i = true := by
  obtain ⟨p, hp, rfl⟩ := Option.map_eq_some_iff.1 h
  obtain ⟨j, hj, rfl⟩ := List.mem_map.1 (mem_of_firstBest hp)
  exact Mask.mem_positions.1 hj

/-- A round of growing decides a position. -/
theorem count_free_raise_lt {blocking covering : List (BitVec n)} {g : Growth n} {i : Nat}
    (h : (g.decided blocking).raiseFirst? blocking covering = some i) :
    Mask.count ((g.decided blocking).raise i).free < Mask.count g.free := by
  have hi := free_of_raiseFirst? h
  refine Mask.count_lt_of_subset (i := i) (fun j hj ↦ ?_) (free_decided blocking g i hi) ?_
  · rw [raise, Mask.getLsbD_diff] at hj
    exact free_decided blocking g j (Bool.and_eq_true_iff.1 hj).1
  · rw [raise, Mask.getLsbD_diff, Mask.getLsbD_bit]
    simp [BitVec.lt_of_getLsbD hi]

/-- The positions kept once every position is decided. -/
def grow (blocking covering : List (BitVec n)) (g : Growth n) : BitVec n :=
  let decided := g.decided blocking
  match _h : decided.raiseFirst? blocking covering with
  | none => decided.lowered
  | some i => grow blocking covering (decided.raise i)
termination_by Mask.count g.free
decreasing_by exact count_free_raise_lt _h

end Growth

/-- The kept positions less the given one, if every row can spare it. -/
def releaseOne (blocking : List (BitVec n)) (lowered : BitVec n) (position : Nat) : BitVec n :=
  let less := Mask.diff lowered (Mask.bit position)
  if blocking.all fun row ↦ row &&& less != 0#n then less else lowered

/-- The kept positions less all that can be spared, tried in increasing order. -/
def release (blocking : List (BitVec n)) (lowered : BitVec n) : BitVec n :=
  (Mask.positions lowered).foldl (releaseOne blocking) lowered

/-- The positions to give up before a cube contains another. -/
def coveringRow (c other : Cube n) : BitVec n :=
  c.care &&& (other.missing ||| (c.literals ^^^ other.literals))

/-- A cube grown into a prime that meets no cube of the off-set. -/
def expandCube (off others : Cover n) (c : Cube n) : Cube n :=
  let blocking := off.map c.conflicts
  let covering := others.map (coveringRow c)
  c.keep (release blocking (Growth.grow blocking covering ⟨c.care, 0#n⟩))

/-! ## Growing a cover -/

/-- The cubes that are not contained in the given one. -/
def notIn (c : Cube n) (f : List (Marked n)) : List (Marked n) :=
  f.filter fun m ↦ !c.contains m.cube

/-- Expands the cubes still to be treated, each against the off-set and all others that are left. -/
def expandFrom (off : Cover n) (treated : List (Marked n)) : List (Marked n) → List (Marked n)
  | [] => treated
  | m :: rest =>
    if m.prime then expandFrom off (treated ++ [m]) rest
    else
      let grown := expandCube off (cubes (treated ++ rest)) m.cube
      expandFrom off (notIn grown treated ++ [⟨grown, true⟩]) (notIn grown rest)
termination_by todo => todo.length
decreasing_by
  · simp
  · simp only [notIn, List.length_cons]
    exact Nat.lt_succ_of_le (List.length_filter_le _ _)

/-- Expands every cube that is not known to be prime.  Against an empty off-set there is nothing to
stop the first of them. -/
def expand (f : List (Marked n)) (off : Cover n) : List (Marked n) :=
  if off.isEmpty then [⟨Cube.full n, true⟩] else expandFrom off [] (largestFirst f)

theorem length_notIn_le (c : Cube n) (f : List (Marked n)) : (notIn c f).length ≤ f.length :=
  List.length_filter_le _ _

theorem length_expandFrom_le (off : Cover n) (treated todo : List (Marked n)) :
    (expandFrom off treated todo).length ≤ treated.length + todo.length := by
  fun_induction expandFrom off treated todo with
  | case1 => simp
  | case2 treated m rest hm ih =>
    simp only [List.length_append, List.length_cons, List.length_nil] at ih ⊢
    omega
  | case3 treated m rest hm grown ih =>
    have h1 := length_notIn_le grown treated
    have h2 := length_notIn_le grown rest
    simp only [List.length_append, List.length_cons, List.length_nil] at ih ⊢
    omega

/-- Expansion adds no cubes, except the full one where there was none. -/
theorem length_expand_le (f : List (Marked n)) (off : Cover n) :
    (expand f off).length ≤ max 1 f.length := by
  unfold expand
  split
  · simp only [List.length_cons, List.length_nil]; omega
  · have := length_expandFrom_le off [] (largestFirst f)
    simp only [List.length_nil, length_largestFirst] at this
    omega

end TwoLevel.Espresso
