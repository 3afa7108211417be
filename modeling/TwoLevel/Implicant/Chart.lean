import TwoLevel.Cube.Lemmas
import TwoLevel.Choice

/-!
# Choosing among prime implicants

The chart has a row for every prime implicant and a column for every explicit point, and a row
covers the columns whose points it covers.  A cover is chosen row by row, and what a chosen row
covers leaves the chart:

* while some column has only one row, that row is taken, for the first such column: no cover can do
  without it;
* after that, the row that covers the most remaining columns is taken, the first of equally good
  ones.

A column keeps its rows as long as it is there, so which rows are taken first does not change with
what is taken.  Every row taken covers a column, so the chart gets smaller until it is empty.
-/

set_option autoImplicit false

namespace TwoLevel

variable {n : Nat}

/-- An explicit point with the prime implicants that cover it. -/
structure Column (n : Nat) where
  /-- The point. -/
  point : BitVec n
  /-- The prime implicants that cover it, in the order of the rows. -/
  rows : List (Cube n)
  /-- Each row of a column covers its point. -/
  covers : ∀ c ∈ rows, c.covers point = true

namespace Column

/-- The column of a point. -/
def ofPoint (primes : List (Cube n)) (x : BitVec n) : Column n where
  point := x
  rows := primes.filter fun c ↦ c.covers x
  covers := fun _ h ↦ (List.mem_filter.1 h).2

/-- The row of a column that has only one. -/
def onlyRow? (column : Column n) : Option (Cube n) :=
  match column.rows with
  | [c] => some c
  | _ => none

theorem covers_of_onlyRow? {column : Column n} {c : Cube n} (h : column.onlyRow? = some c) :
    c.covers column.point = true := by
  unfold onlyRow? at h
  split at h
  · next hrows =>
    cases h
    exact column.covers c (by rw [hrows]; exact List.mem_singleton.2 rfl)
  · cases h

end Column

namespace Chart

/-- The only row of the first column that has only one. -/
def essential? (columns : List (Column n)) : Option (Cube n) := columns.findSome? Column.onlyRow?

/-- The number of columns a row covers. -/
def covered (columns : List (Column n)) (c : Cube n) : Nat :=
  columns.countP fun column ↦ c.covers column.point

/-- The first of the rows that cover the most columns, if any row covers one. -/
def largest? (primes : List (Cube n)) (columns : List (Column n)) : Option (Cube n) :=
  (firstBest (fun a b ↦ decide (b.2 < a.2))
    ((primes.map fun c ↦ (c, covered columns c)).filter fun p ↦ decide (0 < p.2))).map (·.1)

/-- The row to take next. -/
def select? (primes : List (Cube n)) (columns : List (Column n)) : Option (Cube n) :=
  (essential? columns).or (largest? primes columns)

/-- A row is taken only for a column that it covers. -/
theorem exists_covers_of_select? {primes : List (Cube n)} {columns : List (Column n)} {c : Cube n}
    (h : select? primes columns = some c) : ∃ column ∈ columns, c.covers column.point = true := by
  unfold select? at h
  rw [Option.or_eq_some_iff] at h
  rcases h with h | ⟨_, h⟩
  · obtain ⟨column, hmem, honly⟩ := List.exists_of_findSome?_eq_some h
    exact ⟨column, hmem, Column.covers_of_onlyRow? honly⟩
  · obtain ⟨p, hp, rfl⟩ := Option.map_eq_some_iff.1 h
    obtain ⟨hp, hpos⟩ := List.mem_filter.1 (mem_of_firstBest hp)
    obtain ⟨c, _, rfl⟩ := List.mem_map.1 hp
    obtain ⟨column, hmem, hcov⟩ := List.countP_pos_iff.1 (of_decide_eq_true hpos)
    exact ⟨column, hmem, hcov⟩

/-- The columns left after a row is taken. -/
def remaining (columns : List (Column n)) (c : Cube n) : List (Column n) :=
  columns.filter fun column ↦ !c.covers column.point

/-- The row taken takes a column with it. -/
theorem length_remaining_lt {primes : List (Cube n)} {columns : List (Column n)} {c : Cube n}
    (h : select? primes columns = some c) : (remaining columns c).length < columns.length := by
  obtain ⟨column, hmem, hcov⟩ := exists_covers_of_select? h
  exact List.length_filter_lt_length_iff_exists.2 ⟨column, hmem, by simp [hcov]⟩

/-- The rows taken until no column is left that any row covers. -/
def choose (primes : List (Cube n)) (columns : List (Column n)) : List (Cube n) :=
  match _h : select? primes columns with
  | none => []
  | some c => c :: choose primes (remaining columns c)
termination_by columns.length
decreasing_by exact length_remaining_lt _h

/-- The prime implicants chosen to cover the given points. -/
def cover (primes : List (Cube n)) (xs : List (BitVec n)) : List (Cube n) :=
  choose primes (xs.map (Column.ofPoint primes))

end Chart

end TwoLevel
