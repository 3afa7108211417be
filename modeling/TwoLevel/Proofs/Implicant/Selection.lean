import TwoLevel.Proofs.Implicant.Chart
import TwoLevel.Proofs.Cube.Points
import Mathlib.Data.List.Basic
import Mathlib.Data.List.Induction

/-!
# In which order rows are taken from the chart

`Chart.cover` takes rows until no point is left.  This file says which rows come when.

* **Essential rows first.**  The rows that some point has alone are taken before all others
  (`IsSelection`).  After that no point has only one row, and so it stays: a point keeps its rows
  for as long as it is there, so that covering some points does not leave another with fewer
  (`IsSelection.cons_largest`).
* **Then the largest.**  Each further row covers the most of what the rows before it leave, and of
  such rows it is the first (`isFirstLargest_of_largest?`).
* **Nothing useless.**  Every row that is taken covers a point that is left
  (`Taken.exists_covers_uncovered`).  So none is taken twice, and there are no more rows than it
  takes to cover all points.

**Marks.**  In the chart, columns that are covered are dropped.  Choosing can also be done on a
table that keeps all its columns: every row has a mark for each column that it covers, and when a
row is taken then all rows lose their marks in its columns.  `takeRows` is this loop, with a bound
on its rounds.  A column that has been cleared has no row any more, so it is passed over when the
next row is looked for; the marks of a row that are left count what is left of its columns.  So both
choose the same rows, and a round for each point and a last one are enough (`takeRows_rowAfter`).
-/

set_option autoImplicit false

namespace TwoLevel.Chart

variable {n : Nat} {primes : List (Cube n)} {xs : List (BitVec n)} {c : Cube n}

/-! ## What is left to cover -/

/-- The points that none of the cubes covers. -/
def uncovered (xs : List (BitVec n)) (cs : List (Cube n)) : List (BitVec n) :=
  xs.filter fun x ↦ !Cover.covers cs x

@[simp]
theorem uncovered_nil (xs : List (BitVec n)) : uncovered xs [] = xs :=
  List.filter_eq_self.2 fun _ _ ↦ rfl

theorem uncovered_cons (xs : List (BitVec n)) (c : Cube n) (cs : List (Cube n)) :
    uncovered xs (c :: cs) = uncovered (xs.filter fun x ↦ !c.covers x) cs := by
  simp only [uncovered, List.filter_filter, Cover.covers_cons, Bool.not_or, Bool.and_comm]

/-- What a further cube leaves of what is left. -/
theorem filter_uncovered (xs : List (BitVec n)) (cs : List (Cube n)) (c : Cube n) :
    ((uncovered xs cs).filter fun x ↦ !c.covers x) = uncovered xs (c :: cs) := by
  simp only [uncovered, List.filter_filter, Cover.covers_cons, Bool.not_or]

theorem mem_uncovered {x : BitVec n} {cs : List (Cube n)} :
    x ∈ uncovered xs cs ↔ x ∈ xs ∧ Cover.covers cs x = false := by
  rw [uncovered, List.mem_filter, Bool.not_eq_true']

/-- The number of points that a cube covers. -/
def gain (xs : List (BitVec n)) (c : Cube n) : Nat := xs.countP fun x ↦ c.covers x

/-! ## One row -/

theorem largest?_eq_firstBest (primes : List (Cube n)) (xs : List (BitVec n)) :
    largest? primes (xs.map (Column.ofPoint primes)) =
      firstBest (fun a b ↦ decide (gain xs b < gain xs a))
        (primes.filter fun c ↦ decide (0 < gain xs c)) := by
  have hcovered : covered (xs.map (Column.ofPoint primes)) = gain xs := by
    funext c
    rw [covered, List.countP_map, gain]
    rfl
  simp only [largest?, List.filter_map, firstBest_map, Option.map_map, hcovered]
  exact congrFun Option.map_id _

/-- **The row taken for its size** covers the most of what is left, and is the first such row. -/
theorem isFirstLargest_of_largest? (h : largest? primes (xs.map (Column.ofPoint primes)) = some c) :
    IsFirstLargest (gain xs) primes c ∧ 0 < gain xs c := by
  rw [largest?_eq_firstBest] at h
  have hpos := (List.mem_filter.1 (mem_of_firstBest h)).2
  exact ⟨(isFirstLargest_of_firstBest h).of_filter, of_decide_eq_true hpos⟩

/-- There are two reasons to take a row: some point has only this one, or none has only one and the
row is the first of those that cover the most. -/
theorem select?_cases (hnodup : primes.Nodup)
    (h : select? primes (xs.map (Column.ofPoint primes)) = some c) :
    (∃ x ∈ xs, IsOnlyRow primes x c) ∨
      (∀ x ∈ xs, ∀ d, ¬ IsOnlyRow primes x d) ∧
        IsFirstLargest (gain xs) primes c ∧ 0 < gain xs c := by
  rcases Option.or_eq_some_iff.1 h with h | ⟨hno, h⟩
  · exact Or.inl (exists_isOnlyRow_of_essential? hnodup h)
  · exact Or.inr ⟨(essential?_eq_none_iff hnodup).1 hno, isFirstLargest_of_largest? h⟩

/-! ## The rows in their order -/

/-- First come the rows that some point has alone, then rows that each cover the most of what the
rows before it leave. -/
structure IsSelection (primes : List (Cube n)) (xs : List (BitVec n))
    (essentials rest : List (Cube n)) : Prop where
  /-- The first rows are those that some point has alone. -/
  mem_essentials_iff : ∀ c, c ∈ essentials ↔ ∃ x ∈ xs, IsOnlyRow primes x c
  /-- Each further row is the first of those that cover the most of what is left, and covers some
  of it. -/
  isFirstLargest : ∀ before c, before ++ [c] <+: rest →
    IsFirstLargest (gain (uncovered xs (essentials ++ before))) primes c ∧
      0 < gain (uncovered xs (essentials ++ before)) c

namespace IsSelection

variable {essentials rest : List (Cube n)}

/-- Nothing is taken where no row covers anything. -/
theorem nil (h : ∀ d ∈ primes, ∀ x ∈ xs, d.covers x = false) : IsSelection primes xs [] [] where
  mem_essentials_iff c := by
    refine iff_of_false List.not_mem_nil fun ⟨x, hx, hc⟩ ↦ ?_
    exact Bool.noConfusion ((h c hc.mem x hx).symm.trans hc.covers)
  isFirstLargest before c hc := by simp at hc

/-- Taking the row of a point that has no other leaves the other such rows to be taken. -/
theorem cons_only (h : IsSelection primes (xs.filter fun x ↦ !c.covers x) essentials rest)
    {x : BitVec n} (hx : x ∈ xs) (hc : IsOnlyRow primes x c) :
    IsSelection primes xs (c :: essentials) rest where
  mem_essentials_iff d := by
    rw [List.mem_cons, h.mem_essentials_iff]
    constructor
    · rintro (rfl | ⟨y, hy, hd⟩)
      · exact ⟨x, hx, hc⟩
      · exact ⟨y, (List.mem_filter.1 hy).1, hd⟩
    · rintro ⟨y, hy, hd⟩
      rcases covers_or_mem_filter hy with hcy | hleft
      · exact Or.inl (hd.eq_of_covers c hc.mem hcy).symm
      · exact Or.inr ⟨y, hleft, hd⟩
  isFirstLargest before d hd := by
    rw [List.cons_append, uncovered_cons]
    exact h.isFirstLargest before d hd

/-- **What is taken for its size leaves no point with only one row**, if there was none before: a
point keeps its rows for as long as it is there. -/
theorem cons_largest (h : IsSelection primes (xs.filter fun x ↦ !c.covers x) essentials rest)
    (hno : ∀ x ∈ xs, ∀ d, ¬ IsOnlyRow primes x d)
    (hc : IsFirstLargest (gain xs) primes c) (hpos : 0 < gain xs c) :
    essentials = [] ∧ IsSelection primes xs [] (c :: rest) := by
  have hnil : essentials = [] := by
    refine List.eq_nil_iff_forall_not_mem.2 fun d hd ↦ ?_
    obtain ⟨x, hx, hd⟩ := (h.mem_essentials_iff d).1 hd
    exact hno x (List.mem_filter.1 hx).1 d hd
  subst hnil
  refine ⟨rfl, ?_, fun before d hd ↦ ?_⟩
  · intro d
    simpa using fun x hx ↦ hno x hx d
  · cases before with
    | nil =>
      obtain rfl : d = c := (List.cons_prefix_cons.1 hd).1
      simpa using ⟨hc, hpos⟩
    | cons b before =>
      obtain ⟨rfl, hrest⟩ := List.cons_prefix_cons.1 hd
      simpa [uncovered_cons] using h.isFirstLargest before d hrest

end IsSelection

/-- **The rows that some point has alone are taken first, and then the largest.** -/
theorem exists_isSelection_choose (hnodup : primes.Nodup) {columns : List (Column n)} :
    ∀ xs, columns = xs.map (Column.ofPoint primes) →
      ∃ essentials rest, choose primes columns = essentials ++ rest ∧
        IsSelection primes xs essentials rest := by
  fun_induction choose primes columns with
  | case1 columns hnone =>
    rintro xs rfl
    have hno := largest?_eq_none_iff.1 (Option.or_eq_none_iff.1 hnone).2
    exact ⟨[], [], rfl, IsSelection.nil hno⟩
  | case2 columns c hsome ih =>
    rintro xs rfl
    obtain ⟨essentials, rest, heq, h⟩ := ih _ remaining_map
    rcases select?_cases hnodup hsome with ⟨x, hx, hc⟩ | ⟨hno, hc, hpos⟩
    · exact ⟨c :: essentials, rest, by rw [heq, List.cons_append], h.cons_only hx hc⟩
    · obtain ⟨rfl, hselection⟩ := h.cons_largest hno hc hpos
      exact ⟨[], c :: rest, by rw [heq]; rfl, hselection⟩

/-! ## No row is useless -/

section

variable {cs before : List (Cube n)}

/-- If a row covers a point, and each row after it one that is left, so does each of all of them. -/
theorem exists_covers_uncovered_cons {d : Cube n} {y : BitVec n} (hy : y ∈ xs)
    (hdy : d.covers y = true)
    (hcs : ∀ {before}, before ++ [c] <+: cs →
      ∃ x ∈ uncovered (xs.filter fun x ↦ !d.covers x) before, c.covers x = true)
    (hc : before ++ [c] <+: d :: cs) : ∃ x ∈ uncovered xs before, c.covers x = true := by
  cases before with
  | nil =>
    obtain rfl : c = d := (List.cons_prefix_cons.1 hc).1
    exact ⟨y, by rwa [uncovered_nil], hdy⟩
  | cons b before =>
    obtain ⟨rfl, hrest⟩ := List.cons_prefix_cons.1 hc
    rw [uncovered_cons]
    exact hcs hrest

/-- Every row that is taken covers a point that the rows before it leave. -/
theorem Taken.exists_covers_uncovered (h : Taken primes xs cs) (hc : before ++ [c] <+: cs) :
    ∃ x ∈ uncovered xs before, c.covers x = true := by
  induction h generalizing before with
  | done _ => simp at hc
  | only hx honly _ ih => exact exists_covers_uncovered_cons hx honly.covers ih hc
  | largest hx _ _ hcx _ ih => exact exists_covers_uncovered_cons hx hcx ih hc

/-- So no row is taken twice. -/
theorem Taken.nodup (h : Taken primes xs cs) : cs.Nodup := by
  have hnew : ∀ before c, before ++ [c] <+: cs → c ∉ before := by
    intro before c hc hmem
    obtain ⟨x, hx, hcx⟩ := h.exists_covers_uncovered hc
    have huncovered := Cover.covers_eq_false_iff.1 (mem_uncovered.1 hx).2 c hmem
    exact Bool.noConfusion (huncovered.symm.trans hcx)
  clear h
  induction cs using List.reverseRecOn with
  | nil => exact List.nodup_nil
  | append_singleton cs c ih =>
    have hcs := ih fun before d hd ↦ hnew before d (hd.trans (List.prefix_append _ _))
    have hc := hnew cs c (List.prefix_refl _)
    refine List.nodup_append.2 ⟨hcs, List.pairwise_singleton _ _, ?_⟩
    rintro d hd _ hmem rfl
    exact hc (List.mem_singleton.1 hmem ▸ hd)

/-- **Rows are taken until every point is covered**, and not longer. -/
theorem Taken.uncovered_eq_nil_iff (h : Taken primes xs cs)
    (hcov : ∀ x ∈ xs, ∃ d ∈ primes, d.covers x = true) (hbefore : before <+: cs) :
    uncovered xs before = [] ↔ before = cs := by
  constructor
  · intro hnil
    obtain ⟨rest, rfl⟩ := hbefore
    cases rest with
    | nil => rw [List.append_nil]
    | cons c rest =>
      have hc : before ++ [c] <+: before ++ c :: rest := ⟨rest, by simp⟩
      obtain ⟨x, hx, _⟩ := h.exists_covers_uncovered hc
      rw [hnil] at hx
      cases hx
  · rintro rfl
    refine List.eq_nil_iff_forall_not_mem.2 fun x hx ↦ ?_
    obtain ⟨hx, huncovered⟩ := mem_uncovered.1 hx
    obtain ⟨d, hd, hdx⟩ := hcov x hx
    rw [Cover.covers_iff.2 (h.exists_covers hx hd hdx)] at huncovered
    cases huncovered

end

/-! ## The table of marks -/

/-- A row of the covering table, with a mark for every column that it covers and that is not
covered yet. -/
structure MarkedRow (n : Nat) where
  /-- The prime implicant of the row. -/
  cube : Cube n
  /-- The marks, column after column. -/
  marks : List Bool

namespace MarkedRow

/-- Whether the row has a mark in a column. -/
def isMarked (r : MarkedRow n) (column : Nat) : Bool := r.marks[column]? == some true

/-- The number of marks of the row. -/
def size (r : MarkedRow n) : Nat := r.marks.count true

/-- The row of a prime implicant before any row is taken. -/
def ofCube (xs : List (BitVec n)) (c : Cube n) : MarkedRow n := ⟨c, xs.map c.covers⟩

/-- A row without its marks in the columns that another has marks in. -/
def clear (taken r : MarkedRow n) : MarkedRow n :=
  ⟨r.cube, List.zipWith (fun mark other ↦ mark && !other) r.marks taken.marks⟩

end MarkedRow

/-- The member of a list that has only one. -/
def only? {α : Type} : List α → Option α
  | [a] => some a
  | _ => none

/-- The row of the first column that only one row has a mark in. -/
def firstOnly? (rows : List (MarkedRow n)) (columns : Nat) : Option (MarkedRow n) :=
  (List.range columns).findSome? fun j ↦ only? (rows.filter (·.isMarked j))

/-- The first row with the most marks, if any row has one. -/
def firstFullest? (rows : List (MarkedRow n)) : Option (MarkedRow n) :=
  rows.foldl (fun best r ↦ if best.elim 0 MarkedRow.size < r.size then some r else best) none

/-- Takes rows from a table until none has a mark, clearing the columns of each row that is taken,
if so many rounds are enough. -/
def takeRows (columns : Nat) : Nat → List (MarkedRow n) → Option (List (Cube n))
  | 0, _ => none
  | rounds + 1, rows =>
    match (firstOnly? rows columns).or (firstFullest? rows) with
    | none => some []
    | some r => (takeRows columns rounds (rows.map r.clear)).map (r.cube :: ·)

/-- The row of a prime implicant when some rows have been taken. -/
def rowAfter (xs : List (BitVec n)) (taken : List (Cube n)) (c : Cube n) : MarkedRow n :=
  ⟨c, xs.map fun x ↦ c.covers x && !Cover.covers taken x⟩

variable {taken : List (Cube n)}

theorem ofCube_eq_rowAfter (xs : List (BitVec n)) : MarkedRow.ofCube xs = rowAfter xs [] := by
  funext c
  simp [MarkedRow.ofCube, rowAfter]

theorem size_rowAfter (xs : List (BitVec n)) (taken : List (Cube n)) (c : Cube n) :
    (rowAfter xs taken c).size = gain (uncovered xs taken) c := by
  rw [MarkedRow.size, rowAfter, gain, uncovered, List.countP_filter, List.count_eq_countP,
    List.countP_map]
  refine List.countP_congr fun x _ ↦ ?_
  simp

/-- Clearing the columns of a row leaves the table in which that row has been taken, too. -/
theorem clear_rowAfter (xs : List (BitVec n)) (taken : List (Cube n)) (c d : Cube n) :
    (rowAfter xs taken c).clear (rowAfter xs taken d) = rowAfter xs (c :: taken) d := by
  simp only [MarkedRow.clear, rowAfter, List.zipWith_map, List.zipWith_self, Cover.covers_cons]
  congr
  funext x
  cases c.covers x <;> cases Cover.covers taken x <;> simp

theorem isMarked_rowAfter {j : Nat} :
    (rowAfter xs taken c).isMarked j = xs[j]?.any fun x ↦ c.covers x && !Cover.covers taken x := by
  rw [MarkedRow.isMarked, rowAfter, List.getElem?_map]
  cases xs[j]? <;> simp

/-- The fullest row is the one that covers the most of what is left. -/
theorem firstFullest?_rowAfter (primes : List (Cube n)) (xs : List (BitVec n))
    (taken : List (Cube n)) :
    firstFullest? (primes.map (rowAfter xs taken)) =
      (largest? primes ((uncovered xs taken).map (Column.ofPoint primes))).map
        (rowAfter xs taken) := by
  rw [firstFullest?, foldl_larger_eq_firstBest, List.filter_map, firstBest_map,
    largest?_eq_firstBest]
  simp only [size_rowAfter, Function.comp_def]

/-- The rows with a mark in the column of a point are all that cover it, or none once it is
covered. -/
theorem filter_isMarked_rowAfter {j : Nat} {x : BitVec n} (hx : xs[j]? = some x) :
    (primes.map (rowAfter xs taken)).filter (·.isMarked j) =
      if Cover.covers taken x then []
      else (Column.ofPoint primes x).rows.map (rowAfter xs taken) := by
  simp only [List.filter_map, Function.comp_def, isMarked_rowAfter, hx, Option.any_some]
  split
  · next h => simp [h]
  · next h => simp [h, Column.ofPoint]

theorem only?_map {α β : Type} (f : α → β) (as : List α) : only? (as.map f) = (only? as).map f := by
  rcases as with _ | ⟨a, _ | ⟨b, as⟩⟩
  · rfl
  · rfl
  · rfl

theorem onlyRow?_eq_only? (column : Column n) : column.onlyRow? = only? column.rows := by
  rw [Column.onlyRow?]
  rcases column.rows with _ | ⟨c, _ | ⟨d, rows⟩⟩
  · rfl
  · rfl
  · rfl

/-- What is the only row of a column that is left stands alone in the table, and a column that is
covered has no row at all. -/
theorem only?_isMarked_rowAfter {j : Nat} {x : BitVec n} (hx : xs[j]? = some x) :
    only? ((primes.map (rowAfter xs taken)).filter (·.isMarked j)) =
      if !Cover.covers taken x then
        (Column.ofPoint primes x).onlyRow?.map (rowAfter xs taken)
      else none := by
  rw [filter_isMarked_rowAfter hx, onlyRow?_eq_only?, ← only?_map]
  cases Cover.covers taken x <;> rfl

/-- Going through the numbers of the members is going through the members. -/
theorem findSome?_range_bind {α β : Type} (f : α → Option β) (as : List α) :
    ((List.range as.length).findSome? fun j ↦ as[j]?.bind f) = as.findSome? f := by
  induction as with
  | nil => rfl
  | cons a as ih =>
    rw [List.length_cons, List.range_succ_eq_map, List.findSome?_cons, List.findSome?_map,
      List.findSome?_cons, ← ih]
    rfl

/-- The row that stands alone first is that of the first column left with only one row. -/
theorem firstOnly?_rowAfter (primes : List (Cube n)) (xs : List (BitVec n))
    (taken : List (Cube n)) :
    firstOnly? (primes.map (rowAfter xs taken)) xs.length =
      (essential? ((uncovered xs taken).map (Column.ofPoint primes))).map
        (rowAfter xs taken) := by
  rw [essential?, List.findSome?_map, List.map_findSome?, uncovered, ← List.head?_filterMap,
    List.filterMap_filter, List.head?_filterMap, ← findSome?_range_bind, firstOnly?,
    ← List.head?_filterMap, ← List.head?_filterMap]
  refine congrArg List.head? (List.filterMap_congr fun j hj ↦ ?_)
  have hx := List.getElem?_eq_getElem (List.mem_range.1 hj)
  rw [only?_isMarked_rowAfter hx, hx]
  rfl

theorem choose_eq (primes : List (Cube n)) (columns : List (Column n)) :
    choose primes columns =
      match select? primes columns with
      | none => []
      | some c => c :: choose primes (remaining columns c) := by
  rw [choose]
  split <;> simp [*]

/-- **The table of marks and the shrinking chart choose the same rows**, and a round for each
column is enough. -/
theorem takeRows_rowAfter {rounds : Nat} (hrounds : (uncovered xs taken).length < rounds) :
    takeRows xs.length rounds (primes.map (rowAfter xs taken)) =
      some (choose primes ((uncovered xs taken).map (Column.ofPoint primes))) := by
  induction rounds generalizing taken with
  | zero => exact absurd hrounds (Nat.not_lt_zero _)
  | succ rounds ih =>
    rw [takeRows, firstOnly?_rowAfter, firstFullest?_rowAfter, ← Option.map_or, ← select?,
      choose_eq]
    cases hselect : select? primes ((uncovered xs taken).map (Column.ofPoint primes)) with
    | none => rfl
    | some c =>
      have hleft : remaining ((uncovered xs taken).map (Column.ofPoint primes)) c =
          (uncovered xs (c :: taken)).map (Column.ofPoint primes) := by
        rw [remaining_map, filter_uncovered]
      have hclear : (primes.map (rowAfter xs taken)).map (rowAfter xs taken c).clear =
          primes.map (rowAfter xs (c :: taken)) := by
        rw [List.map_map]
        exact List.map_congr_left fun d _ ↦ clear_rowAfter xs taken c d
      have hshorter := length_remaining_lt hselect
      rw [hleft, List.length_map, List.length_map] at hshorter
      simp only [Option.map_some, hclear, hleft]
      rw [ih (by omega)]
      rfl

/-! ## The whole selection -/

/-- The rows taken for some points are the essential ones and then the largest, without
repetitions, until all points are covered. -/
structure EssentialsFirst (primes : List (Cube n)) (xs : List (BitVec n)) (cs : List (Cube n)) :
    Prop where
  /-- No row is taken twice. -/
  nodup : cs.Nodup
  /-- First come the rows that some point has alone, and then rows that each cover the most of what
  those before leave, the first such row each time. -/
  exists_append : ∃ essentials rest, cs = essentials ++ rest ∧
    IsSelection primes xs essentials rest
  /-- No point is left when all rows are taken, and not before. -/
  uncovered_eq_nil_iff : ∀ before, before <+: cs → (uncovered xs before = [] ↔ before = cs)

/-- **Essential rows first, then the largest, and nothing useless.**  Taking rows from the table of
marks ends, after at most one round more than there are points, with the rows that `cover` chooses;
these are the essential rows and then the largest ones, until every point is covered. -/
theorem cover_ends_and_essentialsFirst (hnodup : primes.Nodup)
    (hcov : ∀ x ∈ xs, ∃ d ∈ primes, d.covers x = true) :
    (∀ rounds, xs.length < rounds →
      takeRows xs.length rounds (primes.map (MarkedRow.ofCube xs)) = some (cover primes xs)) ∧
      EssentialsFirst primes xs (cover primes xs) := by
  refine ⟨fun rounds hrounds ↦ ?_, ?_⟩
  · have htake : takeRows xs.length rounds (primes.map (rowAfter xs [])) =
        some (choose primes ((uncovered xs []).map (Column.ofPoint primes))) :=
      takeRows_rowAfter (by rwa [uncovered_nil])
    rwa [uncovered_nil, ← cover, ← ofCube_eq_rowAfter] at htake
  · have htaken := taken_cover hnodup xs
    exact ⟨htaken.nodup, exists_isSelection_choose hnodup xs rfl,
      fun before hbefore ↦ htaken.uncovered_eq_nil_iff hcov hbefore⟩

/-- The rows of a chart where, once the two essential rows are taken, the others are equally
good. -/
def tiedRows : List (Cube 4) :=
  [Cube.ofMasks 2#4 4#4, Cube.ofMasks 6#4 1#4, Cube.ofMasks 0#4 10#4, Cube.ofMasks 5#4 10#4]

/-- The points of that chart. -/
def tiedPoints : List (BitVec 4) := [0#4, 2#4, 5#4, 6#4, 7#4, 8#4, 10#4, 13#4, 15#4]

theorem cover_ends_and_essentialsFirst_tied :
    tiedRows.Nodup ∧ (∀ x ∈ tiedPoints, ∃ d ∈ tiedRows, d.covers x = true) ∧
    takeRows 9 10 (tiedRows.map (MarkedRow.ofCube tiedPoints)) = some (cover tiedRows tiedPoints) ∧
    EssentialsFirst tiedRows tiedPoints (cover tiedRows tiedPoints) := by
  have hnodup : tiedRows.Nodup := by decide
  have hcov : ∀ x ∈ tiedPoints, ∃ d ∈ tiedRows, d.covers x = true := by decide
  obtain ⟨hends, hfirst⟩ := cover_ends_and_essentialsFirst hnodup hcov
  exact ⟨hnodup, hcov, hends 10 (by decide), hfirst⟩

example : takeRows 9 10 (tiedRows.map (MarkedRow.ofCube tiedPoints)) =
    some [Cube.ofMasks 0#4 10#4, Cube.ofMasks 5#4 10#4, Cube.ofMasks 2#4 4#4] := by
  decide

end TwoLevel.Chart
