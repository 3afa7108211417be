import TwoLevel.Implicant.Chart
import Mathlib.Tactic.ByContra

/-!
# What is chosen from the chart

The chart is a list of columns that shrinks.  What matters of a column is its point, since its rows
are all the prime implicants that cover the point, and they stay so for as long as the column is
there.  `Taken` says this of a whole run: which points are left, and for what reason the next row is
taken.

Two things follow by induction on a run.  Every point that some row covers is covered by a row that
is taken (`Taken.exists_covers`).  And where the rows that some point has alone cover everything,
they are what is taken (`Taken.mem_iff_of_suffices`): another row could be taken only when none of
those is left, and then no point is left.
-/

set_option autoImplicit false

namespace TwoLevel.Chart

variable {n : Nat} {primes : List (Cube n)} {xs : List (BitVec n)} {c : Cube n}

/-! ## One choice -/

/-- No other row covers the point. -/
structure IsOnlyRow (primes : List (Cube n)) (x : BitVec n) (c : Cube n) : Prop where
  /-- It is a row. -/
  mem : c ∈ primes
  /-- It covers the point. -/
  covers : c.covers x = true
  /-- Any row that covers the point is this one. -/
  eq_of_covers : ∀ d ∈ primes, d.covers x = true → d = c

theorem mem_rows_ofPoint {x : BitVec n} :
    c ∈ (Column.ofPoint primes x).rows ↔ c ∈ primes ∧ c.covers x = true :=
  List.mem_filter

theorem onlyRow?_eq_some_iff {column : Column n} :
    column.onlyRow? = some c ↔ column.rows = [c] := by
  rw [Column.onlyRow?]
  split
  · next d hrows => rw [hrows, Option.some.injEq, List.cons.injEq, and_iff_left rfl]
  · next hrows => exact iff_of_false nofun (hrows c)

theorem onlyRow?_ofPoint_eq_some_iff (hnodup : primes.Nodup) {x : BitVec n} :
    (Column.ofPoint primes x).onlyRow? = some c ↔ IsOnlyRow primes x c := by
  rw [onlyRow?_eq_some_iff]
  refine ⟨fun hrows ↦ ?_, fun h ↦ ?_⟩
  · have hmem : c ∈ primes ∧ c.covers x = true := by
      rw [← mem_rows_ofPoint, hrows]
      exact List.mem_singleton.2 rfl
    refine ⟨hmem.1, hmem.2, fun d hd hdx ↦ ?_⟩
    rw [← List.mem_singleton, ← hrows, mem_rows_ofPoint]
    exact ⟨hd, hdx⟩
  · rw [← List.perm_singleton]
    refine (List.perm_ext_iff_of_nodup (hnodup.filter _) (List.pairwise_singleton _ c)).2 fun d ↦ ?_
    rw [List.mem_singleton]
    refine ⟨fun hd ↦ ?_, ?_⟩
    · obtain ⟨hd, hdx⟩ := List.mem_filter.1 hd
      exact h.eq_of_covers d hd hdx
    · rintro rfl
      exact List.mem_filter.2 ⟨h.mem, h.covers⟩

theorem essential?_eq_none_iff (hnodup : primes.Nodup) :
    essential? (xs.map (Column.ofPoint primes)) = none ↔ ∀ x ∈ xs, ∀ d, ¬ IsOnlyRow primes x d := by
  rw [essential?, List.findSome?_eq_none_iff, List.forall_mem_map]
  refine forall₂_congr fun x _ ↦ ?_
  rw [Option.eq_none_iff_forall_ne_some]
  exact forall_congr' fun d ↦ not_congr (onlyRow?_ofPoint_eq_some_iff hnodup)

theorem exists_isOnlyRow_of_essential? (hnodup : primes.Nodup)
    (h : essential? (xs.map (Column.ofPoint primes)) = some c) :
    ∃ x ∈ xs, IsOnlyRow primes x c := by
  obtain ⟨column, hcolumn, honly⟩ := List.exists_of_findSome?_eq_some h
  obtain ⟨x, hx, rfl⟩ := List.mem_map.1 hcolumn
  exact ⟨x, hx, (onlyRow?_ofPoint_eq_some_iff hnodup).1 honly⟩

theorem covered_pos_iff : 0 < covered (xs.map (Column.ofPoint primes)) c ↔
    ∃ x ∈ xs, c.covers x = true := by
  rw [covered, List.countP_map, List.countP_pos_iff]
  exact Iff.rfl

theorem largest?_eq_none_iff : largest? primes (xs.map (Column.ofPoint primes)) = none ↔
    ∀ d ∈ primes, ∀ x ∈ xs, d.covers x = false := by
  rw [largest?, Option.map_eq_none_iff, firstBest_eq_none_iff, List.filter_eq_nil_iff,
    List.forall_mem_map]
  refine forall₂_congr fun d _ ↦ ?_
  rw [decide_eq_true_iff, covered_pos_iff]
  refine ⟨fun h x hx ↦ ?_, ?_⟩
  · rw [← Bool.not_eq_true]
    exact fun hdx ↦ h ⟨x, hx, hdx⟩
  · rintro h ⟨x, hx, hdx⟩
    exact Bool.noConfusion ((h x hx).symm.trans hdx)

/-- What is taken for its size is a row that covers something. -/
theorem mem_and_covers_of_largest? (h : largest? primes (xs.map (Column.ofPoint primes)) = some c) :
    c ∈ primes ∧ ∃ x ∈ xs, c.covers x = true := by
  obtain ⟨q, hq, rfl⟩ := Option.map_eq_some_iff.1 h
  obtain ⟨hq, hpos⟩ := List.mem_filter.1 (mem_of_firstBest hq)
  obtain ⟨d, hd, rfl⟩ := List.mem_map.1 hq
  exact ⟨hd, covered_pos_iff.1 (of_decide_eq_true hpos)⟩

theorem remaining_map : remaining (xs.map (Column.ofPoint primes)) c =
    (xs.filter fun x ↦ !c.covers x).map (Column.ofPoint primes) :=
  List.filter_map

/-! ## A whole run -/

/-- The rows taken for the points that are left. -/
inductive Taken (primes : List (Cube n)) : List (BitVec n) → List (Cube n) → Prop
  /-- No row covers what is left. -/
  | done {xs : List (BitVec n)} (h : ∀ c ∈ primes, ∀ x ∈ xs, c.covers x = false) :
      Taken primes xs []
  /-- A point has only the row that is taken. -/
  | only {xs : List (BitVec n)} {x : BitVec n} {c : Cube n} {cs : List (Cube n)} (hx : x ∈ xs)
      (hc : IsOnlyRow primes x c) (tail : Taken primes (xs.filter fun y ↦ !c.covers y) cs) :
      Taken primes xs (c :: cs)
  /-- No point has only one row, and the row that is taken covers some point. -/
  | largest {xs : List (BitVec n)} {x : BitVec n} {c : Cube n} {cs : List (Cube n)} (hx : x ∈ xs)
      (hno : ∀ y ∈ xs, ∀ d, ¬ IsOnlyRow primes y d) (hc : c ∈ primes) (hcx : c.covers x = true)
      (tail : Taken primes (xs.filter fun y ↦ !c.covers y) cs) : Taken primes xs (c :: cs)

/-- Nothing is taken for no points. -/
theorem Taken.nil (primes : List (Cube n)) : Taken primes [] [] :=
  Taken.done fun _ _ _ hx ↦ absurd hx List.not_mem_nil

theorem taken_choose (hnodup : primes.Nodup) {columns : List (Column n)} :
    ∀ xs, columns = xs.map (Column.ofPoint primes) → Taken primes xs (choose primes columns) := by
  fun_induction choose primes columns with
  | case1 columns hnone =>
    rintro xs rfl
    exact Taken.done (largest?_eq_none_iff.1 (Option.or_eq_none_iff.1 hnone).2)
  | case2 columns c hsome ih =>
    rintro xs rfl
    have tail := ih _ remaining_map
    rcases Option.or_eq_some_iff.1 hsome with h | ⟨hno, h⟩
    · obtain ⟨x, hx, hc⟩ := exists_isOnlyRow_of_essential? hnodup h
      exact Taken.only hx hc tail
    · obtain ⟨hc, x, hx, hcx⟩ := mem_and_covers_of_largest? h
      exact Taken.largest hx ((essential?_eq_none_iff hnodup).1 hno) hc hcx tail

theorem taken_cover (hnodup : primes.Nodup) (xs : List (BitVec n)) :
    Taken primes xs (cover primes xs) :=
  taken_choose hnodup xs rfl

variable {cs : List (Cube n)}

/-- Where there is no point no row is taken. -/
@[simp]
theorem cover_nil (primes : List (Cube n)) : cover primes [] = [] := by
  rw [cover, List.map_nil, choose]
  split
  · rfl
  · next c h =>
    obtain ⟨_, hmem, _⟩ := exists_covers_of_select? h
    cases hmem

theorem taken_nil_iff : Taken primes [] cs ↔ cs = [] := by
  constructor
  · intro h
    cases h with
    | done _ => rfl
    | only hx _ _ => cases hx
    | largest hx _ _ _ _ => cases hx
  · rintro rfl
    exact Taken.nil primes

/-- For a lone point the row is taken that it has alone. -/
theorem taken_singleton_iff {x : BitVec n} (hc : IsOnlyRow primes x c) :
    Taken primes [x] cs ↔ cs = [c] := by
  have hleft : [x].filter (fun y ↦ !c.covers y) = [] :=
    List.filter_cons_of_neg (by rw [hc.covers]; decide)
  constructor
  · intro h
    cases h with
    | done hno => exact Bool.noConfusion ((hno c hc.mem x List.mem_cons_self).symm.trans hc.covers)
    | only hx hd tail =>
      obtain rfl := List.mem_singleton.1 hx
      obtain rfl := hc.eq_of_covers _ hd.mem hd.covers
      rw [hleft, taken_nil_iff] at tail
      rw [tail]
    | largest _ hno _ _ _ => exact absurd hc (hno x List.mem_cons_self c)
  · rintro rfl
    refine Taken.only List.mem_cons_self hc ?_
    rw [hleft, taken_nil_iff]

/-- Only rows are taken. -/
theorem Taken.mem_primes (h : Taken primes xs cs) (hc : c ∈ cs) : c ∈ primes := by
  induction h with
  | done _ => cases hc
  | only _ honly _ ih =>
    rcases List.mem_cons.1 hc with rfl | hc
    · exact honly.mem
    · exact ih hc
  | largest _ _ hmem _ _ ih =>
    rcases List.mem_cons.1 hc with rfl | hc
    · exact hmem
    · exact ih hc

/-- The step of a run: what the row does not cover is left for the rest. -/
theorem covers_or_mem_filter {x : BitVec n} (hx : x ∈ xs) :
    c.covers x = true ∨ x ∈ xs.filter fun y ↦ !c.covers y := by
  cases hcx : c.covers x with
  | true => exact Or.inl rfl
  | false => exact Or.inr (List.mem_filter.2 ⟨hx, by rw [hcx]; rfl⟩)

/-- **Every point that some row covers is covered by a row that is taken.** -/
theorem Taken.exists_covers (h : Taken primes xs cs) {x : BitVec n} (hx : x ∈ xs) {d : Cube n}
    (hd : d ∈ primes) (hdx : d.covers x = true) : ∃ c ∈ cs, c.covers x = true := by
  have step : ∀ {ys : List (BitVec n)} {c : Cube n} {cs : List (Cube n)}, x ∈ ys →
      (x ∈ ys.filter (fun y ↦ !c.covers y) → ∃ c ∈ cs, c.covers x = true) →
      ∃ d ∈ c :: cs, d.covers x = true := by
    intro ys c cs hx ih
    rcases covers_or_mem_filter (c := c) hx with hcx | hmem
    · exact ⟨c, List.mem_cons_self, hcx⟩
    · obtain ⟨e, he, hex⟩ := ih hmem
      exact ⟨e, List.mem_cons_of_mem _ he, hex⟩
  induction h with
  | done h => exact Bool.noConfusion ((h d hd x hx).symm.trans hdx)
  | only _ _ _ ih => exact step hx ih
  | largest _ _ _ _ _ ih => exact step hx ih

/-- The row that a point has alone is taken. -/
theorem Taken.mem_of_isOnlyRow (h : Taken primes xs cs) {x : BitVec n} (hx : x ∈ xs)
    (hc : IsOnlyRow primes x c) : c ∈ cs := by
  obtain ⟨d, hd, hdx⟩ := h.exists_covers hx hc.mem hc.covers
  rwa [← hc.eq_of_covers d (h.mem_primes hd) hdx]

/-- **Where the rows that some point has alone suffice, no other row is taken.** -/
theorem Taken.mem_iff_of_suffices (h : Taken primes xs cs)
    (hsuff : ∀ x ∈ xs, ∃ d y, y ∈ xs ∧ IsOnlyRow primes y d ∧ d.covers x = true) :
    c ∈ cs ↔ ∃ y ∈ xs, IsOnlyRow primes y c := by
  refine ⟨fun hc ↦ ?_, fun ⟨y, hy, hc⟩ ↦ h.mem_of_isOnlyRow hy hc⟩
  induction h with
  | done _ => cases hc
  | @only xs x a cs hx ha _ ih =>
    rcases List.mem_cons.1 hc with rfl | hc
    · exact ⟨x, hx, ha⟩
    · -- a point that is left is covered by another such row, whose own point is left, too
      have hleft : ∀ z ∈ xs.filter fun y ↦ !a.covers y, ∃ d y,
          y ∈ xs.filter (fun y ↦ !a.covers y) ∧ IsOnlyRow primes y d ∧ d.covers z = true := by
        intro z hz
        obtain ⟨hz, haz⟩ := List.mem_filter.1 hz
        obtain ⟨d, y, hy, hd, hdz⟩ := hsuff z hz
        refine ⟨d, y, (covers_or_mem_filter hy).resolve_left fun hay ↦ ?_, hd, hdz⟩
        rw [hd.eq_of_covers a ha.mem hay, hdz] at haz
        cases haz
      obtain ⟨y, hy, hyc⟩ := ih hleft hc
      exact ⟨y, (List.mem_filter.1 hy).1, hyc⟩
  | largest hx hno _ _ _ _ =>
    obtain ⟨d, y, hy, hd, _⟩ := hsuff _ hx
    exact absurd hd (hno y hy d)

end TwoLevel.Chart
