import TwoLevel.Proofs.QuineMcCluskey.Table
import Mathlib.Data.List.Nodup

/-!
# Looking partners up finds what trying all pairs finds

The table of implicants could be filled without any look-up.  Go through the cells of a level in
turn, try to combine every cube of a cell with every cube of the next cell, in the order of the
cells, and put each cube that comes out into its cell of the next level unless it is there already.
That is `Tier.tryAll`, and this file says that `Level` finds the same cubes in the same order.

The two differ in three ways, and each has its reason.

* **Looking up instead of trying.**  Within a cell, the cubes that combine with a given one are
  those that it can be raised to (`isSome_combine_iff_mem_raised`).  Those found are sorted by where
  they stand in the cell, so they come as a walk through the cell would meet them
  (`partners_eq_filter`).  So the pairs of a level are those of the trials that succeed, in their
  order (`Trials.tryAll_ofCubes`).
* **One look for repetitions per level instead of one per cell.**  A combined cube has as many
  counted literals as the first of its pair, so cubes of different cells are different
  (`Tier.insert_ofCubes`).
* **Cells as parts of a list.**  `Level` has no cells but those read off its list of cubes; trying
  keeps both, and they stay in step (`Trials.Shows`).

All of it needs the cubes of a level to be distinct, which they are on every level
(`matches_levelsFrom`).  The order matters further on: among rows of the chart that are equally good
the first is taken.
-/

set_option autoImplicit false

namespace TwoLevel

variable {n : Nat}

/-! ## Trying all pairs -/

/-- The cubes of one level as trying keeps them. -/
structure Tier (n : Nat) where
  /-- The cubes, in the order in which they were found. -/
  cubes : List (Cube n)
  /-- The cubes with each number of counted literals, in the order in which they were found. -/
  cell : Nat → List (Cube n)

/-- What has come of the trials on a level. -/
structure Trials (n : Nat) where
  /-- The cubes found for the next level. -/
  next : Tier n
  /-- The cubes that were combined. -/
  combined : List (Cube n)

namespace Tier

/-- The level without cubes. -/
def empty : Tier n := ⟨[], fun _ ↦ []⟩

/-- The level with the given cubes. -/
def ofCubes (counted : Literal) (cubes : List (Cube n)) : Tier n :=
  ⟨cubes, Level.cell counted cubes⟩

/-- Puts a cube into a cell, unless it is there. -/
def insert (s : Tier n) (k : Nat) (e : Cube n) : Tier n :=
  if e ∈ s.cell k then s
  else ⟨s.cubes ++ [e], Function.update s.cell k (s.cell k ++ [e])⟩

end Tier

/-- Tries to combine a cube of cell `k` with one of the next cell. -/
def Trials.tryPair (t : Trials n) (k : Nat) (c d : Cube n) : Trials n :=
  match c.combine d with
  | none => t
  | some e => ⟨t.next.insert k e, d :: c :: t.combined⟩

namespace Tier

/-- Tries every cube of each cell with every cube of the next cell. -/
def tryAll (s : Tier n) : Trials n :=
  (List.range n).foldl (fun t k ↦
    (s.cell k).foldl (fun t c ↦
      (s.cell (k + 1)).foldl (fun t d ↦ t.tryPair k c d) t) t) ⟨empty, []⟩

/-- The cubes of a level that were not combined. -/
def primes (s : Tier n) : List (Cube n) := s.cubes.filter fun c ↦ decide (c ∉ s.tryAll.combined)

end Tier

/-- The levels from a given one upwards, until one is empty. -/
def tiersFrom : Nat → Tier n → List (Tier n)
  | 0, s => [s]
  | k + 1, s => if s.tryAll.next.cubes = [] then [s] else s :: tiersFrom k s.tryAll.next

namespace Level

open TwoLevel.Cube

/-! ## The order of partners -/

theorem nodup_raised {counted : Literal} (hcounted : counted ≠ .missing) (c : Cube n) :
    (raised counted c).Nodup := by
  rw [raised_eq_map_flip hcounted]
  refine (List.nodup_range.filter _).map_on fun i hi j hj heq ↦ ?_
  have hi : i < n := List.mem_range.1 (List.mem_of_mem_filter hi)
  have hj : j < n := List.mem_range.1 (List.mem_of_mem_filter hj)
  by_contra hij
  have hvalue : (c.flip j).value i = c.value i := value_flip_of_ne hj hij
  rw [← heq] at hvalue
  exact value_flip_self_ne hi hvalue

section

variable {counted : Literal} {cell : List (Cube n)}

/-- In a cell without repetitions a cube has one place, and that is known. -/
theorem getElem?_places_of_mem (h : cell.Nodup) {d : Cube n} (hd : d ∈ cell) :
    (places cell)[d]? = some (cell.idxOf d) := by
  have hkeys : (cell.zipIdx.map Prod.fst).Nodup := by rwa [List.zipIdx_map_fst]
  exact Std.HashMap.getElem?_ofList_of_mem BEq.rfl
    ((List.pairwise_map.1 hkeys).imp fun hne ↦ beq_false_of_ne hne)
    (List.mem_zipIdx_iff_getElem?.2 (List.getElem?_idxOf hd))

/-- The partners are sorted by where they stand in their cell. -/
theorem partners_eq_mergeSort (h : cell.Nodup) (c : Cube n) :
    partners counted (places cell) c =
      ((raised counted c).filter fun d ↦ decide (d ∈ cell)).mergeSort
        fun d e ↦ decide (cell.idxOf d ≤ cell.idxOf e) := by
  have hfound : ((raised counted c).filterMap fun d ↦
        ((places cell)[d]?).map fun place ↦ (place, d)) =
      ((raised counted c).filter fun d ↦ decide (d ∈ cell)).map fun d ↦ (cell.idxOf d, d) := by
    rw [← List.filterMap_eq_map, List.filterMap_filter]
    refine List.filterMap_congr fun d _ ↦ ?_
    by_cases hd : d ∈ cell
    · simp [getElem?_places_of_mem h hd, hd]
    · simpa [hd] using fun hsome ↦ hd (isSome_getElem?_places_iff.1 hsome)
  simp only [partners, hfound]
  rw [← List.map_mergeSort (f := fun d ↦ (cell.idxOf d, d)) fun _ _ _ _ ↦ rfl, List.map_map]
  exact List.map_id _

/-- **The partners of a cube are found in the order of their cell**, as if every cube of the cell
had been looked at. -/
theorem partners_eq_filter (hcounted : counted ≠ .missing) (h : cell.Nodup) (c : Cube n) :
    partners counted (places cell) c = cell.filter fun d ↦ decide (d ∈ raised counted c) := by
  rw [partners_eq_mergeSort h]
  have hplace : cell.Pairwise fun d e ↦ cell.idxOf d ≤ cell.idxOf e := by
    refine List.pairwise_iff_getElem.2 fun i j hi hj hij ↦ ?_
    rw [h.idxOf_getElem i hi, h.idxOf_getElem j hj]
    exact Nat.le_of_lt hij
  refine List.Perm.eq_of_pairwise (fun d e hd _ hle hge ↦ ?_)
    (pairwise_mergeSort_key cell.idxOf _) (hplace.filter _) ?_
  · have hmem := (List.mem_filter.1 (List.mem_mergeSort.1 hd)).2
    exact (List.idxOf_inj (of_decide_eq_true hmem)).1 (Nat.le_antisymm hle hge)
  · refine (List.mergeSort_perm _ _).trans
      ((List.perm_ext_iff_of_nodup ((nodup_raised hcounted c).filter _) (h.filter _)).2 fun d ↦ ?_)
    simp only [List.mem_filter, decide_eq_true_eq, and_comm]

end

/-! ## Trials that succeed -/

variable {counted : Literal} {c d e : Cube n} {k : Nat} {cubes : List (Cube n)}

/-- With a cube of the next cell, a cube combines across a literal that is not counted. -/
theorem ne_counted_of_count_flip (hcounted : counted ≠ .missing) {i : Nat} (hi : i < n)
    (hm : c.value i ≠ .missing) (hcount : (c.flip i).count counted = c.count counted + 1) :
    c.value i ≠ counted := by
  intro hv
  -- turned back, the literal would be counted once more
  have hback := count_flip hi (value_flip_self_ne_missing hi) hcounted
    fun h ↦ value_flip_self_ne hi (h.trans hv.symm)
  rw [flip_flip hi hm] at hback
  omega

/-- A cube of the next cell combines with a cube exactly when that can be raised to it. -/
theorem isSome_combine_iff_mem_raised (hcounted : counted ≠ .missing)
    (hcount : d.count counted = c.count counted + 1) :
    (c.combine d).isSome = true ↔ d ∈ raised counted c := by
  rw [mem_raised_iff hcounted, Option.isSome_iff_exists]
  constructor
  · rintro ⟨e, he⟩
    obtain ⟨i, hi, hm, rfl, _⟩ := combine_eq_some_iff.1 he
    exact ⟨i, hi, hm, ne_counted_of_count_flip hcounted hi hm hcount, rfl⟩
  · rintro ⟨i, hi, hm, _, rfl⟩
    exact ⟨_, combine_eq_some_iff.2 ⟨i, hi, hm, rfl, rfl⟩⟩

/-- What a cube and one of the next cell combine to has as many counted literals as the first. -/
theorem count_of_combine (hcounted : counted ≠ .missing)
    (hcount : d.count counted = c.count counted + 1) (he : c.combine d = some e) :
    e.count counted = c.count counted := by
  obtain ⟨i, hi, hm, rfl, rfl⟩ := combine_eq_some_iff.1 he
  have hne := ne_counted_of_count_flip hcounted hi hm hcount
  refine count_congr fun j _ ↦ ?_
  rw [value_free hi]
  split
  · next hji => exact iff_of_false hcounted.symm (hji ▸ hne)
  · exact Iff.rfl

/-- The pairs of a cell are the trials that succeed. -/
theorem pairsOfCell_eq (hcounted : counted ≠ .missing) (h : cubes.Nodup) (k : Nat) :
    pairsOfCell counted cubes k = (cell counted cubes k).flatMap fun c ↦
      ((cell counted cubes (k + 1)).filter fun d ↦ (c.combine d).isSome).map fun d ↦ (c, d) := by
  refine List.flatMap_congr fun c hc ↦ congrArg (List.map _) ?_
  have hcell : (cell counted cubes (k + 1)).Nodup := h.filter _
  rw [partners_eq_filter hcounted hcell]
  refine List.filter_congr fun d hd ↦ ?_
  have hcount : d.count counted = c.count counted + 1 := by
    rw [(mem_cell_iff.1 hc).2, (mem_cell_iff.1 hd).2]
  rw [Bool.eq_iff_iff, decide_eq_true_iff, isSome_combine_iff_mem_raised hcounted hcount]

/-- The cubes of a pair combine, and stay in the cell of the first. -/
theorem exists_combine_of_mem_pairsOfCell (hcounted : counted ≠ .missing) (h : cubes.Nodup)
    {p : Cube n × Cube n} (hp : p ∈ pairsOfCell counted cubes k) :
    ∃ e, p.1.combine p.2 = some e ∧ e.count counted = k := by
  rw [pairsOfCell_eq hcounted h, List.mem_flatMap] at hp
  obtain ⟨c, hc, hp⟩ := hp
  obtain ⟨d, hd, rfl⟩ := List.mem_map.1 hp
  obtain ⟨hd, hcombine⟩ := List.mem_filter.1 hd
  obtain ⟨e, he⟩ := Option.isSome_iff_exists.1 hcombine
  obtain ⟨_, rfl⟩ := mem_cell_iff.1 hc
  exact ⟨e, he, count_of_combine hcounted (mem_cell_iff.1 hd).2 he⟩

/-- What is found last is last in its cell. -/
theorem cell_concat (counted : Literal) (cubes : List (Cube n)) (e : Cube n) :
    cell counted (cubes ++ [e]) =
      Function.update (cell counted cubes) (e.count counted)
        (cell counted cubes (e.count counted) ++ [e]) := by
  funext k
  by_cases hk : k = e.count counted
  · simp [cell, hk]
  · simp [cell, hk, Ne.symm hk]

end Level

/-- **Looking into one cell is enough**: only there can a cube with its number of counted literals
be. -/
theorem Tier.insert_ofCubes {counted : Literal} {k : Nat} {e : Cube n}
    (hcount : e.count counted = k) (found : List (Cube n)) :
    (ofCubes counted (firsts found)).insert k e = ofCubes counted (firsts (found ++ [e])) := by
  have hmem : e ∈ Level.cell counted (firsts found) k ↔ e ∈ found := by
    rw [Level.mem_cell_iff, and_iff_left hcount, mem_firsts]
  simp only [insert, ofCubes, hmem]
  split
  · next h => rw [firsts_concat_of_mem h]
  · next h => rw [firsts_concat h, Level.cell_concat, hcount]

/-! ## What trials show -/

/-- What has come of some trials is the cubes that the successful ones combine to, each where it is
found first, and the cubes of the pairs. -/
structure Trials.Shows (counted : Literal) (t : Trials n) (pairs : List (Cube n × Cube n)) :
    Prop where
  /-- The cubes are kept where they are found first. -/
  next_eq : t.next = Tier.ofCubes counted (firsts (pairs.filterMap fun p ↦ p.1.combine p.2))
  /-- The cubes of the pairs are marked. -/
  mem_combined_iff : ∀ c, c ∈ t.combined ↔ ∃ p ∈ pairs, c = p.1 ∨ c = p.2

namespace Trials

variable {counted : Literal} {t : Trials n} {pairs : List (Cube n × Cube n)} {k : Nat}
  {c d e : Cube n}

theorem shows_nil (counted : Literal) : Shows counted (⟨Tier.empty, []⟩ : Trials n) [] where
  next_eq := rfl
  mem_combined_iff c := by simp

/-- **The step**: a pair that combines is added. -/
theorem Shows.tryPair (h : t.Shows counted pairs) (he : c.combine d = some e)
    (hcount : e.count counted = k) : (t.tryPair k c d).Shows counted (pairs ++ [(c, d)]) := by
  have htry : t.tryPair k c d = ⟨t.next.insert k e, d :: c :: t.combined⟩ := by
    rw [Trials.tryPair, he]
  rw [htry]
  exact
    { next_eq := by
        rw [h.next_eq, Tier.insert_ofCubes hcount, List.filterMap_append]
        simp [he]
      mem_combined_iff := fun a ↦ by
        simp only [List.mem_cons, List.mem_append, List.not_mem_nil, or_false, or_and_right,
          exists_or, exists_eq_left, h.mem_combined_iff]
        rw [← or_assoc, or_comm, or_comm (a := a = d)] }

/-- **The run**: what comes one after another is added up. -/
theorem Shows.foldl {α : Type} {g : Trials n → α → Trials n} {added : α → List (Cube n × Cube n)}
    {as : List α} (hstep : ∀ a ∈ as, ∀ t pairs, Shows counted t pairs →
      Shows counted (g t a) (pairs ++ added a)) (h : t.Shows counted pairs) :
    (as.foldl g t).Shows counted (pairs ++ as.flatMap added) := by
  induction as generalizing t pairs with
  | nil => simpa using h
  | cons a as ih =>
    rw [List.foldl_cons, List.flatMap_cons, ← List.append_assoc]
    exact ih (fun b hb ↦ hstep b (List.mem_cons_of_mem _ hb)) (hstep a List.mem_cons_self _ _ h)

/-- Trials with all of the next cell come to those that succeed. -/
theorem foldl_tryPair_filter (t : Trials n) (k : Nat) (c : Cube n) (ds : List (Cube n)) :
    ds.foldl (fun t d ↦ t.tryPair k c d) t =
      (ds.filter fun d ↦ (c.combine d).isSome).foldl (fun t d ↦ t.tryPair k c d) t := by
  rw [List.foldl_filter]
  congr
  funext t d
  cases he : c.combine d with
  | none => simp [tryPair, he]
  | some e => simp

/-- Trying all pairs of a level comes to going through its pairs. -/
theorem tryAll_ofCubes (hcounted : counted ≠ .missing) {cubes : List (Cube n)} (h : cubes.Nodup) :
    (Tier.ofCubes counted cubes).tryAll =
      (List.range n).foldl (fun t k ↦
        (Level.pairsOfCell counted cubes k).foldl (fun t p ↦ t.tryPair k p.1 p.2) t)
        ⟨Tier.empty, []⟩ := by
  rw [Tier.tryAll]
  congr
  funext t k
  rw [Level.pairsOfCell_eq hcounted h, List.foldl_flatMap]
  congr
  funext t c
  rw [foldl_tryPair_filter, List.foldl_map]
  rfl

/-- **Trying all pairs of a level shows its pairs.** -/
theorem shows_tryAll (hcounted : counted ≠ .missing) {cubes : List (Cube n)} (h : cubes.Nodup) :
    (Tier.ofCubes counted cubes).tryAll.Shows counted (Level.ofCubes counted cubes).pairs := by
  rw [tryAll_ofCubes hcounted h]
  refine Shows.foldl (fun k _ t pairs ht ↦ ?_) (shows_nil counted)
  have hcell : ∀ p ∈ Level.pairsOfCell counted cubes k, ∀ t pairs, Shows counted t pairs →
      (t.tryPair k p.1 p.2).Shows counted (pairs ++ [p]) := by
    intro p hp t pairs ht
    obtain ⟨e, he, hcount⟩ := Level.exists_combine_of_mem_pairsOfCell hcounted h hp
    exact ht.tryPair he hcount
  simpa only [List.flatMap_singleton'] using ht.foldl hcell

end Trials

/-! ## The levels -/

/-- The table of implicants and the trials have the same cubes on a level, in the same order in each
cell, they mark the same ones as combined, and they find the same for the next level. -/
structure Level.Matches (counted : Literal) (level : Level n) (s : Tier n) : Prop where
  /-- The cubes are the same and in the same order. -/
  cubes_eq : level.cubes = s.cubes
  /-- Each cell has the same cubes in the same order. -/
  cell_eq : ∀ k, Level.cell counted level.cubes k = s.cell k
  /-- The same cubes are combined. -/
  mem_combined_iff : ∀ c, c ∈ level.combined ↔ c ∈ s.tryAll.combined
  /-- The next level gets the same cubes in the same order. -/
  next_eq : level.next = s.tryAll.next.cubes
  /-- Each cell of the next level gets the same cubes in the same order. -/
  next_cell_eq : ∀ k, Level.cell counted level.next k = s.tryAll.next.cell k

variable {counted : Literal} {cubes : List (Cube n)}

theorem Level.mem_combined_iff_exists_pair {level : Level n} {c : Cube n} :
    c ∈ level.combined ↔ ∃ p ∈ level.pairs, c = p.1 ∨ c = p.2 := by
  simp [combined, Std.HashSet.mem_ofList]

/-- What trying finds for the next level. -/
theorem Tier.next_tryAll_ofCubes (hcounted : counted ≠ .missing) (h : cubes.Nodup) :
    (Tier.ofCubes counted cubes).tryAll.next =
      Tier.ofCubes counted (Level.ofCubes counted cubes).next :=
  (Trials.shows_tryAll hcounted h).next_eq

/-- **Looking partners up does for a level what trying all pairs does.** -/
theorem Level.matches_ofCubes (hcounted : counted ≠ .missing) (h : cubes.Nodup) :
    (Level.ofCubes counted cubes).Matches counted (Tier.ofCubes counted cubes) where
  cubes_eq := rfl
  cell_eq _ := rfl
  mem_combined_iff c := by
    rw [mem_combined_iff_exists_pair, (Trials.shows_tryAll hcounted h).mem_combined_iff]
  next_eq := by rw [Tier.next_tryAll_ofCubes hcounted h, Tier.ofCubes]
  next_cell_eq k := by rw [Tier.next_tryAll_ofCubes hcounted h, Tier.ofCubes]

/-- What was not combined is the same. -/
theorem Level.Matches.primes_eq {level : Level n} {s : Tier n} (h : level.Matches counted s) :
    level.primes = s.primes := by
  rw [Level.primes, Tier.primes, h.cubes_eq]
  refine List.filter_congr fun c _ ↦ ?_
  rw [Bool.eq_iff_iff, decide_eq_true_iff, ← h.mem_combined_iff, Bool.not_eq_true',
    ← Bool.not_eq_true, ← Std.HashSet.mem_iff_contains]

/-- **Level by level, looking partners up does what trying all pairs does.** -/
theorem matches_levelsFrom (hcounted : counted ≠ .missing) (k : Nat) (h : cubes.Nodup) :
    List.Forall₂ (Level.Matches counted) (levelsFrom counted k cubes)
      (tiersFrom k (Tier.ofCubes counted cubes)) := by
  have hmatches := Level.matches_ofCubes hcounted h
  induction k generalizing cubes with
  | zero => exact .cons hmatches .nil
  | succ k ih =>
    rw [levelsFrom, tiersFrom, ← hmatches.next_eq, Tier.next_tryAll_ofCubes hcounted h]
    have hnext : (Level.ofCubes counted cubes).next.Nodup := nodup_firsts _
    split
    · next hnil => rw [if_pos hnil]; exact .cons hmatches .nil
    · next hne =>
      rw [if_neg hne]
      exact .cons hmatches (ih hnext (Level.matches_ofCubes hcounted hnext))

theorem primesOf_eq_of_matches {levels : List (Level n)} {tiers : List (Tier n)}
    (h : List.Forall₂ (Level.Matches counted) levels tiers) :
    primesOf levels = tiers.flatMap Tier.primes := by
  induction h with
  | nil => rfl
  | cons h _ ih => rw [primesOf, List.flatMap_cons, List.flatMap_cons, h.primes_eq, ← ih, primesOf]

namespace QuineMcCluskey

/-- The levels of implicants of a formula, found by trying. -/
def tiers (f : Formula n) : List (Tier n) :=
  tiersFrom n (Tier.ofCubes f.form.countedLiteral
    ((sortPoints (f.store.expandedTerms ++ f.store.expandedDontCares)).map Cube.minterm))

/-- **Looking partners up finds what trying all pairs finds**: level by level the same cubes in the
same order, the same ones combined, the same prime implicants in the same order, and with them the
answer. -/
theorem matches_tiers (f : Formula n) :
    List.Forall₂ (Level.Matches f.form.countedLiteral) (levels f) (tiers f) ∧
      primes f = (tiers f).flatMap Tier.primes ∧
      ∀ debug, (minimize f debug).minimized =
        f.minimizedTo
          (Chart.cover ((tiers f).flatMap Tier.primes) f.store.expandedTerms) := by
  have hmatches : List.Forall₂ (Level.Matches f.form.countedLiteral) (levels f) (tiers f) :=
    matches_levelsFrom f.form.countedLiteral_ne_missing n (isLayer_points f).nodup
  have hprimes : primes f = (tiers f).flatMap Tier.primes := primesOf_eq_of_matches hmatches
  refine ⟨hmatches, hprimes, fun debug ↦ ?_⟩
  rw [← hprimes, minimized_minimize_eq_cover]

end QuineMcCluskey

end TwoLevel
