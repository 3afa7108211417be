import TwoLevel.Term.Covered
import TwoLevel.Proofs.Cube.Prime

/-!
# Terms are totally ordered

`Term.compare` reads off a term's least index and its missing positions how its list of covered
indices compares with another's (`compare_eq_compare_covered`).  Lists of numbers are totally
ordered, and so are sizes, so terms are too as soon as list and size together determine a term.
They do: cubes of one size with the same points contain each other (`eq_of_covered_eq`).

* **Lists only where they are needed.**  A term without missing positions covers the one index it
  has, and comparing two such terms needs no lists.  `compareListed` is the comparison in that way.
  Which of its two cases applies depends on both terms, so it might order three terms in a circle;
  but the list of an explicit term is its index alone, and the cases say the same
  (`compareListed_eq`).
* **Sorting.**  In a total order the increasing arrangement of a list is unique (`eq_sort_iff`),
  however the list is sorted.  Minterms, for one, are sorted as their points are
  (`sort_map_ofPoint`).
-/

set_option autoImplicit false

namespace TwoLevel.Term

variable {a b : Term}

/-! ## Covered indices -/

/-- The listed indices are those of the covered points. -/
theorem mem_covered {t : Term} {index : Nat} :
    index ∈ t.covered ↔ ∃ x, t.cube.covers x = true ∧ x.toNat = index := by
  rw [covered, List.mem_map]
  simp only [mem_sortPoints, Cube.mem_points]

theorem toNat_mem_covered {t : Term} {x : BitVec t.size} :
    x.toNat ∈ t.covered ↔ t.cube.covers x = true := by
  rw [mem_covered]
  refine ⟨?_, fun hx ↦ ⟨x, hx, rfl⟩⟩
  rintro ⟨y, hy, hyx⟩
  exact BitVec.eq_of_toNat_eq hyx ▸ hy

/-- **A term is determined by the indices it covers and its size.** -/
theorem eq_of_covered_eq (hsize : a.size = b.size) (h : a.covered = b.covered) : a = b := by
  obtain ⟨n, c⟩ := a
  obtain ⟨m, d⟩ := b
  obtain rfl : n = m := hsize
  refine congrArg (Term.mk n) (Cube.ext_covers fun x ↦ ?_)
  rw [← toNat_mem_covered (t := ⟨n, c⟩), h, toNat_mem_covered]

/-- An explicit term covers its index alone. -/
theorem covered_of_index? {t : Term} {x : BitVec t.size} (h : t.cube.index? = some x) :
    t.covered = [x.toNat] := by
  obtain ⟨hmissing, hliterals⟩ := Option.ite_none_right_eq_some.1 h
  obtain rfl : t.cube.literals = x := Option.some.inj hliterals
  rw [covered_eq_coveredFrom, missingPositions, Mask.positions_eq_nil_iff.2 hmissing]
  rfl

/-! ## Comparing by index where that is enough -/

/-- Compares terms without missing positions by their indices, and others by their lists of covered
indices; after that, all by size. -/
def compareListed (a b : Term) : Ordering :=
  (match a.cube.index?, b.cube.index? with
    | some x, some y => Ord.compare x.toNat y.toNat
    | _, _ => Ord.compare a.covered b.covered).then (Ord.compare a.size b.size)

/-- **The two cases are one comparison.** -/
theorem compareListed_eq (a b : Term) : compareListed a b = compare a b := by
  rw [compare_eq_compare_covered, compareListed]
  split
  · next x y ha hb =>
    rw [covered_of_index? ha, covered_of_index? hb, List.compare_cons_cons, List.compare_nil_nil,
      Ordering.then_eq]
  · rfl

/-! ## A total order -/

theorem compare_eq_compareLex : compare = compareLex (compareOn covered) (compareOn size) :=
  funext fun a ↦ funext fun b ↦ compare_eq_compare_covered a b

/-- Terms are compared consistently, since lists and sizes are. -/
instance : Std.TransCmp compare := by
  rw [compare_eq_compareLex]
  infer_instance

/-- Only equal terms compare as equal. -/
instance : Std.LawfulEqCmp compare where
  compare_self := Std.ReflCmp.compare_self
  eq_of_compare h := by
    rw [compare_eq_compare_covered, Ordering.then_eq_eq] at h
    exact eq_of_covered_eq (Std.LawfulEqCmp.eq_of_compare h.2) (Std.LawfulEqCmp.eq_of_compare h.1)

/-- Of two terms one comes first, or they are equal. -/
theorem isLE_total (a b : Term) : (compare a b).isLE = true ∨ (compare b a).isLE = true := by
  have hswap : compare b a = (compare a b).swap := Std.OrientedCmp.eq_swap
  rw [hswap]
  cases compare a b <;> decide

/-- Only equal terms come before each other. -/
theorem eq_of_isLE (hab : (compare a b).isLE = true) (hba : (compare b a).isLE = true) : a = b :=
  Std.LawfulEqCmp.eq_of_compare (Std.OrientedCmp.isLE_antisymm hab hba)

/-! ## Sorting -/

/-- The terms stand in increasing order. -/
def IsSorted (ts : List Term) : Prop := ts.Pairwise fun a b ↦ (compare a b).isLE = true

theorem isSorted_sort (ts : List Term) : IsSorted (sort ts) := by
  refine List.pairwise_mergeSort (fun a b c hab hbc ↦ ?_) (fun a b ↦ ?_) ts
  · exact Std.TransCmp.isLE_trans hab hbc
  · rw [Bool.or_eq_true]
    exact isLE_total a b

/-- **A list has one increasing arrangement**, and sorting finds it. -/
theorem eq_sort_iff {ts us : List Term} : us = sort ts ↔ us.Perm ts ∧ IsSorted us := by
  refine ⟨?_, fun ⟨hperm, hsorted⟩ ↦ ?_⟩
  · rintro rfl
    exact ⟨List.mergeSort_perm ts _, isSorted_sort ts⟩
  · have hsort : us.Perm (sort ts) := hperm.trans (List.mergeSort_perm ts _).symm
    exact hsort.eq_of_pairwise (fun _ _ _ _ ↦ eq_of_isLE) hsorted (isSorted_sort ts)

/-- The term that covers one point. -/
def ofPoint {n : Nat} (x : BitVec n) : Term := ⟨n, Cube.minterm x⟩

theorem compare_ofPoint {n : Nat} (x y : BitVec n) :
    compare (ofPoint x) (ofPoint y) = Ord.compare x.toNat y.toNat := by
  have hindex : ∀ z : BitVec n, (ofPoint z).cube.index? = some z := fun _ ↦ if_pos rfl
  rw [← compareListed_eq, compareListed, hindex, hindex]
  simp [ofPoint]

/-- Different points are sorted by their indices. -/
theorem sort_map_ofPoint {n : Nat} {xs : List (BitVec n)} (h : xs.Nodup) :
    sort (xs.map ofPoint) = (sortPoints xs).map ofPoint := by
  have hincreasing := sortPoints_increasing xs
  have hperm : (sortPoints xs).Perm xs :=
    (List.perm_ext_iff_of_nodup (nodup_of_increasing hincreasing) h).2 fun _ ↦ mem_sortPoints
  have hsorted : IsSorted ((sortPoints xs).map ofPoint) := by
    refine List.pairwise_map.2 (hincreasing.imp fun hlt ↦ ?_)
    rw [compare_ofPoint, Nat.compare_eq_lt.2 hlt]
    rfl
  exact (eq_sort_iff.2 ⟨hperm.map ofPoint, hsorted⟩).symm

/-! ## What the order can be relied on for -/

/-- A comparison of terms, and a way of sorting them, that follow the covered indices. -/
structure IsIndexOrder (cmp : Term → Term → Ordering) (sort : List Term → List Term) : Prop where
  /-- The indices that a term covers are listed in increasing order. -/
  covered_increasing : ∀ t : Term, t.covered.Pairwise (· < ·)
  /-- None is left out, and no other is listed. -/
  mem_covered_iff : ∀ (t : Term) (index : Nat),
    index ∈ t.covered ↔ ∃ x, t.cube.covers x = true ∧ x.toNat = index
  /-- The lists are compared index by index, and terms with the same list by size. -/
  eq_lexicographic : ∀ a b,
    cmp a b = (Ord.compare a.covered b.covered).then (Ord.compare a.size b.size)
  /-- No list is needed to compare terms without missing positions. -/
  eq_listed : ∀ a b, cmp a b = compareListed a b
  /-- The other way round the answer is the opposite one. -/
  swap : ∀ a b, cmp b a = (cmp a b).swap
  /-- What comes before what comes before a term comes before the term. -/
  trans : ∀ a b c, (cmp a b).isLE = true → (cmp b c).isLE = true → (cmp a c).isLE = true
  /-- Any two terms can be compared. -/
  total : ∀ a b, (cmp a b).isLE = true ∨ (cmp b a).isLE = true
  /-- Terms that come before each other are equal. -/
  antisymm : ∀ a b, (cmp a b).isLE = true → (cmp b a).isLE = true → a = b
  /-- Only equal terms compare as equal. -/
  eq_iff : ∀ a b, cmp a b = .eq ↔ a = b
  /-- What is sorted is rearranged so that no term comes before an earlier one, and there is only
  one such arrangement. -/
  sort_iff : ∀ ts us,
    us = sort ts ↔ us.Perm ts ∧ us.Pairwise fun a b ↦ (cmp a b).isLE = true
  /-- Different points are sorted by their indices. -/
  sort_points : ∀ {n : Nat} {xs : List (BitVec n)}, xs.Nodup →
    sort (xs.map ofPoint) = (sortPoints xs).map ofPoint

/-- **Terms are totally ordered by their covered indices and then by their sizes**, terms of all
sizes, with and without missing positions; so sorting a list of terms leaves no choice. -/
theorem compare_isIndexOrder : IsIndexOrder compare sort where
  covered_increasing := covered_increasing
  mem_covered_iff _ _ := mem_covered
  eq_lexicographic := compare_eq_compare_covered
  eq_listed a b := (compareListed_eq a b).symm
  swap _ _ := Std.OrientedCmp.eq_swap
  trans _ _ _ := Std.TransCmp.isLE_trans
  total := isLE_total
  antisymm _ _ := eq_of_isLE
  eq_iff _ _ := Std.LawfulEqCmp.compare_eq_iff_eq
  sort_iff _ _ := eq_sort_iff
  sort_points := sort_map_ofPoint

-- The term `-0` covers the indices 0 and 2, so it comes after `0-`, which covers 0 and 1, and
-- before the term `1` of one position.
example :
    compare ⟨2, Cube.ofMasks 0#2 1#2⟩ ⟨2, Cube.ofMasks 0#2 2#2⟩ = .lt ∧
      compare ⟨2, Cube.ofMasks 0#2 2#2⟩ ⟨1, Cube.minterm 1#1⟩ = .lt := by
  decide

end TwoLevel.Term
