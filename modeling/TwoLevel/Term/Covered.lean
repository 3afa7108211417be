import TwoLevel.Term.Order

/-!
# The covered indices of a term

`Term.covered` lists the indices a term covers in increasing order.  It is made by sorting the
points of the cube, and is what the order of terms is about.

`coveredFrom` makes the same list without sorting (`covered_eq_coveredFrom`): every index over the
higher missing positions is followed by the one that has the lowest position as well.  In this form
two lists can be compared by looking at where they first differ, and the outcome is that of
comparing least indices and then missing positions (`compare_coveredFrom`).

The main statement is `compare_eq_compare_covered`: `Term.compare` compares the lists of covered
indices, and after them the sizes.
-/

set_option autoImplicit false

namespace TwoLevel.Term

/-- The indices a term covers, in increasing order. -/
def covered (t : Term) : List Nat := (sortPoints t.cube.points).map BitVec.toNat

/-- The indices that agree with `x` outside the given positions, where `x` has zeros; in increasing
order if the positions are. -/
def coveredFrom : List Nat → Nat → List Nat
  | [], x => [x]
  | p :: ps, x => (coveredFrom ps x).flatMap fun y ↦ [y, y + numPoints p]

/-! ## It is the list of covered indices -/

theorem map_add_coveredFrom (c : Nat) (ps : List Nat) (x : Nat) :
    (coveredFrom ps x).map (· + c) = coveredFrom ps (x + c) := by
  induction ps generalizing x with
  | nil => rfl
  | cons p ps ih =>
    rw [coveredFrom, coveredFrom, ← ih, List.map_flatMap, List.flatMap_map]
    congr 1
    funext y
    simp only [List.map_cons, List.map_nil, List.cons.injEq, and_true, true_and]
    omega

/-- Putting something after each member only interleaves two lists. -/
theorem flatMap_pair_perm (c : Nat) (xs : List Nat) :
    (xs.flatMap fun y ↦ [y, y + c]).Perm (xs ++ xs.map (· + c)) := by
  induction xs with
  | nil => exact List.Perm.nil
  | cons x xs ih =>
    rw [List.flatMap_cons, List.map_cons, List.cons_append, List.cons_append, List.cons_append,
      List.nil_append]
    exact ((ih.cons _).trans List.perm_middle.symm).cons _

/-- At a position where a point has a zero, setting it adds the weight of the position. -/
theorem toNat_or_bit {n : Nat} {x : BitVec n} {i : Nat} (hi : i < n) (hx : x.getLsbD i = false) :
    (x ||| Mask.bit i).toNat = x.toNat + numPoints i := by
  have h : x &&& Mask.bit i = 0#n := by
    apply BitVec.eq_of_getLsbD_eq
    intro j _
    by_cases hij : i = j
    · subst hij; simp [hx]
    · simp [hij]
  rw [← BitVec.add_eq_or_of_and_eq_zero _ _ h, BitVec.toNat_add_of_and_eq_zero h, Mask.bit,
    BitVec.toNat_twoPow_of_lt hi]
  rfl

theorem map_toNat_pointsFrom_perm {n : Nat} {is : List Nat} {x : BitVec n} (hn : ∀ i ∈ is, i < n)
    (hx : ∀ i ∈ is, x.getLsbD i = false) (hd : is.Nodup) :
    ((Cube.pointsFrom is x).map BitVec.toNat).Perm (coveredFrom is x.toNat) := by
  induction is generalizing x with
  | nil => exact List.Perm.refl _
  | cons i is ih =>
    obtain ⟨hni, hdi⟩ := List.nodup_cons.1 hd
    have hlt : ∀ j ∈ is, j < n := fun j hj ↦ hn j (List.mem_cons_of_mem _ hj)
    have hzero : ∀ j ∈ is, x.getLsbD j = false := fun j hj ↦ hx j (List.mem_cons_of_mem _ hj)
    have hset : ∀ j ∈ is, (x ||| Mask.bit i).getLsbD j = false := by
      intro j hj
      have hij : i ≠ j := fun h ↦ hni (h ▸ hj)
      simp [hzero j hj, hij]
    have hsum := toNat_or_bit (hn i List.mem_cons_self) (hx i List.mem_cons_self)
    rw [Cube.pointsFrom, List.map_append, coveredFrom]
    refine List.Perm.trans ?_ (flatMap_pair_perm _ _).symm
    rw [map_add_coveredFrom, ← hsum]
    exact (ih hlt hzero hdi).append (ih hlt hset hdi)

/-- The indices lie at least as far apart as the weight of any position below the missing ones. -/
theorem coveredFrom_spread {ps : List Nat} (hinc : ps.Pairwise (· < ·)) (x k : Nat)
    (hk : ∀ p ∈ ps, k ≤ p) : (coveredFrom ps x).Pairwise fun y z ↦ y + numPoints k ≤ z := by
  induction ps generalizing k with
  | nil => exact List.pairwise_singleton _ _
  | cons p ps ih =>
    obtain ⟨hp, hps⟩ := List.pairwise_cons.1 hinc
    have hkp : numPoints k ≤ numPoints p :=
      Nat.pow_le_pow_right (by decide) (hk p List.mem_cons_self)
    rw [coveredFrom, List.pairwise_flatMap]
    refine ⟨fun y _ ↦ ?_, (ih hps (p + 1) hp).imp fun {y z} hyz u hu v hv ↦ ?_⟩
    · rw [List.pairwise_pair]
      omega
    · rw [numPoints_succ] at hyz
      simp only [List.mem_cons, List.not_mem_nil, or_false] at hu hv
      rcases hu with rfl | rfl <;> rcases hv with rfl | rfl <;> omega

theorem coveredFrom_increasing {ps : List Nat} (hinc : ps.Pairwise (· < ·)) (x : Nat) :
    (coveredFrom ps x).Pairwise (· < ·) :=
  (coveredFrom_spread hinc x 0 fun _ _ ↦ Nat.zero_le _).imp fun {_ _} h ↦ h

theorem covered_increasing (t : Term) : t.covered.Pairwise (· < ·) :=
  List.pairwise_map.2 (sortPoints_increasing _)

/-- Made by setting positions, the list has the points of the cube in another order. -/
theorem map_toNat_points_perm (t : Term) : (t.cube.points.map BitVec.toNat).Perm
    (coveredFrom t.missingPositions t.leastIndex) := by
  refine map_toNat_pointsFrom_perm (fun i hi ↦ ?_) (fun i hi ↦ ?_) (Mask.positions_nodup _)
  · exact BitVec.lt_of_getLsbD (Mask.mem_positions.1 hi)
  · exact Cube.literals_eq_false (Mask.mem_positions.1 hi)

theorem coveredFrom_missingPositions_increasing (t : Term) :
    (coveredFrom t.missingPositions t.leastIndex).Pairwise (· < ·) :=
  coveredFrom_increasing (Mask.positions_increasing t.cube.missing) _

/-- Each point of a cube is listed once. -/
theorem nodup_points (t : Term) : t.cube.points.Nodup := by
  have hnodup := (coveredFrom_missingPositions_increasing t).imp Nat.ne_of_lt
  refine List.Pairwise.of_map BitVec.toNat (fun x y hne heq ↦ ?_)
    ((map_toNat_points_perm t).nodup_iff.2 hnodup)
  exact hne (congrArg BitVec.toNat heq)

/-- The covered indices, without sorting. -/
theorem covered_eq_coveredFrom (t : Term) :
    t.covered = coveredFrom t.missingPositions t.leastIndex := by
  have hperm := map_toNat_points_perm t
  have hcov := covered_increasing t
  have hfrom := coveredFrom_missingPositions_increasing t
  refine List.Perm.eq_of_pairwise (fun a b _ _ hab hba ↦ absurd hab (Nat.lt_asymm hba)) hcov hfrom
    ?_
  refine (List.perm_ext_iff_of_nodup (hcov.imp Nat.ne_of_lt) (hfrom.imp Nat.ne_of_lt)).2 fun i ↦ ?_
  rw [← hperm.mem_iff, covered]
  simp only [List.mem_map, mem_sortPoints]

/-! ## Comparing the lists -/

/-- Putting something after each member, in the same way on both sides, changes no comparison. -/
theorem compare_flatMap_pair (c : Nat) (xs ys : List Nat) :
    Ord.compare (xs.flatMap fun y ↦ [y, y + c]) (ys.flatMap fun y ↦ [y, y + c])
      = Ord.compare xs ys := by
  induction xs generalizing ys with
  | nil =>
    cases ys with
    | nil => rfl
    | cons y ys => rfl
  | cons x xs ih =>
    cases ys with
    | nil => rfl
    | cons y ys =>
      simp only [List.flatMap_cons, List.cons_append, List.nil_append, List.compare_cons_cons, ih]
      by_cases hxy : x = y
      · subst hxy
        simp
      · have hne : Ord.compare x y ≠ .eq := fun h ↦ hxy (Nat.compare_eq_eq.1 h)
        cases hc : Ord.compare x y <;> simp_all

/-- The list starts with the index it is made from. -/
theorem coveredFrom_eq_cons (ps : List Nat) (x : Nat) :
    ∃ rest, coveredFrom ps x = x :: rest := by
  induction ps with
  | nil => exact ⟨[], rfl⟩
  | cons p ps ih =>
    obtain ⟨rest, h⟩ := ih
    exact ⟨_, by rw [coveredFrom, h, List.flatMap_cons, List.cons_append]⟩

/-- The second index has the lowest position set. -/
theorem coveredFrom_cons_eq (p : Nat) (ps : List Nat) (x : Nat) :
    ∃ rest, coveredFrom (p :: ps) x = x :: (x + numPoints p) :: rest := by
  obtain ⟨rest, h⟩ := coveredFrom_eq_cons ps x
  exact ⟨_, by rw [coveredFrom, h, List.flatMap_cons, List.cons_append, List.cons_append,
    List.nil_append]⟩

theorem numPoints_lt {p q : Nat} (h : p < q) : numPoints p < numPoints q :=
  Nat.pow_lt_pow_right (by decide) h

theorem compare_add_numPoints (x p q : Nat) :
    Ord.compare (x + numPoints p) (x + numPoints q) = Ord.compare p q := by
  rcases Nat.lt_trichotomy p q with h | h | h
  · rw [Nat.compare_eq_lt.2 h, Nat.compare_eq_lt.2 (Nat.add_lt_add_left (numPoints_lt h) x)]
  · rw [h]; simp
  · rw [Nat.compare_eq_gt.2 h, Nat.compare_eq_gt.2 (Nat.add_lt_add_left (numPoints_lt h) x)]

/-- From one index, lists compare as the positions they are made with. -/
theorem compare_coveredFrom_self (ps qs : List Nat) (x : Nat) :
    Ord.compare (coveredFrom ps x) (coveredFrom qs x) = Ord.compare ps qs := by
  induction ps generalizing qs with
  | nil =>
    cases qs with
    | nil => simp
    | cons q qs =>
      obtain ⟨rest, h⟩ := coveredFrom_cons_eq q qs x
      rw [h, coveredFrom, List.compare_cons_cons]
      simp
  | cons p ps ih =>
    cases qs with
    | nil =>
      obtain ⟨rest, h⟩ := coveredFrom_cons_eq p ps x
      rw [h, coveredFrom, List.compare_cons_cons]
      simp
    | cons q qs =>
      by_cases hpq : p = q
      · subst hpq
        rw [coveredFrom, coveredFrom, compare_flatMap_pair, ih, List.compare_cons_cons]
        simp
      · obtain ⟨ps', hp⟩ := coveredFrom_cons_eq p ps x
        obtain ⟨qs', hq⟩ := coveredFrom_cons_eq q qs x
        have hne : Ord.compare p q ≠ .eq := fun h ↦ hpq (Nat.compare_eq_eq.1 h)
        rw [hp, hq, List.compare_cons_cons, List.compare_cons_cons, List.compare_cons_cons,
          compare_add_numPoints]
        cases hc : Ord.compare p q <;> simp_all

theorem compare_coveredFrom (ps qs : List Nat) (x y : Nat) :
    Ord.compare (coveredFrom ps x) (coveredFrom qs y)
      = (Ord.compare x y).then (Ord.compare ps qs) := by
  by_cases hxy : x = y
  · subst hxy
    rw [compare_coveredFrom_self]
    simp
  · obtain ⟨ps', hp⟩ := coveredFrom_eq_cons ps x
    obtain ⟨qs', hq⟩ := coveredFrom_eq_cons qs y
    have hne : Ord.compare x y ≠ .eq := fun h ↦ hxy (Nat.compare_eq_eq.1 h)
    rw [hp, hq, List.compare_cons_cons]
    cases hc : Ord.compare x y <;> simp_all

/-- **Terms compare as their lists of covered indices**, and where those are the same by size. -/
theorem compare_eq_compare_covered (a b : Term) :
    a.compare b = (Ord.compare a.covered b.covered).then (Ord.compare a.size b.size) := by
  rw [covered_eq_coveredFrom, covered_eq_coveredFrom, compare_coveredFrom, Ordering.then_assoc,
    compare]

end TwoLevel.Term
