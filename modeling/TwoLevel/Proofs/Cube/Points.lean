import TwoLevel.Cube.Points
import TwoLevel.Cover.Basic

/-!
# The listed points are the covered ones

`Cube.points` and `sortedPoints` list points; everything that is said about a function is said with
`covers`.  `Cube.mem_points` and `mem_sortedPoints` are the way from the one to the other, and no
proof after this file looks at how the points of a cube are listed.

A strictly increasing list is determined by its members (`eq_of_increasing`), so two lists of points
made in different ways are compared by comparing members.
-/

set_option autoImplicit false

namespace TwoLevel

variable {n : Nat}

namespace Cube

/-! ## One cube -/

theorem getLsbD_or_bit_of_ne (x : BitVec n) {i j : Nat} (h : j ≠ i) :
    (x ||| Mask.bit i).getLsbD j = x.getLsbD j := by
  rw [BitVec.getLsbD_or, Mask.getLsbD_bit, decide_eq_false (Ne.symm h), Bool.and_false,
    Bool.or_false]

/-- Whether a point agrees with `x` outside some positions is decided, for one more position at
which `x` is zero, by whether it agrees with `x` or with `x` set there. -/
theorem agree_outside_cons_iff {is : List Nat} {i : Nat} {x y : BitVec n} (hi : i < n)
    (hx : x.getLsbD i = false) :
    (∀ j, j < n → j ∉ i :: is → y.getLsbD j = x.getLsbD j) ↔
      (∀ j, j < n → j ∉ is → y.getLsbD j = x.getLsbD j) ∨
      (∀ j, j < n → j ∉ is → y.getLsbD j = (x ||| Mask.bit i).getLsbD j) := by
  refine ⟨fun h ↦ ?_, ?_⟩
  · have hrest : ∀ j, j < n → j ∉ is → j ≠ i → y.getLsbD j = x.getLsbD j := by
      intro j hj hjn hji
      refine h j hj fun hmem ↦ ?_
      rcases List.mem_cons.1 hmem with rfl | hmem
      · exact hji rfl
      · exact hjn hmem
    cases hy : y.getLsbD i with
    | false =>
      refine Or.inl fun j hj hjn ↦ ?_
      by_cases hji : j = i
      · rw [hji, hy, hx]
      · exact hrest j hj hjn hji
    | true =>
      refine Or.inr fun j hj hjn ↦ ?_
      by_cases hji : j = i
      · rw [hji, hy]
        simp [hi]
      · rw [getLsbD_or_bit_of_ne x hji, hrest j hj hjn hji]
  · rintro (h | h) j hj hjn
    · exact h j hj fun hmem ↦ hjn (List.mem_cons_of_mem _ hmem)
    · rw [h j hj fun hmem ↦ hjn (List.mem_cons_of_mem _ hmem), getLsbD_or_bit_of_ne]
      rintro rfl
      exact hjn List.mem_cons_self

/-- Where `x` has zeros at the given positions, the points made from it are those that agree with it
everywhere else. -/
theorem mem_pointsFrom {is : List Nat} {x y : BitVec n} (hlt : ∀ i ∈ is, i < n)
    (hzero : ∀ i ∈ is, x.getLsbD i = false) (hd : is.Nodup) :
    y ∈ pointsFrom is x ↔ ∀ j, j < n → j ∉ is → y.getLsbD j = x.getLsbD j := by
  induction is generalizing x with
  | nil =>
    rw [pointsFrom, List.mem_singleton]
    refine ⟨?_, fun h ↦ ?_⟩
    · rintro rfl j _ _
      rfl
    · exact BitVec.eq_of_getLsbD_eq fun j hj ↦ h j hj List.not_mem_nil
  | cons i is ih =>
    obtain ⟨hi, hd⟩ := List.nodup_cons.1 hd
    have hlt' : ∀ j ∈ is, j < n := fun j hj ↦ hlt j (List.mem_cons_of_mem _ hj)
    have hzero' : ∀ j ∈ is, x.getLsbD j = false := fun j hj ↦ hzero j (List.mem_cons_of_mem _ hj)
    have hset : ∀ j ∈ is, (x ||| Mask.bit i).getLsbD j = false := by
      intro j hj
      have hji : j ≠ i := fun h ↦ hi (h ▸ hj)
      rw [getLsbD_or_bit_of_ne x hji, hzero' j hj]
    rw [pointsFrom, List.mem_append, ih hlt' hzero' hd, ih hlt' hset hd]
    exact (agree_outside_cons_iff (hlt i List.mem_cons_self) (hzero i List.mem_cons_self)).symm

/-- The listed points of a cube are the ones it covers. -/
@[simp]
theorem mem_points {c : Cube n} {x : BitVec n} : x ∈ c.points ↔ c.covers x = true := by
  rw [points, covers_iff, mem_pointsFrom]
  · refine ⟨fun h i hi hm ↦ ?_, fun h i hi hm ↦ ?_⟩
    · exact (h i hi fun hmem ↦ by simp [Mask.mem_positions.1 hmem] at hm).symm
    · refine (h i hi ?_).symm
      cases hmi : c.missing.getLsbD i with
      | false => rfl
      | true => exact absurd (Mask.mem_positions.2 hmi) hm
  · exact fun i hi ↦ BitVec.lt_of_getLsbD (Mask.mem_positions.1 hi)
  · exact fun i hi ↦ literals_eq_false (Mask.mem_positions.1 hi)
  · exact Mask.positions_nodup _

/-- The point whose ones are the cube's ones is covered. -/
theorem covers_literals (c : Cube n) : c.covers c.literals = true :=
  covers_iff.2 fun _ _ _ ↦ rfl

/-- **Cubes do not meet exactly when they have no point in common.** -/
theorem inter_eq_none_iff {c d : Cube n} :
    c.inter d = none ↔ ∀ x, ¬(c.covers x = true ∧ d.covers x = true) := by
  refine ⟨fun h x hx ↦ ?_, fun h ↦ ?_⟩
  · obtain ⟨e, he, _⟩ := covers_inter.2 hx
    exact absurd (h.symm.trans he) (Option.some_ne_none e).symm
  · cases he : c.inter d with
    | none => rfl
    | some e => exact absurd ((covers_of_inter he e.literals).1 e.covers_literals) (h e.literals)

end Cube

/-! ## Many cubes -/

namespace Cover

theorem covers_iff {f : Cover n} {x : BitVec n} :
    f.covers x = true ↔ ∃ c ∈ f, c.covers x = true := by
  rw [covers, List.any_eq_true]

theorem covers_eq_false_iff {f : Cover n} {x : BitVec n} :
    f.covers x = false ↔ ∀ c ∈ f, c.covers x = false := by
  rw [covers, List.any_eq_false]
  simp only [Bool.not_eq_true]

@[simp]
theorem covers_append (f g : Cover n) (x : BitVec n) :
    covers (f ++ g) x = (covers f x || covers g x) := by
  rw [covers, List.any_append, ← covers, ← covers]

@[simp]
theorem covers_cons (c : Cube n) (f : Cover n) (x : BitVec n) :
    covers (c :: f) x = (c.covers x || covers f x) := rfl

@[simp]
theorem covers_nil (x : BitVec n) : covers ([] : Cover n) x = false := rfl

/-- The minterms of some points cover those points. -/
@[simp]
theorem covers_map_minterm {xs : List (BitVec n)} {x : BitVec n} :
    covers (xs.map Cube.minterm) x = true ↔ x ∈ xs := by
  rw [covers_iff]
  refine ⟨?_, fun hx ↦ ?_⟩
  · rintro ⟨c, hc, hx⟩
    obtain ⟨y, hy, rfl⟩ := List.mem_map.1 hc
    exact Cube.covers_minterm.1 hx ▸ hy
  · exact ⟨Cube.minterm x, List.mem_map_of_mem hx, Cube.covers_minterm.2 rfl⟩

end Cover

/-- The sorted points of a cover are the ones it covers. -/
@[simp]
theorem mem_sortedPoints {f : Cover n} {x : BitVec n} :
    x ∈ sortedPoints f ↔ f.covers x = true := by
  rw [sortedPoints, mem_sortPoints, List.mem_flatMap, Cover.covers_iff]
  simp only [Cube.mem_points]

theorem sortedPoints_increasing (f : Cover n) :
    (sortedPoints f).Pairwise fun x y ↦ x.toNat < y.toNat :=
  sortPoints_increasing _

/-- Every point of the space is listed before the larger ones. -/
theorem allPoints_increasing (n : Nat) :
    (allPoints n).Pairwise fun x y ↦ x.toNat < y.toNat := by
  rw [allPoints, List.pairwise_map]
  refine List.Pairwise.imp_of_mem ?_ List.pairwise_lt_range
  intro i j hi hj hij
  rwa [toNat_ofNat_of_lt (List.mem_range.1 hi), toNat_ofNat_of_lt (List.mem_range.1 hj)]

theorem nodup_of_increasing {xs : List (BitVec n)}
    (h : xs.Pairwise fun x y ↦ x.toNat < y.toNat) : xs.Nodup := by
  refine h.imp ?_
  rintro x y hlt rfl
  exact Nat.lt_irrefl _ hlt

/-- Different points have different minterms. -/
theorem nodup_map_minterm {xs : List (BitVec n)} (h : xs.Nodup) : (xs.map Cube.minterm).Nodup :=
  List.pairwise_map.2 (h.imp fun hne heq ↦ hne (congrArg Cube.literals heq))

/-- **A strictly increasing list of points is determined by its members.** -/
theorem eq_of_increasing {xs ys : List (BitVec n)}
    (hxs : xs.Pairwise fun x y ↦ x.toNat < y.toNat) (hys : ys.Pairwise fun x y ↦ x.toNat < y.toNat)
    (h : ∀ x, x ∈ xs ↔ x ∈ ys) : xs = ys := by
  have hperm : xs.Perm ys :=
    (List.perm_ext_iff_of_nodup (nodup_of_increasing hxs) (nodup_of_increasing hys)).2 h
  exact hperm.eq_of_pairwise (fun a b _ _ hab hba ↦ absurd hab (Nat.lt_asymm hba)) hxs hys

end TwoLevel
