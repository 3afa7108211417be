import TwoLevel.Implicant.Level
import TwoLevel.Proofs.Cube.Neighbour

/-!
# The table of implicants is complete

`Level` works with lists, hash maps and an order of its own; what it finds is a matter of membership
only.  In three steps:

* two cubes of a level are a pair exactly when they are neighbours, the counted literal being in the
  second (`mem_pairs_iff`).  So a cube is combined with something when some neighbour of it is on
  the level (`mem_combined_iff`);
* if a level is the *layer* of all implicants with `m` missing positions then its next level is the
  layer above (`IsLayer.next`), because a cube above is an implicant exactly when the two neighbours
  it combines are.  For the same reason the cubes that combine with nothing are the prime ones
  (`IsLayer.mem_primes_iff`);
* the points themselves are the lowest layer, so the levels together find every prime implicant and
  nothing else (`mem_primesOf_implicantLevels_iff`), each once (`nodup_primesOf_implicantLevels`).
  And level by level they are the layers (`isLayer_of_getElem?_levelsFrom`), up to the last one that
  is not empty (`count_missing_lt_of_levelsFrom`).
-/

set_option autoImplicit false

namespace TwoLevel

variable {n : Nat}

namespace Level

open TwoLevel.Cube

/-! ## Pairs -/

/-- A place is known exactly for the members of the cell. -/
theorem isSome_getElem?_places_iff {cell : List (Cube n)} {d : Cube n} :
    (places cell)[d]?.isSome = true ↔ d ∈ cell := by
  rw [← Std.HashMap.mem_iff_isSome_getElem?, places, Std.HashMap.mem_ofList, List.zipIdx_map_fst,
    List.contains_iff_mem]

/-- Raising a cube turns a literal round. -/
theorem raised_eq_map_flip {counted : Literal} (hcounted : counted ≠ .missing) (c : Cube n) :
    raised counted c =
      ((List.range n).filter fun i ↦ c.value i != counted && c.value i != .missing).map c.flip := by
  refine List.map_congr_left fun i hi ↦ congrArg (c.assign i) ?_
  obtain ⟨hne, hm⟩ := Bool.and_eq_true_iff.1 (List.mem_filter.1 hi).2
  rw [bne_iff_ne] at hne hm
  cases hv : c.value i <;> cases counted <;> simp_all

theorem mem_raised_iff {counted : Literal} (hcounted : counted ≠ .missing) {c d : Cube n} :
    d ∈ raised counted c ↔
      ∃ i, i < n ∧ c.value i ≠ .missing ∧ c.value i ≠ counted ∧ d = c.flip i := by
  simp only [raised_eq_map_flip hcounted, List.mem_map, List.mem_filter, List.mem_range,
    Bool.and_eq_true, bne_iff_ne]
  constructor
  · rintro ⟨i, ⟨hi, hne, hm⟩, rfl⟩
    exact ⟨i, hi, hm, hne, rfl⟩
  · rintro ⟨i, hi, hm, hne, rfl⟩
    exact ⟨i, ⟨hi, hne, hm⟩, rfl⟩

/-- The partners of a cube are what it can be raised to, as far as that is in the next cell. -/
theorem mem_partners_iff {counted : Literal} {cell : List (Cube n)} {c d : Cube n} :
    d ∈ partners counted (places cell) c ↔ d ∈ raised counted c ∧ d ∈ cell := by
  rw [partners, List.mem_map]
  constructor
  · rintro ⟨q, hq, rfl⟩
    rw [List.mem_mergeSort, List.mem_filterMap] at hq
    obtain ⟨d, hd, hq⟩ := hq
    obtain ⟨place, hplace, rfl⟩ := Option.map_eq_some_iff.1 hq
    refine ⟨hd, isSome_getElem?_places_iff.1 ?_⟩
    rw [hplace]
    rfl
  · rintro ⟨hd, hcell⟩
    obtain ⟨place, hplace⟩ := Option.isSome_iff_exists.1 (isSome_getElem?_places_iff.2 hcell)
    refine ⟨(place, d), ?_, rfl⟩
    rw [List.mem_mergeSort, List.mem_filterMap]
    exact ⟨d, hd, by rw [hplace]; rfl⟩

theorem mem_cell_iff {counted : Literal} {cubes : List (Cube n)} {k : Nat} {c : Cube n} :
    c ∈ cell counted cubes k ↔ c ∈ cubes ∧ c.count counted = k := by
  rw [cell, List.mem_filter, beq_iff_eq]

/-- **The pairs are the neighbours on the level**, the cube without the counted literal first. -/
theorem mem_pairs_iff {counted : Literal} (hcounted : counted ≠ .missing) {cubes : List (Cube n)}
    {c d : Cube n} :
    (c, d) ∈ (ofCubes counted cubes).pairs ↔
      c ∈ cubes ∧ d ∈ cubes ∧ ∃ i, i < n ∧ c.value i ≠ .missing ∧ c.value i ≠ counted ∧
        d = c.flip i := by
  rw [← mem_raised_iff hcounted, ofCubes, List.mem_flatMap]
  constructor
  · rintro ⟨k, hk, hcd⟩
    rw [pairsOfCell, List.mem_flatMap] at hcd
    obtain ⟨c', hc, hcd⟩ := hcd
    obtain ⟨d', hd, heq⟩ := List.mem_map.1 hcd
    cases heq
    obtain ⟨hraised, hd⟩ := mem_partners_iff.1 hd
    exact ⟨(mem_cell_iff.1 hc).1, (mem_cell_iff.1 hd).1, hraised⟩
  · rintro ⟨hc, hd, hraised⟩
    obtain ⟨i, hi, hm, hne, rfl⟩ := (mem_raised_iff hcounted).1 hraised
    refine ⟨c.count counted, List.mem_range.2 (count_lt hi hne), ?_⟩
    rw [pairsOfCell, List.mem_flatMap]
    refine ⟨c, mem_cell_iff.2 ⟨hc, rfl⟩, List.mem_map_of_mem (mem_partners_iff.2 ⟨hraised, ?_⟩)⟩
    exact mem_cell_iff.2 ⟨hd, count_flip hi hm hcounted hne⟩

/-- Of two neighbours on a level one or the other comes first in a pair. -/
theorem mem_pairs_or {counted : Literal} (hcounted : counted ≠ .missing) {cubes : List (Cube n)}
    {c : Cube n} {i : Nat} (hi : i < n) (hm : c.value i ≠ .missing) (hc : c ∈ cubes)
    (hd : c.flip i ∈ cubes) :
    (c, c.flip i) ∈ (ofCubes counted cubes).pairs ∨
      (c.flip i, c) ∈ (ofCubes counted cubes).pairs := by
  by_cases hv : c.value i = counted
  · refine Or.inr ((mem_pairs_iff hcounted).2
      ⟨hd, hc, i, hi, value_flip_self_ne_missing hi, ?_, ?_⟩)
    · exact fun h ↦ value_flip_self_ne hi (h.trans hv.symm)
    · exact (flip_flip hi hm).symm
  · exact Or.inl ((mem_pairs_iff hcounted).2 ⟨hc, hd, i, hi, hm, hv, rfl⟩)

/-- **A cube is combined with something when a neighbour of it is on the level.** -/
theorem mem_combined_iff {counted : Literal} (hcounted : counted ≠ .missing) {cubes : List (Cube n)}
    {c : Cube n} :
    c ∈ (ofCubes counted cubes).combined ↔
      c ∈ cubes ∧ ∃ i, i < n ∧ c.value i ≠ .missing ∧ c.flip i ∈ cubes := by
  rw [combined, Std.HashSet.mem_ofList, List.contains_iff_mem, List.mem_flatMap]
  constructor
  · rintro ⟨⟨a, b⟩, hab, hc⟩
    obtain ⟨ha, hb, i, hi, hm, _, rfl⟩ := (mem_pairs_iff hcounted).1 hab
    rw [List.mem_cons, List.mem_singleton] at hc
    rcases hc with rfl | rfl
    · exact ⟨ha, i, hi, hm, hb⟩
    · refine ⟨hb, i, hi, value_flip_self_ne_missing hi, ?_⟩
      rwa [flip_flip hi hm]
  · rintro ⟨hc, i, hi, hm, hd⟩
    rcases mem_pairs_or hcounted hi hm hc hd with h | h
    · exact ⟨_, h, List.mem_cons_self⟩
    · exact ⟨_, h, List.mem_cons_of_mem _ List.mem_cons_self⟩

/-- The next level is what neighbours combine to. -/
theorem mem_next_iff {counted : Literal} (hcounted : counted ≠ .missing) {cubes : List (Cube n)}
    {e : Cube n} :
    e ∈ (ofCubes counted cubes).next ↔
      ∃ c i, i < n ∧ c.value i ≠ .missing ∧ c ∈ cubes ∧ c.flip i ∈ cubes ∧ e = c.free i := by
  rw [next, mem_firsts, List.mem_filterMap]
  constructor
  · rintro ⟨⟨c, d⟩, hcd, he⟩
    obtain ⟨hc, hd, _⟩ := (mem_pairs_iff hcounted).1 hcd
    obtain ⟨i, hi, hm, hflip, hfree⟩ := combine_eq_some_iff.1 he
    exact ⟨c, i, hi, hm, hc, hflip ▸ hd, hfree⟩
  · rintro ⟨c, i, hi, hm, hc, hd, rfl⟩
    rcases mem_pairs_or hcounted hi hm hc hd with h | h
    · exact ⟨_, h, combine_eq_some_iff.2 ⟨i, hi, hm, rfl, rfl⟩⟩
    · refine ⟨_, h, combine_eq_some_iff.2 ⟨i, hi, value_flip_self_ne_missing hi, ?_, ?_⟩⟩
      · exact (flip_flip hi hm).symm
      · exact (free_flip hi).symm

/-! ## Layers -/

/-- The cubes are the implicants with `m` missing positions, each once. -/
structure IsLayer (p : BitVec n → Prop) (m : Nat) (cubes : List (Cube n)) : Prop where
  /-- No cube is listed twice. -/
  nodup : cubes.Nodup
  /-- The cubes are just the implicants of their size. -/
  mem_iff : ∀ c, c ∈ cubes ↔ c.count .missing = m ∧ c.IsImplicant p

variable {p : BitVec n → Prop} {m : Nat} {cubes : List (Cube n)} {counted : Literal}

/-- The points are the lowest layer. -/
theorem isLayer_sortPoints (xs : List (BitVec n)) :
    IsLayer (· ∈ xs) 0 ((sortPoints xs).map minterm) where
  nodup := nodup_map_minterm (nodup_of_increasing (sortPoints_increasing xs))
  mem_iff c := by
    rw [List.mem_map]
    constructor
    · rintro ⟨x, hx, rfl⟩
      exact ⟨count_missing_minterm x, isImplicant_minterm_iff.2 (mem_sortPoints.1 hx)⟩
    · rintro ⟨hc, himp⟩
      rw [eq_minterm_of_count_missing_eq_zero hc, isImplicant_minterm_iff] at himp
      exact ⟨c.literals, mem_sortPoints.2 himp, (eq_minterm_of_count_missing_eq_zero hc).symm⟩

/-- On a layer, a cube has a neighbour across a position when it stays an implicant without it. -/
theorem IsLayer.mem_flip_iff (h : IsLayer p m cubes) {c : Cube n} (hc : c ∈ cubes) {i : Nat}
    (hi : i < n) (hm : c.value i ≠ .missing) : c.flip i ∈ cubes ↔ (c.free i).IsImplicant p := by
  obtain ⟨hcount, himp⟩ := (h.mem_iff c).1 hc
  rw [h.mem_iff, count_missing_flip hi hm, isImplicant_free_iff hi hm, and_iff_right hcount,
    and_iff_right himp]

/-- **What the cubes of a layer combine to is the layer above.** -/
theorem IsLayer.next (h : IsLayer p m cubes) (hcounted : counted ≠ .missing) :
    IsLayer p (m + 1) (ofCubes counted cubes).next where
  nodup := nodup_firsts _
  mem_iff e := by
    rw [mem_next_iff hcounted]
    constructor
    · rintro ⟨c, i, hi, hm, hc, hd, rfl⟩
      rw [count_missing_free hi hm, ((h.mem_iff c).1 hc).1]
      exact ⟨rfl, (h.mem_flip_iff hc hi hm).1 hd⟩
    · rintro ⟨hcount, himp⟩
      have hpos : 0 < e.count .missing := by omega
      obtain ⟨i, hi, hv⟩ := exists_value_eq hpos
      obtain ⟨c, hm, rfl⟩ := exists_eq_free hi hv
      rw [count_missing_free hi hm] at hcount
      have hc : c ∈ cubes :=
        (h.mem_iff c).2 ⟨Nat.succ.inj hcount, ((isImplicant_free_iff hi hm).1 himp).1⟩
      exact ⟨c, i, hi, hm, hc, (h.mem_flip_iff hc hi hm).2 himp, rfl⟩

/-- **The cubes of a layer that combine with nothing are the prime ones.** -/
theorem IsLayer.mem_primes_iff (h : IsLayer p m cubes) (hcounted : counted ≠ .missing)
    {c : Cube n} :
    c ∈ (ofCubes counted cubes).primes ↔ c.count .missing = m ∧ c.IsPrime p := by
  rw [primes, List.mem_filter, Bool.not_eq_true', ← Bool.not_eq_true,
    ← Std.HashSet.mem_iff_contains, mem_combined_iff hcounted]
  constructor
  · rintro ⟨hc, hno⟩
    obtain ⟨hcount, himp⟩ := (h.mem_iff c).1 hc
    exact ⟨hcount, himp, fun i hi hm hfree ↦ hno ⟨hc, i, hi, hm, (h.mem_flip_iff hc hi hm).2 hfree⟩⟩
  · rintro ⟨hcount, hprime⟩
    have hc : c ∈ cubes := (h.mem_iff c).2 ⟨hcount, hprime.implicant⟩
    refine ⟨hc, fun ⟨_, i, hi, hm, hd⟩ ↦ ?_⟩
    exact hprime.maximal i hi hm ((h.mem_flip_iff hc hi hm).1 hd)

theorem IsLayer.nodup_primes (h : IsLayer p m cubes) : (ofCubes counted cubes).primes.Nodup :=
  h.nodup.filter _

end Level

/-! ## All levels -/

open Level TwoLevel.Cube

variable {p : BitVec n → Prop} {counted : Literal}

/-- Positions of an implicant can be made explicit one by one. -/
theorem exists_isImplicant_count_eq {c : Cube n} (hc : c.IsImplicant p) {m : Nat}
    (hm : m ≤ c.count .missing) : ∃ d : Cube n, d.IsImplicant p ∧ d.count .missing = m := by
  induction hk : c.count .missing - m generalizing c with
  | zero => exact ⟨c, hc, by omega⟩
  | succ k ih =>
    obtain ⟨i, hi, hv⟩ := exists_value_eq (c := c) (l := .missing) (by omega)
    obtain ⟨d, hdm, rfl⟩ := exists_eq_free hi hv
    have hcount := count_missing_free hi hdm
    exact ih ((isImplicant_free_iff hi hdm).1 hc).1 (by omega) (by omega)

/-- Above an empty layer there is nothing. -/
theorem Level.IsLayer.count_missing_lt {m : Nat} (h : IsLayer p m []) {c : Cube n}
    (hc : c.IsImplicant p) : c.count .missing < m := by
  by_contra hle
  obtain ⟨d, hd, hcount⟩ := exists_isImplicant_count_eq hc (Nat.le_of_not_lt hle)
  exact List.not_mem_nil ((h.mem_iff d).2 ⟨hcount, hd⟩)

/-- From a layer upwards all prime implicants of its size and of larger ones are found. -/
theorem mem_primesOf_levelsFrom_iff (hcounted : counted ≠ .missing) {k m : Nat}
    {cubes : List (Cube n)} (h : IsLayer p m cubes) (hk : m + k = n) {c : Cube n} :
    c ∈ primesOf (levelsFrom counted k cubes) ↔ m ≤ c.count .missing ∧ c.IsPrime p := by
  induction k generalizing m cubes with
  | zero =>
    rw [levelsFrom, primesOf, List.flatMap_singleton, h.mem_primes_iff hcounted]
    have hle := count_le c .missing
    exact and_congr_left fun _ ↦ ⟨Nat.le_of_eq ∘ Eq.symm, fun _ ↦ by omega⟩
  | succ k ih =>
    have hnext := h.next hcounted
    rw [levelsFrom]
    split
    · next hnil =>
      rw [hnil] at hnext
      rw [primesOf, List.flatMap_singleton, h.mem_primes_iff hcounted]
      refine and_congr_left fun hprime ↦ ⟨Nat.le_of_eq ∘ Eq.symm, fun hle ↦ ?_⟩
      have hlt := hnext.count_missing_lt hprime.implicant
      omega
    · rw [primesOf, List.flatMap_cons, ← primesOf, List.mem_append, h.mem_primes_iff hcounted,
        ih hnext (by omega), ← or_and_right]
      exact and_congr_left fun _ ↦ by omega

/-- Different levels have no cube in common. -/
theorem nodup_primesOf_levelsFrom (hcounted : counted ≠ .missing) {k m : Nat}
    {cubes : List (Cube n)} (h : IsLayer p m cubes) (hk : m + k = n) :
    (primesOf (levelsFrom counted k cubes)).Nodup := by
  induction k generalizing m cubes with
  | zero =>
    rw [levelsFrom, primesOf, List.flatMap_singleton]
    exact h.nodup_primes
  | succ k ih =>
    have hnext := h.next hcounted
    have hk' : m + 1 + k = n := by omega
    rw [levelsFrom]
    split
    · rw [primesOf, List.flatMap_singleton]
      exact h.nodup_primes
    · rw [primesOf, List.flatMap_cons, ← primesOf]
      refine List.nodup_append.2 ⟨h.nodup_primes, ih hnext hk', ?_⟩
      rintro c hc d hd rfl
      have hcount := ((h.mem_primes_iff hcounted).1 hc).1
      have hle := ((mem_primesOf_levelsFrom_iff hcounted hnext hk').1 hd).1
      omega

theorem getElem?_zero_levelsFrom (counted : Literal) (k : Nat) (cubes : List (Cube n)) :
    (levelsFrom counted k cubes)[0]? = some (ofCubes counted cubes) := by
  cases k with
  | zero => rfl
  | succ k =>
    rw [levelsFrom]
    split <;> rfl

/-- **The levels are the layers**, none of them empty if the first is not. -/
theorem isLayer_of_getElem?_levelsFrom (hcounted : counted ≠ .missing) {k m j : Nat}
    {cubes : List (Cube n)} (h : IsLayer p m cubes) (hne : cubes ≠ []) {level : Level n}
    (hlevel : (levelsFrom counted k cubes)[j]? = some level) :
    IsLayer p (m + j) level.cubes ∧ level.cubes ≠ [] := by
  induction j generalizing k m cubes with
  | zero =>
    rw [getElem?_zero_levelsFrom] at hlevel
    cases hlevel
    exact ⟨h, hne⟩
  | succ j ih =>
    cases k with
    | zero => cases hlevel
    | succ k =>
      rw [levelsFrom] at hlevel
      split at hlevel
      · cases hlevel
      · next hnext =>
        rw [List.getElem?_cons_succ] at hlevel
        rw [Nat.add_comm j 1, ← Nat.add_assoc]
        exact ih (h.next hcounted) hnext hlevel

/-- The levels reach as far up as there are implicants. -/
theorem count_missing_lt_of_levelsFrom (hcounted : counted ≠ .missing) {k m : Nat}
    {cubes : List (Cube n)} (h : IsLayer p m cubes) (hk : m + k = n) {c : Cube n}
    (hc : c.IsImplicant p) : c.count .missing < m + (levelsFrom counted k cubes).length := by
  induction k generalizing m cubes with
  | zero =>
    have hle := count_le c .missing
    rw [levelsFrom, List.length_singleton]
    omega
  | succ k ih =>
    have hnext := h.next hcounted
    rw [levelsFrom]
    split
    · next hnil =>
      rw [hnil] at hnext
      exact hnext.count_missing_lt hc
    · rw [List.length_cons, Nat.add_comm _ 1, ← Nat.add_assoc]
      exact ih hnext (by omega)

variable {xs : List (BitVec n)}

/-- **The levels over some points find the prime implicants of those points** and nothing else. -/
theorem mem_primesOf_implicantLevels_iff (hcounted : counted ≠ .missing) {c : Cube n} :
    c ∈ primesOf (implicantLevels counted xs) ↔ c.IsPrime (· ∈ xs) := by
  rw [implicantLevels,
    mem_primesOf_levelsFrom_iff hcounted (isLayer_sortPoints xs) (Nat.zero_add n)]
  exact and_iff_right (Nat.zero_le _)

/-- No prime implicant is found twice. -/
theorem nodup_primesOf_implicantLevels (hcounted : counted ≠ .missing) :
    (primesOf (implicantLevels counted xs)).Nodup :=
  nodup_primesOf_levelsFrom hcounted (isLayer_sortPoints xs) (Nat.zero_add n)

end TwoLevel
