import TwoLevel.Proofs.QuineMcCluskey
import TwoLevel.Proofs.Store.Views
import Mathlib.Order.Bounds.Basic

/-!
# What the trace of the table method shows

A traced run leaves two tables to read.

* **The table of implicants** has a cell for each number of missing positions and each number of
  counted literals.  Its levels are the layers of implicants, so a cell holds all implicants with
  its two numbers (`mem_cell_iff`), and the last level is the largest number of missing positions of
  any (`isGreatest_maxMissing`).
* **The covering table** has prime implicants for rows and explicit points for columns.  Its marks
  lie in one array, column after column, and `getElem?_marks` says where each of them is.

`Trace.IsFullTable` puts into one statement what can be read off a trace, and `minimize` leaves such
a trace for every formula with an explicit point.
-/

set_option autoImplicit false

namespace TwoLevel

variable {n : Nat}

namespace QuineMcCluskey

/-! ## The marks of the covering table -/

/-- **The mark of a row and a column** is as many columns into the array as there are columns before
it. -/
theorem getElem?_marks {rows : List (Cube n)} {columns : List (BitVec n)} {row column : Nat}
    (hrow : row < rows.length) :
    (marks rows columns)[row + column * rows.length]? =
      columns[column]?.map fun x ↦ rows[row].covers x := by
  rw [marks, List.getElem?_toArray]
  induction columns generalizing column with
  | nil => rfl
  | cons x columns ih =>
    rw [List.flatMap_cons]
    cases column with
    | zero =>
      rw [Nat.zero_mul, Nat.add_zero, List.getElem?_append_left (by rwa [List.length_map]),
        List.getElem?_map, List.getElem?_eq_getElem hrow]
      rfl
    | succ column =>
      rw [Nat.succ_mul, ← Nat.add_assoc,
        List.getElem?_append_right (by rw [List.length_map]; omega),
        List.length_map, Nat.add_sub_cancel, ih, List.getElem?_cons_succ]

/-- A mark is read as it was made, and outside the table there is none. -/
theorem isCovered_iff {t : Trace n} (hmarks : t.marks.get = marks t.primes t.columns)
    {row column : Nat} :
    t.isCovered row column = true ↔
      ∃ c x, t.primes[row]? = some c ∧ t.columns[column]? = some x ∧ c.covers x = true := by
  rw [Trace.isCovered, hmarks, Array.getD_eq_getD_getElem?]
  by_cases hrow : row < t.primes.length
  · rw [getElem?_marks hrow, List.getElem?_eq_getElem hrow]
    by_cases hcolumn : column < t.columns.length
    · rw [if_pos ⟨hrow, hcolumn⟩, List.getElem?_eq_getElem hcolumn]
      simp
    · rw [if_neg fun h ↦ hcolumn h.2, List.getElem?_eq_none (Nat.le_of_not_lt hcolumn)]
      simp
  · rw [if_neg fun h ↦ hrow h.1, List.getElem?_eq_none (Nat.le_of_not_lt hrow)]
    simp

/-! ## The table of implicants -/

/-- The levels of implicants of a formula. -/
def levels (f : Formula n) : List (Level n) :=
  implicantLevels f.form.countedLiteral (f.store.expandedTerms ++ f.store.expandedDontCares)

/-- The points that an implicant may cover are the explicit ones and the don't cares. -/
abbrev MayCover (f : Formula n) (x : BitVec n) : Prop :=
  f.store.value x = f.form.explicit ∨ f.store.value x = .dontCare

variable {f : Formula n} {t : Trace n}

theorem mem_expanded_iff_mayCover {x : BitVec n} :
    x ∈ f.store.expandedTerms ++ f.store.expandedDontCares ↔ MayCover f x := by
  rw [List.mem_append, Store.mem_expandedTerms, Store.mem_expandedDontCares]
  rfl

/-- The lowest layer of a formula's implicants. -/
theorem isLayer_points (f : Formula n) :
    Level.IsLayer (MayCover f) 0
      ((sortPoints (f.store.expandedTerms ++ f.store.expandedDontCares)).map Cube.minterm) := by
  have hlayer := Level.isLayer_sortPoints (f.store.expandedTerms ++ f.store.expandedDontCares)
  simpa only [mem_expanded_iff_mayCover] using hlayer

/-- **Each level is a layer of the formula's implicants.** -/
theorem isLayer_of_getElem?_levels (hexplicit : ∃ x, f.store.value x = f.form.explicit)
    {missing : Nat} {level : Level n} (hlevel : (levels f)[missing]? = some level) :
    Level.IsLayer (MayCover f) missing level.cubes ∧ level.cubes ≠ [] := by
  obtain ⟨x, hx⟩ := hexplicit
  have hmem : x ∈ sortPoints (f.store.expandedTerms ++ f.store.expandedDontCares) :=
    mem_sortPoints.2 (mem_expanded_iff_mayCover.2 (Or.inl hx))
  have hlayer := isLayer_of_getElem?_levelsFrom f.form.countedLiteral_ne_missing
    (isLayer_points f) (List.ne_nil_of_mem (List.mem_map_of_mem hmem)) hlevel
  rwa [Nat.zero_add] at hlayer

theorem count_missing_lt_levels {c : Cube n} (hc : c.IsImplicant (MayCover f)) :
    c.count .missing < (levels f).length := by
  have hlt := count_missing_lt_of_levelsFrom f.form.countedLiteral_ne_missing (isLayer_points f)
    (Nat.zero_add n) hc
  rwa [Nat.zero_add] at hlt

/-- **A cell holds the implicants with its numbers**, of missing positions and counted literals. -/
theorem mem_cell_iff (hform : t.form = f.form) (hlevels : t.levels = levels f)
    (hexplicit : ∃ x, f.store.value x = f.form.explicit) {missing counted : Nat} {c : Cube n} :
    c ∈ t.cell missing counted ↔
      c.count .missing = missing ∧ c.count f.form.countedLiteral = counted ∧
        c.IsImplicant (MayCover f) := by
  rw [Trace.cell, hform, hlevels]
  cases hlevel : (levels f)[missing]? with
  | some level =>
    rw [Level.mem_cell_iff, (isLayer_of_getElem?_levels hexplicit hlevel).1.mem_iff]
    exact and_assoc.trans (and_congr_right fun _ ↦ and_comm)
  | none =>
    refine iff_of_false List.not_mem_nil fun ⟨hcount, _, himp⟩ ↦ ?_
    have hlt := count_missing_lt_levels himp
    have hle := List.getElem?_eq_none_iff.1 hlevel
    omega

theorem nodup_cell (hlevels : t.levels = levels f)
    (hexplicit : ∃ x, f.store.value x = f.form.explicit) (missing counted : Nat) :
    (t.cell missing counted).Nodup := by
  rw [Trace.cell, hlevels]
  cases hlevel : (levels f)[missing]? with
  | some level => exact (isLayer_of_getElem?_levels hexplicit hlevel).1.nodup.filter _
  | none => exact List.nodup_nil

/-- **The last level is the largest number of missing positions** of an implicant. -/
theorem isGreatest_maxMissing (hform : t.form = f.form) (hlevels : t.levels = levels f)
    (hexplicit : ∃ x, f.store.value x = f.form.explicit) :
    IsGreatest {missing | ∃ counted, t.cell missing counted ≠ []} t.maxMissing := by
  refine ⟨?_, ?_⟩
  · obtain ⟨x, hx⟩ := hexplicit
    have hpos := count_missing_lt_levels (Cube.isImplicant_minterm_iff.2 (Or.inl hx))
    have hlast : t.maxMissing < (levels f).length := by
      rw [Trace.maxMissing, hlevels]
      omega
    obtain ⟨hlayer, hne⟩ :=
      isLayer_of_getElem?_levels ⟨x, hx⟩ (List.getElem?_eq_getElem hlast)
    obtain ⟨c, hc⟩ := List.exists_mem_of_ne_nil _ hne
    obtain ⟨hcount, himp⟩ := (hlayer.mem_iff c).1 hc
    exact ⟨_, List.ne_nil_of_mem ((mem_cell_iff hform hlevels ⟨x, hx⟩).2 ⟨hcount, rfl, himp⟩)⟩
  · rintro missing ⟨counted, hne⟩
    obtain ⟨c, hc⟩ := List.exists_mem_of_ne_nil _ hne
    obtain ⟨hcount, _, himp⟩ := (mem_cell_iff hform hlevels hexplicit).1 hc
    have hlt := count_missing_lt_levels himp
    rw [Trace.maxMissing, hlevels]
    omega

/-! ## Reading a trace -/

/-- The trace shows all implicants of the formula, and which of the prime ones cover which explicit
points. -/
structure Trace.IsFullTable (f : Formula n) (t : Trace n) : Prop where
  /-- A cell holds the implicants with its numbers of missing positions and of counted literals. -/
  mem_cell_iff : ∀ missing counted c, c ∈ t.cell missing counted ↔
    c.count .missing = missing ∧ c.count f.form.countedLiteral = counted ∧
      ∀ x, c.covers x = true → f.store.value x = f.form.explicit ∨ f.store.value x = .dontCare
  /-- No implicant is in a cell twice. -/
  nodup_cell : ∀ missing counted, (t.cell missing counted).Nodup
  /-- The origins of a cube are the indices that it covers. -/
  mem_origins_iff : ∀ (c : Cube n) index,
    index ∈ origins c ↔ index < numPoints n ∧ c.covers (BitVec.ofNat n index) = true
  /-- The origins of a cube are in increasing order. -/
  origins_increasing : ∀ c : Cube n, (origins c).Pairwise (· < ·)
  /-- A cube is flagged exactly if it heads a row. -/
  isPrime_iff_mem : ∀ c, t.isPrime c = true ↔ c ∈ t.primes
  /-- A cube is flagged exactly if it is a prime implicant. -/
  isPrime_iff : ∀ c, t.isPrime c = true ↔ f.IsPrime c
  /-- The largest number of missing positions is that of the last cells that are not empty. -/
  isGreatest_maxMissing : IsGreatest {missing | ∃ counted, t.cell missing counted ≠ []} t.maxMissing
  /-- The columns are headed by the explicit indices. -/
  mem_columns_iff : ∀ index,
    index ∈ t.columns.map BitVec.toNat ↔ f.store.valueAt index = .ok f.form.explicit
  /-- The columns are in increasing order. -/
  columns_increasing : (t.columns.map BitVec.toNat).Pairwise (· < ·)
  /-- A row and a column are marked when there are such and the cube covers the point. -/
  isCovered_iff : ∀ row column, t.isCovered row column = true ↔
    ∃ c x, t.primes[row]? = some c ∧ t.columns[column]? = some x ∧ c.covers x = true

theorem mem_origins_iff {c : Cube n} {index : Nat} :
    index ∈ Trace.origins c ↔ index < numPoints n ∧ c.covers (BitVec.ofNat n index) = true := by
  rw [Trace.origins, mem_map_toNat_iff, mem_sortPoints, Cube.mem_points]

theorem isPrime_iff_mem {c : Cube n} : t.isPrime c = true ↔ c ∈ t.primes :=
  List.contains_iff_mem

/-- **A traced run shows the full tables** of a formula with an explicit point. -/
theorem exists_trace_isFullTable (hexplicit : ∃ x, f.store.value x = f.form.explicit) :
    ∃ t, (minimize f true).trace = some t ∧ t.IsFullTable f := by
  refine ⟨_, trace_minimize hexplicit, ?_⟩
  exact
    { mem_cell_iff := fun _ _ _ ↦ mem_cell_iff rfl rfl hexplicit
      nodup_cell := nodup_cell rfl hexplicit
      mem_origins_iff := fun _ _ ↦ mem_origins_iff
      origins_increasing := fun c ↦ List.pairwise_map.2 (sortPoints_increasing c.points)
      isPrime_iff_mem := fun _ ↦ isPrime_iff_mem
      isPrime_iff := fun _ ↦ isPrime_iff_mem.trans mem_primes_iff
      isGreatest_maxMissing := isGreatest_maxMissing rfl rfl hexplicit
      mem_columns_iff := fun index ↦ by
        rw [Store.expandedTerms_eq]
        exact Store.mem_map_toNat_pointsWith
      columns_increasing := List.pairwise_map.2 f.store.expandedTerms_increasing
      isCovered_iff := fun _ _ ↦ isCovered_iff rfl }

theorem exists_trace_isFullTable_cyclic :
    (∃ x, cyclic.store.value x = cyclic.form.explicit) ∧
    ∃ t, (minimize cyclic true).trace = some t ∧ t.IsFullTable cyclic := by
  have hexplicit : ∃ x, cyclic.store.value x = cyclic.form.explicit := ⟨5#3, by decide⟩
  exact ⟨hexplicit, exists_trace_isFullTable hexplicit⟩

end QuineMcCluskey

end TwoLevel
