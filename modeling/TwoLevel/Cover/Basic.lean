import TwoLevel.Cube.Lemmas
import TwoLevel.Cube.Text
import TwoLevel.Choice

/-!
# Covers

A **cover** is a list of cubes of one size, and stands for the union of their points.  The list
keeps its order and its repetitions, which show in the text of a cover and in which of two equally
good cubes an algorithm takes.

The recursions on covers (`Tautology.lean`, `ComplementCube.lean`) split a cover on a position and
go on with its two *cofactors*, the cover as seen from either half of the space.  What they look at
is here:

* `Cover.ones` and `Cover.zeros`, how many cubes are one or zero at a position;
* `Cover.binatePositions`, those with both, and `Cover.isUnate`, that there is none;
* `Cover.binateSelect`, the best position to split on: the most cubes on the smaller side, then on
  the larger one, then the lowest position;
* `Cover.firstMeaningful?`, the lowest position that is explicit in some cube.

`Cover.totalLiterals` is the measure that they end by.  Splitting on a position explicit in some
cube loses at least that literal (`totalLiterals_cofactor_lt`).
-/

set_option autoImplicit false

namespace TwoLevel

/-- A list of cubes, standing for the union of their points. -/
abbrev Cover (n : Nat) := List (Cube n)

namespace Cover

variable {n : Nat}

/-! ## Points and parts -/

/-- Whether some cube covers the point. -/
def covers (f : Cover n) (x : BitVec n) : Bool := f.any (·.covers x)

/-- Whether some cube implies the given one; for a minterm, whether its point is covered. -/
def implies (f : Cover n) (c : Cube n) : Bool := f.any (·.implies c)

/-- The cover seen from inside a cube; what does not meet the cube is dropped. -/
def cofactor (f : Cover n) (p : Cube n) : Cover n := f.filterMap (·.cofactor p)

/-- Inside a cube, the cofactor covers what the cover covered. -/
theorem covers_cofactor {f : Cover n} {p : Cube n} {x : BitVec n} (hx : p.covers x = true) :
    (f.cofactor p).covers x = f.covers x := by
  rw [Bool.eq_iff_iff, covers, covers, List.any_eq_true, List.any_eq_true]
  constructor
  · rintro ⟨e, he, hex⟩
    obtain ⟨c, hc, hce⟩ := List.mem_filterMap.1 he
    exact ⟨c, hc, (Cube.covers_cofactor hx).1 ⟨e, hce, hex⟩⟩
  · rintro ⟨c, hc, hcx⟩
    obtain ⟨e, hce, hex⟩ := (Cube.covers_cofactor (c := c) hx).2 hcx
    exact ⟨e, List.mem_filterMap.2 ⟨c, hc, hce⟩, hex⟩

/-! ## Columns -/

/-- The number of cubes that are one at a position. -/
def ones (f : Cover n) (position : Nat) : Nat := f.countP fun c ↦ c.value position == .one

/-- The number of cubes that are zero at a position. -/
def zeros (f : Cover n) (position : Nat) : Nat := f.countP fun c ↦ c.value position == .zero

/-- The positions at which some cube is one and some cube is zero. -/
def binatePositions (f : Cover n) : List Nat :=
  (List.range n).filter fun i ↦ f.ones i != 0 && f.zeros i != 0

/-- Whether no position has both ones and zeros. -/
def isUnate (f : Cover n) : Bool := f.binatePositions.isEmpty

/-- How good a position is to split on: the size of its smaller side, then of its larger side. -/
def splitKey (f : Cover n) (position : Nat) : Nat × Nat :=
  (min (f.ones position) (f.zeros position), max (f.ones position) (f.zeros position))

/-- Whether the first key is strictly better than the second. -/
def splitsBetter (a b : Nat × Nat) : Bool := decide (b.1 < a.1 ∨ b.1 = a.1 ∧ b.2 < a.2)

/-- The best position to split on, the lowest of equally good ones, if any position is binate. -/
def binateSelect (f : Cover n) : Option Nat :=
  (firstBest (fun a b ↦ splitsBetter a.2 b.2)
    (f.binatePositions.map fun i ↦ (i, f.splitKey i))).map (·.1)

/-- The lowest position that is explicit in some cube. -/
def firstMeaningful? (f : Cover n) : Option Nat :=
  (List.range n).find? fun i ↦ f.ones i + f.zeros i != 0

/-! ## Text -/

/-- The cubes as bit strings with a separator between them. -/
def text (separator : String) (f : Cover n) : String :=
  String.intercalate separator (f.map Cube.text)

/-- The cubes on one line, marked as a cover. -/
def outline (f : Cover n) : String := "Cover(" ++ f.text ", " ++ ")"

/-! ## The measure -/

/-- The number of literals in all cubes together. -/
def totalLiterals (f : Cover n) : Nat := f.foldr (fun c total ↦ c.literalCount + total) 0

theorem totalLiterals_cofactor_le (f : Cover n) (p : Cube n) :
    totalLiterals (f.cofactor p) ≤ f.totalLiterals := by
  induction f with
  | nil => simp [cofactor, totalLiterals]
  | cons c f ih =>
    simp only [cofactor, totalLiterals, List.filterMap_cons, List.foldr_cons] at ih ⊢
    split
    · omega
    · next e he =>
      have := Cube.literalCount_cofactor_le he
      simp only [List.foldr_cons]
      omega

/-- Splitting on a position that is explicit in some cube loses a literal. -/
theorem totalLiterals_cofactor_lt {f : Cover n} {p : Cube n} {i : Nat}
    (hf : ∃ c ∈ f, c.care.getLsbD i = true) (hp : p.missing.getLsbD i = false) :
    totalLiterals (f.cofactor p) < f.totalLiterals := by
  induction f with
  | nil => simp at hf
  | cons c f ih =>
    simp only [List.mem_cons, exists_eq_or_imp] at hf
    have hle := totalLiterals_cofactor_le f p
    have hc : ∀ e, c.cofactor p = some e → e.literalCount ≤ c.literalCount :=
      fun e he ↦ Cube.literalCount_cofactor_le he
    simp only [cofactor, totalLiterals, List.filterMap_cons, List.foldr_cons]
      at ih hle ⊢
    rcases hf with h | h
    · split
      · have : 0 < c.literalCount := by
          rw [Nat.pos_iff_ne_zero, Cube.literalCount, ne_eq, Mask.count_eq_zero_iff]
          intro h0
          simp [h0] at h
        omega
      · next e he =>
        have := Cube.literalCount_cofactor_lt he h hp
        simp only [List.foldr_cons]
        omega
    · have := ih h
      split
      · omega
      · next e he =>
        have := hc e he
        simp only [List.foldr_cons]
        omega

/-- A position counted in some column is explicit in some cube. -/
theorem exists_care_of_ones {f : Cover n} {i : Nat} (hi : i < n)
    (h : f.ones i ≠ 0 ∨ f.zeros i ≠ 0) : ∃ c ∈ f, c.care.getLsbD i = true := by
  have key : ∀ l : Literal, l ≠ .missing → f.countP (fun c ↦ c.value i == l) ≠ 0 →
      ∃ c ∈ f, c.care.getLsbD i = true := by
    intro l hl hcount
    obtain ⟨c, hc, hv⟩ := List.countP_pos_iff.1 (Nat.pos_of_ne_zero hcount)
    refine ⟨c, hc, ?_⟩
    have hm : c.missing.getLsbD i = false := by
      cases hm : c.missing.getLsbD i
      · rfl
      · rw [Cube.value, hm, if_pos rfl, beq_iff_eq] at hv
        exact absurd hv.symm hl
    rw [Cube.getLsbD_care, hm, decide_eq_true hi]
    rfl
  rcases h with h | h
  · exact key .one (by simp) h
  · exact key .zero (by simp) h

theorem missing_halfSpace {i : Nat} {v : Bool} (hi : i < n) :
    (Cube.halfSpace i v : Cube n).missing.getLsbD i = false := by
  simp [Cube.halfSpace, hi]

theorem exists_care_of_binateSelect {f : Cover n} {i : Nat} (h : f.binateSelect = some i) :
    i < n ∧ ∃ c ∈ f, c.care.getLsbD i = true := by
  unfold binateSelect at h
  obtain ⟨k, hk, rfl⟩ := Option.map_eq_some_iff.1 h
  obtain ⟨j, hj, rfl⟩ := List.mem_map.1 (mem_of_firstBest hk)
  simp only [binatePositions, List.mem_filter, List.mem_range, Bool.and_eq_true, bne_iff_ne] at hj
  exact ⟨hj.1, exists_care_of_ones hj.1 (Or.inl hj.2.1)⟩

theorem exists_care_of_firstMeaningful? {f : Cover n} {i : Nat} (h : f.firstMeaningful? = some i) :
    i < n ∧ ∃ c ∈ f, c.care.getLsbD i = true := by
  have hi : i < n := List.mem_range.1 (List.mem_of_find?_eq_some h)
  have hp := List.find?_some h
  simp only [bne_iff_ne] at hp
  exact ⟨hi, exists_care_of_ones hi (by omega)⟩

/-- **The recursions on covers end**: splitting on the selected binate position loses a literal. -/
theorem totalLiterals_lt_of_binateSelect {f : Cover n} {i : Nat} (h : f.binateSelect = some i)
    (v : Bool) : totalLiterals (f.cofactor (Cube.halfSpace i v)) < f.totalLiterals :=
  totalLiterals_cofactor_lt (exists_care_of_binateSelect h).2
    (missing_halfSpace (exists_care_of_binateSelect h).1)

/-- Splitting on the first meaningful position loses a literal. -/
theorem totalLiterals_lt_of_firstMeaningful? {f : Cover n} {i : Nat}
    (h : f.firstMeaningful? = some i) (v : Bool) :
    totalLiterals (f.cofactor (Cube.halfSpace i v)) < f.totalLiterals :=
  totalLiterals_cofactor_lt (exists_care_of_firstMeaningful? h).2
    (missing_halfSpace (exists_care_of_firstMeaningful? h).1)

end Cover

end TwoLevel
