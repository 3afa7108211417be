import TwoLevel.Proofs.Term.Order
import TwoLevel.Proofs.Cube.Neighbour

/-!
# Combining terms

Two terms combine when they have the same positions missing and differ in exactly one of the others.
That is a test on words; what it decides is a question about sets of indices, each of which may be
as large as the space: whether the indices of both terms together are those of one cube.  The two
agree, for terms of any sizes (`combine_joins`).

One direction is that freeing a position of a cube adds the indices of its neighbour there.  For the
other, take two terms that are opposed at two positions.  A cube around both has both of these
missing, so it covers the index that agrees with the one term at the first and with the other at the
second, and neither of the terms covers that (`Cube.value_eq_of_covers`).
-/

set_option autoImplicit false

namespace TwoLevel.Term

/-- Two terms have the same positions, and the same of them missing. -/
structure IsAligned (a b : Term) : Prop where
  /-- They have the same positions. -/
  size_eq : a.size = b.size
  /-- A position is missing in both or in neither. -/
  missing_iff : ∀ i, i < a.size → (a.cube.value i = .missing ↔ b.cube.value i = .missing)

/-- At an explicit position of the one term the other has a different literal. -/
structure IsOpposed (a b : Term) (position : Nat) : Prop where
  /-- It is a position of the term. -/
  lt_size : position < a.size
  /-- It is explicit. -/
  explicit : a.cube.value position ≠ .missing
  /-- The literals differ. -/
  value_ne : a.cube.value position ≠ b.cube.value position

/-- A term with the positions of another covers the indices of both of two. -/
structure IsUnion (a b c : Term) : Prop where
  /-- It has as many positions as the first. -/
  size_eq : c.size = a.size
  /-- It covers what either of the two covers. -/
  covered_iff : ∀ index, index ∈ c.covered ↔ index ∈ a.covered ∨ index ∈ b.covered

/-! ## Terms of one size -/

variable {n : Nat} {c d e : Cube n}

theorem combine_mk (c d : Cube n) : combine ⟨n, c⟩ ⟨n, d⟩ = (c.combine d).map (⟨n, ·⟩) :=
  dif_pos rfl

theorem combine_mk_eq_some_iff {t : Term} :
    combine ⟨n, c⟩ ⟨n, d⟩ = some t ↔ ∃ e, c.combine d = some e ∧ (⟨n, e⟩ : Term) = t := by
  rw [combine_mk, Option.map_eq_some_iff]

theorem isAligned_mk_iff : IsAligned ⟨n, c⟩ ⟨n, d⟩ ↔ c.missing = d.missing :=
  ⟨fun h ↦ Cube.missing_eq_iff.2 h.missing_iff, fun h ↦ ⟨rfl, Cube.missing_eq_iff.1 h⟩⟩

theorem isOpposed_mk_iff {i : Nat} :
    IsOpposed ⟨n, c⟩ ⟨n, d⟩ i ↔ i < n ∧ c.value i ≠ .missing ∧ c.value i ≠ d.value i :=
  ⟨fun h ↦ ⟨h.lt_size, h.explicit, h.value_ne⟩, fun h ↦ ⟨h.1, h.2.1, h.2.2⟩⟩

theorem isUnion_mk_iff : IsUnion ⟨n, c⟩ ⟨n, d⟩ ⟨n, e⟩ ↔
    ∀ x, e.covers x = true ↔ c.covers x = true ∨ d.covers x = true := by
  refine ⟨fun h x ↦ ?_, fun h ↦ ⟨rfl, fun index ↦ ?_⟩⟩
  · have hx := h.covered_iff x.toNat
    rwa [toNat_mem_covered (t := ⟨n, e⟩), toNat_mem_covered (t := ⟨n, c⟩),
      toNat_mem_covered (t := ⟨n, d⟩)] at hx
  · simp only [mem_covered, h, or_and_right, exists_or]

/-! ## What combining decides -/

/-- Two terms combine when their indices together are those of one cube. -/
structure Joins (a b : Term) : Prop where
  /-- They combine if they have the same positions missing and differ in exactly one. -/
  isSome_iff : (a.combine b).isSome = true ↔ a.IsAligned b ∧ ∃! i, a.IsOpposed b i
  /-- What they combine to covers the indices of both, and no others. -/
  isUnion : ∀ c, a.combine b = some c → a.IsUnion b c
  /-- If some cube does that, it is what they combine to. -/
  eq_of_isUnion : a ≠ b → a.IsAligned b → ∀ c, a.IsUnion b c → a.combine b = some c
  /-- The order of the two does not matter. -/
  comm : a.combine b = b.combine a

theorem combine_of_size_ne {a b : Term} (h : b.size ≠ a.size) : a.combine b = none :=
  dif_neg h

/-- **Combining is sound and complete**, for any two terms. -/
theorem combine_joins (a b : Term) : Joins a b := by
  by_cases hsize : b.size = a.size
  · obtain ⟨n, c⟩ := a
    obtain ⟨m, d⟩ := b
    obtain rfl : m = n := hsize
    refine ⟨?_, fun t h ↦ ?_, fun hne haligned t h ↦ ?_, ?_⟩
    · rw [combine_mk, Option.isSome_map, Cube.isSome_combine_iff, isAligned_mk_iff,
        Cube.missing_eq_iff]
      simp only [isOpposed_mk_iff]
    · obtain ⟨e, he, rfl⟩ := combine_mk_eq_some_iff.1 h
      exact isUnion_mk_iff.2 (Cube.covers_of_combine he)
    · obtain ⟨k, e⟩ := t
      obtain rfl : k = m := h.size_eq
      refine combine_mk_eq_some_iff.2 ⟨e, ?_, rfl⟩
      refine Cube.combine_eq_some_of_covers ?_ (isAligned_mk_iff.1 haligned) (isUnion_mk_iff.1 h)
      rintro rfl
      exact hne rfl
    · rw [combine_mk, combine_mk, Cube.combine_comm]
  · refine ⟨?_, ?_, fun _ haligned ↦ absurd haligned.size_eq.symm hsize, ?_⟩
    · rw [combine_of_size_ne hsize]
      exact iff_of_false Bool.false_ne_true fun h ↦ hsize h.1.size_eq.symm
    · simp [combine_of_size_ne hsize]
    · rw [combine_of_size_ne hsize, combine_of_size_ne (Ne.symm hsize)]

-- `1-0` and `1-1` combine to `1--`; `1-0` and `0-1` are opposed twice, and `1-0` and `100` have
-- different positions missing.
example :
    combine ⟨3, Cube.ofMasks 4#3 2#3⟩ ⟨3, Cube.ofMasks 5#3 2#3⟩
        = some ⟨3, Cube.ofMasks 4#3 3#3⟩ ∧
      combine ⟨3, Cube.ofMasks 4#3 2#3⟩ ⟨3, Cube.ofMasks 1#3 2#3⟩ = none ∧
      combine ⟨3, Cube.ofMasks 4#3 2#3⟩ ⟨3, Cube.ofMasks 4#3 0#3⟩ = none := by
  decide

end TwoLevel.Term
