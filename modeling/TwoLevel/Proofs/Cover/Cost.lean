import TwoLevel.Cover.Cost
import TwoLevel.Proofs.Cube.Prime

/-!
# Comparing costs

`Cost.noMoreThan_iff` unfolds the comparison of two costs into one of numbers, after which
everything that is said about costs is arithmetic.  The number of missing positions of a cover is
additive in the cover, and a contained cube has no more of them.
-/

set_option autoImplicit false

namespace TwoLevel

variable {n : Nat}

namespace Cost

/-- Fewer cubes are cheaper, and of as many cubes those with more missing positions. -/
theorem noMoreThan_iff {a b : Cost} :
    a.noMoreThan b = true ↔ a.cubes < b.cubes ∨ a.cubes = b.cubes ∧ b.missing ≤ a.missing := by
  rw [noMoreThan, compare]
  rcases Nat.lt_trichotomy a.cubes b.cubes with h | h | h
  · rw [Nat.compare_eq_lt.2 h]
    simp [Ordering.then, h]
  · rw [Nat.compare_eq_eq.2 h, Ordering.then, Nat.isLE_compare]
    omega
  · rw [Nat.compare_eq_gt.2 h]
    simp only [Ordering.then, Ordering.isLE_gt, Bool.false_eq_true, false_iff]
    omega

theorem noMoreThan_trans {a b c : Cost} (hab : a.noMoreThan b = true)
    (hbc : b.noMoreThan c = true) : a.noMoreThan c = true := by
  rw [noMoreThan_iff] at hab hbc ⊢
  omega

theorem noMoreThan_refl (a : Cost) : a.noMoreThan a = true :=
  noMoreThan_iff.2 (Or.inr ⟨rfl, Nat.le_refl _⟩)

theorem noMoreThan_total {a b : Cost} (h : a.noMoreThan b = false) : b.noMoreThan a = true := by
  rw [← Bool.not_eq_true, noMoreThan_iff] at h
  rw [noMoreThan_iff]
  omega

theorem noMoreThan_antisymm {a b : Cost} (hab : a.noMoreThan b = true)
    (hba : b.noMoreThan a = true) : a = b := by
  rw [noMoreThan_iff] at hab hba
  cases a
  cases b
  simp only [Cost.mk.injEq]
  simp only at hab hba
  omega

/-! ## The cost of a cover -/

@[simp]
theorem cubes_ofCover (f : Cover n) : (ofCover f).cubes = f.length := rfl

theorem length_le_of_noMoreThan {f g : Cover n}
    (h : (ofCover f).noMoreThan (ofCover g) = true) : f.length ≤ g.length := by
  rw [noMoreThan_iff, cubes_ofCover, cubes_ofCover] at h
  omega

@[simp]
theorem missing_ofCover_nil : (ofCover ([] : Cover n)).missing = 0 := rfl

@[simp]
theorem missing_ofCover_cons (c : Cube n) (f : Cover n) :
    (ofCover (c :: f)).missing = c.count .missing + (ofCover f).missing := rfl

@[simp]
theorem missing_ofCover_append (f g : Cover n) :
    (ofCover (f ++ g)).missing = (ofCover f).missing + (ofCover g).missing := by
  induction f with
  | nil => rw [List.nil_append, missing_ofCover_nil, Nat.zero_add]
  | cons c f ih => rw [List.cons_append, missing_ofCover_cons, missing_ofCover_cons, ih,
      Nat.add_assoc]

theorem missing_ofCover_of_perm {f g : Cover n} (h : f.Perm g) :
    (ofCover f).missing = (ofCover g).missing := by
  induction h with
  | nil => rfl
  | cons c _ ih => rw [missing_ofCover_cons, missing_ofCover_cons, ih]
  | swap c e f =>
    simp only [missing_ofCover_cons]
    omega
  | trans _ _ ih1 ih2 => exact ih1.trans ih2

/-- Dropping cubes makes a cover no dearer. -/
theorem ofCover_noMoreThan_of_sublist {f g : Cover n} (h : f.Sublist g) :
    (ofCover f).noMoreThan (ofCover g) = true := by
  rw [noMoreThan_iff, cubes_ofCover, cubes_ofCover]
  rcases Nat.lt_or_ge f.length g.length with hlt | hge
  · exact Or.inl hlt
  · rw [h.eq_of_length_le hge]
    exact Or.inr ⟨rfl, Nat.le_refl _⟩

/-- Where nothing is missing, every cube is a minterm. -/
theorem exists_eq_minterm_of_missing_eq_zero {f : Cover n} (h : (ofCover f).missing = 0)
    {c : Cube n} (hc : c ∈ f) : ∃ x, c = Cube.minterm x := by
  induction f with
  | nil => cases hc
  | cons d f ih =>
    rw [missing_ofCover_cons, Nat.add_eq_zero_iff] at h
    rcases List.mem_cons.1 hc with rfl | hc
    · exact ⟨c.literals, Cube.ext_masks rfl (Mask.count_eq_zero_iff.1 h.1)⟩
    · exact ih h.2 hc

theorem missing_ofCover_map_minterm (xs : List (BitVec n)) :
    (ofCover (xs.map Cube.minterm)).missing = 0 := by
  induction xs with
  | nil => rfl
  | cons x xs ih =>
    rw [List.map_cons, missing_ofCover_cons, ih, Nat.add_zero]
    exact Mask.count_eq_zero_iff.2 rfl

end Cost

/-- A contained cube has no more missing positions. -/
theorem Cube.count_missing_le_of_contains {c d : Cube n} (h : c.contains d = true) :
    d.count .missing ≤ c.count .missing := by
  rw [Cube.contains, Bool.and_eq_true, Mask.subset_iff] at h
  exact Mask.count_le_of_subset h.1

end TwoLevel
