import TwoLevel.Store
import TwoLevel.Proofs.Cube.Points

/-!
# The lists of a store and its values

A store answers for single points (`Store.value`) and with lists of all points of one kind.  The two
agree: `mem_expandedTerms` and `mem_expandedDontCares` for what is stored, and `mem_complement` for
what is not.

The last needs that the complement, which is kept beside the cubes, is theirs (`Store.IsCoherent`).
That is not a matter of the type, because a change of form puts a list there that was found in
another way; but it is so in every store that operations lead to (`Store.Reachable.isCoherent`).
-/

set_option autoImplicit false

namespace TwoLevel.Store

variable {n : Nat}

/-! ## Values -/

/-- Each point has one of the three values of the form. -/
theorem value_cases (s : Store n) (x : BitVec n) :
    s.value x = .dontCare ∨ s.value x = s.form.explicit ∨ s.value x = s.form.implicit :=
  s.form.output_cases (s.value x)

theorem value_eq_dontCare_iff {s : Store n} {x : BitVec n} :
    s.value x = .dontCare ↔ s.dontCares.covers x = true := by
  rw [value]
  split
  · next h => exact iff_of_true rfl h
  · next h =>
    refine iff_of_false ?_ h
    split
    · exact s.form.explicit_ne_dontCare
    · exact s.form.implicit_ne_dontCare

theorem value_eq_explicit_iff {s : Store n} {x : BitVec n} :
    s.value x = s.form.explicit ↔ s.dontCares.covers x = false ∧ s.terms.covers x = true := by
  rw [value]
  split
  · next h => exact iff_of_false s.form.explicit_ne_dontCare.symm fun hn ↦ by simp [h] at hn
  · next h =>
    rw [Bool.not_eq_true] at h
    rw [h, and_iff_right rfl]
    split
    · next ht => exact iff_of_true rfl ht
    · next ht => exact iff_of_false s.form.explicit_ne_implicit.symm ht

theorem value_eq_implicit_iff {s : Store n} {x : BitVec n} :
    s.value x = s.form.implicit ↔ s.dontCares.covers x = false ∧ s.terms.covers x = false := by
  rw [value]
  split
  · next h => exact iff_of_false s.form.implicit_ne_dontCare.symm fun hn ↦ by simp [h] at hn
  · next h =>
    rw [Bool.not_eq_true] at h
    rw [h, and_iff_right rfl]
    split
    · next ht => exact iff_of_false s.form.explicit_ne_implicit (by simp [ht])
    · next ht => exact iff_of_true rfl (by simpa using ht)

/-! ## Lists -/

@[simp]
theorem mem_expandedDontCares {s : Store n} {x : BitVec n} :
    x ∈ s.expandedDontCares ↔ s.value x = .dontCare := by
  rw [expandedDontCares, mem_sortedPoints, value_eq_dontCare_iff]

@[simp]
theorem mem_expandedTerms {s : Store n} {x : BitVec n} :
    x ∈ s.expandedTerms ↔ s.value x = s.form.explicit := by
  rw [expandedTerms, List.mem_filter, mem_sortedPoints, value_eq_explicit_iff, Bool.not_eq_true',
    and_comm]

theorem expandedTerms_increasing (s : Store n) :
    s.expandedTerms.Pairwise fun x y ↦ x.toNat < y.toNat :=
  (sortedPoints_increasing s.terms).filter _

theorem mem_uncovered {terms dontCares : Cover n} {x : BitVec n} :
    x ∈ uncovered terms dontCares ↔ dontCares.covers x = false ∧ terms.covers x = false := by
  rw [uncovered, List.mem_filter, Bool.not_eq_true', Bool.or_eq_false_iff,
    and_comm (a := _ = false)]
  exact and_iff_right (mem_allPoints x)

theorem uncovered_increasing (terms dontCares : Cover n) :
    (uncovered terms dontCares).Pairwise fun x y ↦ x.toNat < y.toNat :=
  (allPoints_increasing n).filter _

/-! ## Coherence -/

/-- The complement that a store keeps is that of its cubes. -/
def IsCoherent (s : Store n) : Prop := s.complement.get = uncovered s.terms s.dontCares

/-- The listed complement of a coherent store are the points with the implicit output. -/
theorem IsCoherent.mem_complement {s : Store n} (h : s.IsCoherent) {x : BitVec n} :
    x ∈ s.complement.get ↔ s.value x = s.form.implicit := by
  rw [h, mem_uncovered, value_eq_implicit_iff]

theorem isCoherent_ofCubes (form : Form) (terms dontCares : Cover n) :
    (ofCubes form terms dontCares).IsCoherent :=
  rfl

theorem IsCoherent.set {s : Store n} (h : s.IsCoherent) (x : BitVec n) (output : Output) :
    (s.set x output).IsCoherent := by
  rw [Store.set]
  split
  · exact h
  · simp only
    split
    · exact isCoherent_ofCubes _ _ _
    · split
      · exact isCoherent_ofCubes _ _ _
      · exact isCoherent_ofCubes _ _ _

/-- **The former terms are the complement in the other form.** -/
theorem IsCoherent.setForm {s : Store n} (h : s.IsCoherent) (form : Form) :
    (s.setForm form).2.IsCoherent := by
  rw [Store.setForm]
  split
  · exact h
  · refine eq_of_increasing s.expandedTerms_increasing (uncovered_increasing _ _) fun x ↦ ?_
    rw [mem_uncovered, ← Bool.not_eq_true, ← Bool.not_eq_true, Cover.covers_map_minterm,
      Cover.covers_map_minterm, mem_expandedDontCares, h.mem_complement]
    show x ∈ s.expandedTerms ↔ _
    rw [mem_expandedTerms]
    refine ⟨fun hx ↦ ?_, ?_⟩
    · rw [hx]
      exact ⟨s.form.explicit_ne_dontCare, s.form.explicit_ne_implicit⟩
    · rintro ⟨hdc, himp⟩
      exact ((s.value_cases x).resolve_left hdc).resolve_right himp

/-! ## Reachable stores -/

/-- A store that operations lead to. -/
inductive Reachable : Store n → Prop
  /-- Nothing is stored. -/
  | empty (form : Form) : Reachable (empty form)
  /-- Cubes are stored as they are given. -/
  | ofTerms (form : Form) (terms : Cover n) : Reachable (ofTerms form terms)
  /-- The output at a point is set. -/
  | set {s : Store n} (h : Reachable s) (x : BitVec n) (output : Output) :
      Reachable (s.set x output)
  /-- The form is changed. -/
  | setForm {s : Store n} (h : Reachable s) (form : Form) : Reachable (s.setForm form).2
  /-- Everything is taken out. -/
  | clear {s : Store n} (h : Reachable s) : Reachable s.clear

/-- **In every store the complement is that of its cubes.** -/
theorem Reachable.isCoherent {s : Store n} (h : s.Reachable) : s.IsCoherent := by
  induction h with
  | empty form => exact isCoherent_ofCubes _ _ _
  | ofTerms form terms => exact isCoherent_ofCubes _ _ _
  | set _ x output ih => exact ih.set x output
  | setForm _ form ih => exact ih.setForm form
  | clear _ _ => exact isCoherent_ofCubes _ _ _

end TwoLevel.Store
