import TwoLevel.Formula.Basic
import TwoLevel.Proofs.Store.Update

/-!
# The views of a store agree

A store can be asked for one output, for the list of all points with an output, and for the three
lists that divide the space.  The answers come about in different ways: by looking for a cube
around the point, by listing the points of the cubes, by walking the whole space, or by reading a
complement that a change of form has put there.  They agree because they are all the same list,
`Store.pointsWith`: the points of the space with the given output, in order.

Only the complement needs a reason.  It is the complement of the cubes in every store that
operations lead to, and the same stores keep terms and don't cares apart and the don't cares
minterms; that is `Store.IsConsistent`, which every operation preserves.  `Store.ViewsAgree` is what
a caller sees of it.  That every stored cube has as many positions as the space has variables is not
among the fields, since its type says so.
-/

set_option autoImplicit false

namespace TwoLevel

variable {n : Nat}

/-! ## Points and indices -/

/-- The index of a listed point is an index of the space, and the point is its. -/
theorem mem_map_toNat_iff {xs : List (BitVec n)} {index : Nat} :
    index ∈ xs.map BitVec.toNat ↔ index < numPoints n ∧ BitVec.ofNat n index ∈ xs := by
  rw [List.mem_map]
  refine ⟨?_, fun ⟨hlt, hmem⟩ ↦ ⟨_, hmem, toNat_ofNat_of_lt hlt⟩⟩
  rintro ⟨x, hx, rfl⟩
  rw [BitVec.ofNat_toNat, BitVec.setWidth_eq]
  exact ⟨x.isLt, hx⟩

/-- The points of the space have the indices up to their number. -/
theorem map_toNat_allPoints (n : Nat) :
    (allPoints n).map BitVec.toNat = List.range (numPoints n) := by
  rw [allPoints, List.map_map]
  exact (List.map_congr_left fun i hi ↦ toNat_ofNat_of_lt (List.mem_range.1 hi)).trans
    (List.map_id _)

namespace Store

/-! ## The points with an output -/

/-- The points with the given output, in increasing order. -/
def pointsWith (s : Store n) (output : Output) : List (BitVec n) :=
  (allPoints n).filter fun x ↦ decide (s.value x = output)

variable {s t : Store n} {output : Output}

@[simp]
theorem mem_pointsWith {x : BitVec n} : x ∈ s.pointsWith output ↔ s.value x = output := by
  rw [pointsWith, List.mem_filter, decide_eq_true_eq]
  exact and_iff_right (mem_allPoints x)

theorem pointsWith_increasing (s : Store n) (output : Output) :
    (s.pointsWith output).Pairwise fun x y ↦ x.toNat < y.toNat :=
  (allPoints_increasing n).filter _

/-- An increasing list of the points with an output is the list of them. -/
theorem eq_pointsWith {xs : List (BitVec n)} (hxs : xs.Pairwise fun x y ↦ x.toNat < y.toNat)
    (h : ∀ x, x ∈ xs ↔ s.value x = output) : xs = s.pointsWith output :=
  eq_of_increasing hxs (s.pointsWith_increasing output) fun x ↦ (h x).trans mem_pointsWith.symm

/-- The points with an output are a matter of the values alone. -/
theorem pointsWith_congr (h : ∀ x, t.value x = s.value x) (output : Output) :
    t.pointsWith output = s.pointsWith output := by
  rw [pointsWith, pointsWith]
  simp only [h]

theorem expandedTerms_eq (s : Store n) : s.expandedTerms = s.pointsWith s.form.explicit :=
  eq_pointsWith s.expandedTerms_increasing fun _ ↦ mem_expandedTerms

theorem expandedDontCares_eq (s : Store n) : s.expandedDontCares = s.pointsWith .dontCare :=
  eq_pointsWith (sortedPoints_increasing s.dontCares) fun _ ↦ mem_expandedDontCares

theorem IsCoherent.complement_eq (h : s.IsCoherent) :
    s.complement.get = s.pointsWith s.form.implicit := by
  refine eq_pointsWith ?_ fun _ ↦ h.mem_complement
  rw [h]
  exact uncovered_increasing _ _

/-- The list for any output is that of the points with it. -/
theorem IsCoherent.points_eq (h : s.IsCoherent) (output : Output) :
    s.points output = s.pointsWith output := by
  rw [points]
  rcases s.form.output_cases output with rfl | rfl | rfl
  · rw [if_pos rfl, expandedDontCares_eq]
  · rw [if_neg s.form.explicit_ne_dontCare, if_pos rfl, expandedTerms_eq]
  · rw [if_neg s.form.implicit_ne_dontCare, if_neg s.form.explicit_ne_implicit.symm,
      h.complement_eq]

theorem valueAt_eq_ok_iff {index : Nat} :
    s.valueAt index = .ok output ↔
      index < numPoints n ∧ s.value (BitVec.ofNat n index) = output := by
  by_cases h : index < numPoints n
  · rw [valueAt_of_lt h, and_iff_right h]
    exact ⟨Except.ok.inj, congrArg Except.ok⟩
  · rw [valueAt_of_le (Nat.not_lt.1 h)]
    exact iff_of_false nofun fun hlt ↦ h hlt.1

theorem mem_map_toNat_pointsWith {index : Nat} :
    index ∈ (s.pointsWith output).map BitVec.toNat ↔ s.valueAt index = .ok output := by
  rw [mem_map_toNat_iff, mem_pointsWith, valueAt_eq_ok_iff]

/-- **Each point is listed once, under the one output it has.** -/
theorem pointsWith_perm_allPoints (s : Store n) :
    (s.pointsWith s.form.explicit ++ s.pointsWith .dontCare ++
      s.pointsWith s.form.implicit).Perm (allPoints n) := by
  have hnodup : ∀ v, (s.pointsWith v).Nodup :=
    fun v ↦ nodup_of_increasing (s.pointsWith_increasing v)
  have hdisjoint : ∀ {v w : Output}, v ≠ w → (s.pointsWith v).Disjoint (s.pointsWith w) := by
    intro v w hne x hv hw
    exact hne ((mem_pointsWith.1 hv).symm.trans (mem_pointsWith.1 hw))
  have hterms : (s.pointsWith s.form.explicit ++ s.pointsWith .dontCare).Nodup :=
    (hnodup _).append (hnodup _) (hdisjoint s.form.explicit_ne_dontCare)
  have hall : (s.pointsWith s.form.explicit ++ s.pointsWith .dontCare ++
      s.pointsWith s.form.implicit).Nodup := by
    refine hterms.append (hnodup _) ?_
    rw [List.disjoint_append_left]
    exact ⟨hdisjoint s.form.explicit_ne_implicit, hdisjoint s.form.implicit_ne_dontCare.symm⟩
  refine (List.perm_ext_iff_of_nodup hall
    (nodup_of_increasing (allPoints_increasing n))).2 fun x ↦ ?_
  refine iff_of_true ?_ (mem_allPoints x)
  rw [List.mem_append, List.mem_append, mem_pointsWith, mem_pointsWith, mem_pointsWith]
  rcases s.value_cases x with h | h | h
  · exact Or.inl (Or.inr h)
  · exact Or.inl (Or.inl h)
  · exact Or.inr h

/-! ## Consistency -/

/-- What is stored fits together. -/
structure IsConsistent (s : Store n) : Prop where
  /-- The don't cares are minterms, no two of them the same. -/
  dontCares : s.dontCares.IsMinterms
  /-- No point is covered both by a term and by a don't care. -/
  apart : ∀ x, s.terms.covers x = true → s.dontCares.covers x = false
  /-- The complement is that of the stored cubes, wherever it comes from. -/
  coherent : s.IsCoherent

/-- Without don't cares nothing can clash. -/
theorem isConsistent_ofCubes_nil (form : Form) (terms : Cover n) :
    (ofCubes form terms []).IsConsistent where
  dontCares := Cover.isMinterms_nil
  apart x _ := Cover.covers_nil x
  coherent := isCoherent_ofCubes _ _ _

theorem IsConsistent.set (h : s.IsConsistent) (x : BitVec n) (output : Output) :
    (s.set x output).IsConsistent := by
  have hsplit : ∀ y, (splitOff x s.terms).covers y = true →
      y ≠ x ∧ (splitOff x s.dontCares).covers y = false := by
    intro y hy
    obtain ⟨hterm, hne⟩ := covers_splitOff.1 hy
    rw [covers_splitOff_of_ne _ hne]
    exact ⟨hne, h.apart y hterm⟩
  rcases s.set_cases x output with ⟨_, hset⟩ | ⟨_, hset⟩ | ⟨_, hset⟩ | ⟨_, hset⟩
  · rw [hset]
    exact h
  · rw [hset]
    refine ⟨(h.dontCares.splitOff x).append_minterm (covers_splitOff_self _ x), fun y hy ↦ ?_,
      isCoherent_ofCubes _ _ _⟩
    obtain ⟨hne, hdc⟩ := hsplit y hy
    exact (covers_append_minterm_of_ne _ hne).trans hdc
  · rw [hset]
    refine ⟨h.dontCares.splitOff x, fun y hy ↦ ?_, isCoherent_ofCubes _ _ _⟩
    by_cases hne : y = x
    · rw [hne]
      exact covers_splitOff_self _ x
    · exact (hsplit y ((covers_append_minterm_of_ne _ hne).symm.trans hy)).2
  · rw [hset]
    exact ⟨h.dontCares.splitOff x, fun y hy ↦ (hsplit y hy).2, isCoherent_ofCubes _ _ _⟩

theorem setForm_of_ne {form : Form} (h : form ≠ s.form) :
    s.setForm form =
      (true, {
        form := form
        terms := s.complement.get.map Cube.minterm
        dontCares := s.expandedDontCares.map Cube.minterm
        complement := Thunk.pure s.expandedTerms }) :=
  if_neg h

theorem setForm_self (s : Store n) : s.setForm s.form = (false, s) := if_pos rfl

theorem IsConsistent.setForm (h : s.IsConsistent) (form : Form) :
    (s.setForm form).2.IsConsistent := by
  have hcoherent := h.coherent.setForm form
  by_cases hform : form = s.form
  · rw [hform, setForm_self]
    exact h
  · rw [setForm_of_ne hform] at hcoherent ⊢
    refine ⟨Cover.isMinterms_map_minterm
      (nodup_of_increasing (sortedPoints_increasing s.dontCares)), fun x hx ↦ ?_, hcoherent⟩
    have himp : s.value x = s.form.implicit :=
      h.coherent.mem_complement.1 (Cover.covers_map_minterm.1 hx)
    rw [← Bool.not_eq_true, Cover.covers_map_minterm, mem_expandedDontCares, himp]
    exact s.form.implicit_ne_dontCare

/-- **Every store that operations lead to is consistent.** -/
theorem Reachable.isConsistent (h : s.Reachable) : s.IsConsistent := by
  induction h with
  | empty form => exact isConsistent_ofCubes_nil form []
  | ofTerms form terms => exact isConsistent_ofCubes_nil form _
  | set _ x output ih => exact ih.set x output
  | setForm _ form ih => exact ih.setForm form
  | clear _ _ => exact isConsistent_ofCubes_nil _ []

/-! ## What a caller sees -/

/-- What is stored fits together, and every way of asking for it gives the same answer. -/
structure ViewsAgree (s : Store n) : Prop extends s.IsConsistent where
  /-- The explicit points are listed in increasing order. -/
  expandedTerms_increasing : s.expandedTerms.Pairwise fun x y ↦ x.toNat < y.toNat
  /-- The don't cares are listed in increasing order. -/
  expandedDontCares_increasing : s.expandedDontCares.Pairwise fun x y ↦ x.toNat < y.toNat
  /-- The complement is listed in increasing order. -/
  complement_increasing : s.complement.get.Pairwise fun x y ↦ x.toNat < y.toNat
  /-- The three lists together hold every index of the space once. -/
  divides_space : ((s.expandedTerms ++ s.expandedDontCares ++ s.complement.get).map
    BitVec.toNat).Perm (List.range (numPoints n))
  /-- The list for an output holds the indices at which it is looked up. -/
  mem_points_iff : ∀ output index,
    index ∈ (s.points output).map BitVec.toNat ↔ s.valueAt index = .ok output
  /-- The partition of a formula over the store lists the explicit indices. -/
  mem_on_iff : ∀ (f : Formula n), f.store = s → ∀ index,
    index ∈ f.partition.on.map BitVec.toNat ↔ s.valueAt index = .ok s.form.explicit
  /-- The partition of such a formula lists the indices that do not matter. -/
  mem_dontCare_iff : ∀ (f : Formula n), f.store = s → ∀ index,
    index ∈ f.partition.dontCare.map BitVec.toNat ↔ s.valueAt index = .ok .dontCare
  /-- The partition of such a formula lists the implicit indices. -/
  mem_off_iff : ∀ (f : Formula n), f.store = s → ∀ index,
    index ∈ f.partition.off.map BitVec.toNat ↔ s.valueAt index = .ok s.form.implicit

/-- **In a consistent store all views agree.** -/
theorem IsConsistent.viewsAgree (h : s.IsConsistent) : s.ViewsAgree where
  toIsConsistent := h
  expandedTerms_increasing := s.expandedTerms_increasing
  expandedDontCares_increasing := sortedPoints_increasing s.dontCares
  complement_increasing := by
    rw [h.coherent.complement_eq]
    exact s.pointsWith_increasing _
  divides_space := by
    rw [expandedTerms_eq, expandedDontCares_eq, h.coherent.complement_eq, ← map_toNat_allPoints]
    exact s.pointsWith_perm_allPoints.map _
  mem_points_iff output index := by rw [h.coherent.points_eq, mem_map_toNat_pointsWith]
  mem_on_iff f hf index := by
    subst hf
    rw [Formula.partition, expandedTerms_eq, mem_map_toNat_pointsWith]
  mem_dontCare_iff f hf index := by
    subst hf
    rw [Formula.partition, expandedDontCares_eq, mem_map_toNat_pointsWith]
  mem_off_iff f hf index := by
    subst hf
    rw [Formula.partition, h.coherent.complement_eq, mem_map_toNat_pointsWith]

end Store

end TwoLevel
