import TwoLevel.Proofs.Formula.Equality
import TwoLevel.Proofs.Store.Run

/-!
# Stores without a history

Stores are compared cube by cube, and one function can be stored in many ways.  But a run that
begins with nothing stored only ever stores points, each once and as a minterm: an output that is
set adds the minterm of its point and takes none apart, and a change of form writes its lists out
point by point.  That is `Store.IsPointwise`.

What such a store holds is therefore known from its values, up to order (`IsPointwise.terms_perm`,
`IsPointwise.dontCares_perm`), and order is what the comparison leaves out.  So it is exact
(`IsPointwise.equal_iff`), for two runs that have nothing else in common.  In particular it does not
matter in which order two indices are given their outputs.
-/

set_option autoImplicit false

namespace TwoLevel

variable {n : Nat}

/-! ## Covers of minterms -/

/-- **A cover of minterms is the list of its points**, in some order. -/
theorem Cover.IsMinterms.perm_map_minterm {f : Cover n} (h : f.IsMinterms) {xs : List (BitVec n)}
    (hxs : xs.Nodup) (hmem : ∀ x, f.covers x = true ↔ x ∈ xs) : f.Perm (xs.map Cube.minterm) := by
  have hminterm : ∀ c ∈ f, c = Cube.minterm c.literals :=
    fun c hc ↦ Cube.ext_masks rfl (h.missing_eq_zero c hc)
  refine (List.perm_ext_iff_of_nodup h.nodup (nodup_map_minterm hxs)).2 fun c ↦ ⟨fun hc ↦ ?_, ?_⟩
  · rw [hminterm c hc]
    have hcovers : f.covers c.literals = true := covers_iff.2 ⟨c, hc, c.covers_literals⟩
    exact List.mem_map_of_mem ((hmem _).1 hcovers)
  · intro hc
    obtain ⟨x, hx, rfl⟩ := List.mem_map.1 hc
    obtain ⟨d, hd, hdx⟩ := covers_iff.1 ((hmem x).2 hx)
    rw [hminterm d hd, Cube.covers_minterm] at hdx
    rw [← hdx, ← hminterm d hd]
    exact hd

namespace Store

variable {s t : Store n}

/-! ## Stores of points -/

/-- A consistent store all of whose cubes are minterms. -/
structure IsPointwise (s : Store n) : Prop extends s.IsConsistent where
  /-- Not only the don't cares but the terms are minterms, no two of them the same. -/
  terms : s.terms.IsMinterms

theorem isPointwise_empty (form : Form) : (empty form : Store n).IsPointwise where
  toIsConsistent := isConsistent_ofCubes_nil form []
  terms := Cover.isMinterms_nil

theorem IsPointwise.set (h : s.IsPointwise) (x : BitVec n) (output : Output) :
    (s.set x output).IsPointwise := by
  refine ⟨h.toIsConsistent.set x output, ?_⟩
  rcases s.set_cases x output with ⟨_, hset⟩ | ⟨_, hset⟩ | ⟨_, hset⟩ | ⟨_, hset⟩
  · rw [hset]
    exact h.terms
  · rw [hset]
    exact h.terms.splitOff x
  · rw [hset]
    exact (h.terms.splitOff x).append_minterm (covers_splitOff_self s.terms x)
  · rw [hset]
    exact h.terms.splitOff x

theorem IsPointwise.setForm (h : s.IsPointwise) (form : Form) :
    (s.setForm form).2.IsPointwise := by
  refine ⟨h.toIsConsistent.setForm form, ?_⟩
  by_cases hform : form = s.form
  · rw [hform, setForm_self]
    exact h.terms
  · rw [setForm_of_ne hform]
    refine Cover.isMinterms_map_minterm ?_
    rw [h.coherent.complement_eq]
    exact nodup_of_increasing (s.pointsWith_increasing s.form.implicit)

/-- **A run from an empty store only stores points.** -/
theorem isPointwise_after (form : Form) (cs : List Command) :
    ((Origin.empty form : Origin n).after cs).IsPointwise := by
  have hpreserved : IsPreserved (@IsPointwise n) :=
    ⟨.set, .setForm, fun {s} _ ↦ isPointwise_empty s.form⟩
  exact hpreserved.after (o := .empty form) (isPointwise_empty form) cs

/-! ## Values determine what is stored -/

/-- The terms are the minterms of the points with the explicit output. -/
theorem IsPointwise.terms_perm (h : s.IsPointwise) :
    s.terms.Perm ((s.pointsWith s.form.explicit).map Cube.minterm) := by
  refine h.terms.perm_map_minterm (nodup_of_increasing (s.pointsWith_increasing _)) fun x ↦ ?_
  rw [mem_pointsWith, value_eq_explicit_iff]
  exact (and_iff_right_of_imp (h.apart x)).symm

/-- The don't cares are the minterms of the points that do not matter. -/
theorem IsPointwise.dontCares_perm (h : s.IsPointwise) :
    s.dontCares.Perm ((s.pointsWith .dontCare).map Cube.minterm) := by
  refine h.dontCares.perm_map_minterm (nodup_of_increasing (s.pointsWith_increasing _)) fun x ↦ ?_
  rw [mem_pointsWith, value_eq_dontCare_iff]

/-- **Of stores of points the comparison is exact**: it finds those equal that have one form and the
same output everywhere. -/
theorem IsPointwise.equal_iff (hs : s.IsPointwise) (ht : t.IsPointwise) :
    s.equal t = true ↔ s.form = t.form ∧ ∀ index, s.valueAt index = t.valueAt index := by
  rw [valueAt_eq_iff]
  refine ⟨fun h ↦ ?_, fun ⟨hform, hvalue⟩ ↦ ?_⟩
  · obtain ⟨hform, hvalue, _⟩ := function_eq_of_equal hs.terms.nodup hs.dontCares.nodup h
    exact ⟨hform, hvalue⟩
  · have hpoints := pointsWith_congr hvalue
    refine (equal_iff_perm hs.terms.nodup hs.dontCares.nodup).2 ⟨hform, ?_, ?_⟩
    · refine hs.terms_perm.trans ?_
      rw [hpoints, hform]
      exact ht.terms_perm.symm
    · refine hs.dontCares_perm.trans ?_
      rw [hpoints]
      exact ht.dontCares_perm.symm

/-! ## Outputs at different indices -/

/-- The command gives the index an output. -/
inductive Command.SetsAt (index : Nat) : Command → Prop
  /-- It gives an output that is stored. -/
  | push (isDontCare : Bool) : SetsAt index (.push index isDontCare)
  /-- It gives the output of indices that are not stored. -/
  | remove : SetsAt index (.remove index)

/-- Which output it is depends on the form alone. -/
theorem Command.SetsAt.exists_output {c : Command} {index : Nat} (h : c.SetsAt index) :
    ∃ output : Form → Output, ∀ d : Draft n,
      (d.perform c).current = d.current.afterSetAt index (output d.current.form) := by
  cases h with
  | push isDontCare =>
    exact ⟨fun form ↦ if isDontCare then .dontCare else form.explicit, fun _ ↦ rfl⟩
  | remove => exact ⟨fun form ↦ form.implicit, fun _ ↦ rfl⟩

@[simp]
theorem form_afterSetAt (s : Store n) (index : Nat) (output : Output) :
    (s.afterSetAt index output).form = s.form := by
  rcases s.afterSetAt_cases index output with ⟨_, h⟩ | ⟨_, h⟩
  · rw [h, form_set]
  · rw [h]

/-- The index has the output it was given, or none if there is no such index. -/
theorem valueAt_afterSetAt (s : Store n) (index i : Nat) (output : Output) :
    (s.afterSetAt index output).valueAt i =
      if i = index then (checkIndex n index).map fun _ ↦ output else s.valueAt i := by
  rcases s.afterSetAt_cases index output with ⟨hlt, h⟩ | ⟨hle, h⟩
  · rw [h, checkIndex_of_lt hlt]
    split
    · next hi =>
      rw [hi, valueAt_set_self s hlt]
      rfl
    · next hi => exact valueAt_set_of_ne s hlt hi output
  · rw [h, checkIndex_of_le hle]
    split
    · next hi =>
      rw [hi, valueAt_of_le hle]
      rfl
    · rfl

/-- **Outputs at different indices do not see each other.** -/
theorem valueAt_afterSetAt_comm (s : Store n) {i j : Nat} (h : i ≠ j) (v w : Output) (k : Nat) :
    ((s.afterSetAt i v).afterSetAt j w).valueAt k =
      ((s.afterSetAt j w).afterSetAt i v).valueAt k := by
  rw [valueAt_afterSetAt, valueAt_afterSetAt, valueAt_afterSetAt, valueAt_afterSetAt]
  by_cases hk : k = i
  · rw [hk, if_neg h, if_pos rfl, if_pos rfl]
  · rw [if_neg hk, if_neg hk]

theorem Origin.after_append_pair (o : Origin n) (cs : List Command) (a b : Command) :
    o.after (cs ++ [a, b]) =
      (((cs.foldl Draft.perform ⟨o.store, o.store⟩).perform a).perform b).current := by
  rw [after, List.foldl_append]
  rfl

/-! ## Runs from an empty store -/

/-- What led to a store does not show in it: a comparison sees the form and the outputs, and nothing
else. -/
structure ForgetsHistory (n : Nat) : Prop where
  /-- Two stores that began empty, in whatever form, and went through whatever commands, compare as
  equal exactly when they have one form and the same output at every index. -/
  equal_iff : ∀ (form₁ form₂ : Form) (cs₁ cs₂ : List Command) (s t : Store n),
    s = (Origin.empty form₁).after cs₁ → t = (Origin.empty form₂).after cs₂ →
      (s.equal t = true ↔ s.form = t.form ∧ ∀ index, s.valueAt index = t.valueAt index)
  /-- Two changes of the output at different indices can be asked for in either order, even where
  one of them is refused. -/
  commutes : ∀ (form : Form) (cs : List Command) {i j : Nat} {a b : Command},
    a.SetsAt i → b.SetsAt j → i ≠ j →
      ((Origin.empty form : Origin n).after (cs ++ [a, b])).equal
        ((Origin.empty form).after (cs ++ [b, a])) = true

/-- **Stores that began empty have no history.**  However many outputs were set, at indices inside
and outside the space, however often the form was changed, with the complement read or unread, and
whatever was cleared or taken up again: such stores compare as equal exactly when they are the same
function in the same form. -/
theorem forgetsHistory (n : Nat) : ForgetsHistory n where
  equal_iff form₁ form₂ cs₁ cs₂ s t hs ht := by
    rw [hs, ht]
    exact (isPointwise_after form₁ cs₁).equal_iff (isPointwise_after form₂ cs₂)
  commutes form cs i j a b ha hb hij := by
    refine ((isPointwise_after form _).equal_iff (isPointwise_after form _)).2 ?_
    obtain ⟨v, hv⟩ := ha.exists_output (n := n)
    obtain ⟨w, hw⟩ := hb.exists_output (n := n)
    rw [Origin.after_append_pair, Origin.after_append_pair, hw, hv, hv, hw]
    simp only [form_afterSetAt, true_and]
    exact valueAt_afterSetAt_comm _ hij _ _

-- The order of the stored terms is what is left of a history, and the comparison does not see it.
example :
    let s : Store 2 := (Origin.empty .sumOfProducts).after [.push 1 false, .push 2 false]
    let t : Store 2 := (Origin.empty .sumOfProducts).after [.push 2 false, .push 1 false]
    s.terms ≠ t.terms ∧ s.equal t = true := by
  decide

end Store

end TwoLevel
