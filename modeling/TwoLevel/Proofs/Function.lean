import TwoLevel.Proofs.Espresso
import TwoLevel.Proofs.QuineMcCluskey
import TwoLevel.Proofs.Formula.Equality

/-!
# Minimizing is a matter of the function

One function can be stored in many ways: as points in any order, as cubes that overlap, as what is
left of cubes after changes, as what a change of form wrote out, with the complement computed or
not.  None of this shows in what the engines answer.  They read a formula by its partition, whose
lists are in order and say nothing but the outputs (`Reachable.partition_eq`), so formulas with the
same form and outputs get the same cubes in the same order.

An answer is a formula too.  Where nothing is a don't care a cover decides every point, so the
formula over it is the same function (`IsCover.isSameFunction`), and minimizing it again leads
nowhere else.
-/

set_option autoImplicit false

namespace TwoLevel

variable {n : Nat} {f g : Formula n}

namespace Formula

/-! ## The same function -/

/-- The formulas have one form and at every index the same output, however they are stored. -/
structure IsSameFunction (f g : Formula n) : Prop where
  /-- The form is the same. -/
  form_eq : g.form = f.form
  /-- The outputs are the same. -/
  valueAt_eq : ∀ index, g.store.valueAt index = f.store.valueAt index

theorem IsSameFunction.pointsWith_eq (h : f.IsSameFunction g) (output : Output) :
    g.store.pointsWith output = f.store.pointsWith output :=
  Store.pointsWith_congr (Store.valueAt_eq_iff.1 h.valueAt_eq) output

theorem IsSameFunction.expandedTerms_eq (h : f.IsSameFunction g) :
    g.store.expandedTerms = f.store.expandedTerms := by
  rw [Store.expandedTerms_eq, Store.expandedTerms_eq, ← form, ← form, h.form_eq, h.pointsWith_eq]

theorem IsSameFunction.expandedDontCares_eq (h : f.IsSameFunction g) :
    g.store.expandedDontCares = f.store.expandedDontCares := by
  rw [Store.expandedDontCares_eq, Store.expandedDontCares_eq, h.pointsWith_eq]

/-- **The partition is that of the function.**  Of the complement this is known for reachable
formulas. -/
theorem IsSameFunction.partition_eq (h : f.IsSameFunction g) (hf : f.Reachable)
    (hg : g.Reachable) : g.partition = f.partition := by
  have hoff : g.store.complement.get = f.store.complement.get := by
    rw [hg.store.isCoherent.complement_eq, hf.store.isCoherent.complement_eq, ← form, ← form,
      h.form_eq, h.pointsWith_eq]
  rw [partition, partition, h.expandedTerms_eq, h.expandedDontCares_eq, hoff]

/-- **The formula over a cover is the function that is covered**, if nothing is a don't care. -/
theorem IsCover.isSameFunction {cover : Cover n} (h : f.IsCover cover)
    (hdc : ∀ index, f.store.valueAt index ≠ .ok .dontCare) :
    f.IsSameFunction (f.minimizedTo cover) where
  form_eq := rfl
  valueAt_eq := by
    refine Store.valueAt_eq_iff.2 fun x ↦ ?_
    have hnone : (f.minimizedTo cover).store.dontCares.covers x = false := Cover.covers_nil x
    have hform : f.store.form = (f.minimizedTo cover).store.form := rfl
    rcases f.store.value_cases x with hx | hx | hx
    · refine absurd ?_ (hdc x.toNat)
      rw [Store.valueAt_toNat, hx]
    · rw [hx, hform, Store.value_eq_explicit_iff]
      exact ⟨hnone, h.firsts.covers_explicit x hx⟩
    · rw [hx, hform, Store.value_eq_implicit_iff]
      exact ⟨hnone, h.firsts.avoids_implicit x hx⟩

end Formula

/-! ## What the engines answer -/

namespace QuineMcCluskey

theorem terms_minimize_congr (h : f.IsSameFunction g) (debug debug' : Bool) :
    (minimize g debug').minimized.terms = (minimize f debug).minimized.terms := by
  rw [minimized_minimize, minimized_minimize, Formula.terms_minimizedTo,
    Formula.terms_minimizedTo, h.form_eq, h.expandedTerms_eq, h.expandedDontCares_eq]

theorem isSameFunction_minimize (hdc : ∀ index, f.store.valueAt index ≠ .ok .dontCare)
    (debug : Bool) : f.IsSameFunction (minimize f debug).minimized := by
  rw [minimized_minimize]
  exact (isCover_of_taken taken_cover_ofPoints).isSameFunction hdc

end QuineMcCluskey

namespace Espresso

theorem terms_minimize_congr (h : f.IsSameFunction g) (hf : f.Reachable) (hg : g.Reachable)
    (cap : Option Nat) (debug debug' : Bool) :
    (minimize cap g debug').minimized.terms = (minimize cap f debug).minimized.terms := by
  rw [minimize, minimize, Formula.terms_minimizedTo, Formula.terms_minimizedTo,
    h.partition_eq hf hg]

theorem isSameFunction_minimize (hf : f.Reachable)
    (hdc : ∀ index, f.store.valueAt index ≠ .ok .dontCare) (cap : Option Nat) (debug : Bool) :
    f.IsSameFunction (minimize cap f debug).minimized :=
  (hf.isCover_of_partition (isCover_ofPartition hf.isValid_partition cap)).isSameFunction hdc

end Espresso

/-- **Minimizing depends on the function only.**  For formulas with the same form and outputs each
engine, whatever the cap and traced or not, answers with the same cubes in the same order.  And
where nothing is a don't care, minimizing an answer again gives its cubes back. -/
theorem minimize_depends_on_function (hf : f.Reachable) (hg : g.Reachable)
    (h : f.IsSameFunction g) (cap : Option Nat) (debug debug' : Bool) :
    (QuineMcCluskey.minimize g debug').minimized.terms =
      (QuineMcCluskey.minimize f debug).minimized.terms ∧
    (Espresso.minimize cap g debug').minimized.terms =
      (Espresso.minimize cap f debug).minimized.terms ∧
    ((∀ index, f.store.valueAt index ≠ .ok .dontCare) →
      (QuineMcCluskey.minimize (QuineMcCluskey.minimize f debug).minimized debug').minimized.terms =
        (QuineMcCluskey.minimize f debug).minimized.terms ∧
      (Espresso.minimize cap (Espresso.minimize cap f debug).minimized debug').minimized.terms =
        (Espresso.minimize cap f debug).minimized.terms) := by
  refine ⟨QuineMcCluskey.terms_minimize_congr h debug debug',
    Espresso.terms_minimize_congr h hf hg cap debug debug', fun hdc ↦ ⟨?_, ?_⟩⟩
  · have hagain := QuineMcCluskey.isSameFunction_minimize hdc debug
    exact QuineMcCluskey.terms_minimize_congr hagain debug debug'
  · have hagain := Espresso.isSameFunction_minimize hf hdc cap debug
    exact Espresso.terms_minimize_congr hagain hf (hf.espresso cap debug) cap debug debug'

/-- Two half spaces that overlap. -/
def halves : Formula 2 :=
  Formula.ofCubes .sumOfProducts [Cube.halfSpace 0 true, Cube.halfSpace 1 true]

/-- The same function, left by a change of form as the points it has. -/
def lowOnly : Formula 2 :=
  Formula.ofCubes .productOfSums [Cube.minterm 0#2]

theorem minimize_depends_on_function_halves :
    halves.Reachable ∧ (lowOnly.setForm .sumOfProducts).2.Reachable ∧
    halves.IsSameFunction (lowOnly.setForm .sumOfProducts).2 ∧
    (∀ index, halves.store.valueAt index ≠ .ok .dontCare) ∧
    (QuineMcCluskey.minimize (lowOnly.setForm .sumOfProducts).2 true).minimized.terms =
      (QuineMcCluskey.minimize halves false).minimized.terms ∧
    (Espresso.minimize none (Espresso.minimize none halves false).minimized true).minimized.terms =
      (Espresso.minimize none halves false).minimized.terms := by
  have hhalves : halves.Reachable := Formula.reachable_ofCubes _ (by decide) (by decide)
  have hlow : lowOnly.Reachable := Formula.reachable_ofCubes _ (by decide) (by decide)
  have hsame : halves.IsSameFunction (lowOnly.setForm .sumOfProducts).2 :=
    ⟨rfl, Store.valueAt_eq_iff.2 (by decide +kernel)⟩
  have hdc : ∀ index, halves.store.valueAt index ≠ .ok .dontCare := by
    intro index hindex
    have hvalue := (Store.valueAt_eq_ok_iff.1 hindex).2
    exact absurd hvalue ((by decide : ∀ x, halves.store.value x ≠ .dontCare) _)
  obtain ⟨hqm, _, hagain⟩ :=
    minimize_depends_on_function hhalves (hlow.setForm .sumOfProducts) hsame none false true
  exact ⟨hhalves, hlow.setForm _, hsame, hdc, hqm, (hagain hdc).2⟩

end TwoLevel
