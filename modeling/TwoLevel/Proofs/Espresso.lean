import TwoLevel.Proofs.Espresso.Rounds
import TwoLevel.Proofs.Formula.Cover
import TwoLevel.Proofs.Formula.Reachable

/-!
# The Espresso engine is correct

A run sees a formula only as a `Partition`, the three lists of its points.  For a reachable formula
the lists are those of its values (`isValid_partition`); here that the store is coherent matters,
since the list of implicit points is the complement that the store keeps.  What `Espresso.Rounds`
says of partitions is then said of formulas: the answer is a cover whatever the cap
(`minimize_answers`), and an irredundant one by prime implicants if any round is allowed
(`isIrredundant_minimize`).
-/

set_option autoImplicit false

namespace TwoLevel

variable {n : Nat} {f : Formula n}

namespace Formula

theorem mem_partition_on {x : BitVec n} :
    x ∈ f.partition.on ↔ f.store.value x = f.form.explicit :=
  Store.mem_expandedTerms

theorem mem_partition_dontCare {x : BitVec n} :
    x ∈ f.partition.dontCare ↔ f.store.value x = .dontCare :=
  Store.mem_expandedDontCares

theorem Reachable.mem_partition_off (h : f.Reachable) {x : BitVec n} :
    x ∈ f.partition.off ↔ f.store.value x = f.form.implicit :=
  h.store.isCoherent.mem_complement

/-- **The three lists divide the space** by the values of the formula. -/
theorem Reachable.isValid_partition (h : f.Reachable) : f.partition.IsValid where
  nodup_on := nodup_of_increasing f.store.expandedTerms_increasing
  not_dontCare x hx hdc := by
    rw [mem_partition_on] at hx
    rw [mem_partition_dontCare, hx] at hdc
    exact f.form.explicit_ne_dontCare hdc
  mem_off_iff x := by
    rw [h.mem_partition_off, mem_partition_on, mem_partition_dontCare]
    refine ⟨fun himp ↦ ?_, ?_⟩
    · rw [himp]
      exact ⟨f.form.explicit_ne_implicit.symm, f.form.implicit_ne_dontCare⟩
    · rintro ⟨hexp, hdc⟩
      by_contra himp
      exact hexp (value_eq_explicit_of_ne hdc himp)

/-- A cover of the lists is one of the formula. -/
theorem Reachable.isCover_of_partition (h : f.Reachable) {cover : Cover n}
    (hcover : f.partition.IsCover cover) : f.IsCover cover where
  covers_explicit x hx := hcover.covers_on x (mem_partition_on.2 hx)
  avoids_implicit x hx := hcover.avoids_off x (h.mem_partition_off.2 hx)

/-- What stays clear of the listed complement stays clear of the implicit points. -/
theorem Reachable.covers_offCover_eq_false_iff (h : f.Reachable) {x : BitVec n} :
    f.partition.offCover.covers x = false ↔ f.store.value x ≠ f.form.implicit := by
  rw [Partition.covers_offCover_eq_false_iff, h.mem_partition_off]

/-- An irredundant cover of the lists by primes is one of the formula. -/
theorem Reachable.isIrredundant_of_partition (h : f.Reachable) {cover : Cover n}
    (hcover : f.partition.IsAnswer cover) : f.IsIrredundant (firsts cover) where
  nodup := nodup_firsts cover
  isPrime c hc := (hcover.isPrime c (mem_firsts.1 hc)).congr fun _ ↦ h.covers_offCover_eq_false_iff
  needed c hc := by
    rw [mem_firsts] at hc
    obtain ⟨x, hcx, hdc, hcount⟩ := hcover.isIrredundant c hc
    have himp := h.covers_offCover_eq_false_iff.1 ((hcover.isPrime c hc).implicant x hcx)
    rw [Partition.covers_dontCareCover_eq_false_iff, mem_partition_dontCare] at hdc
    refine ⟨x, value_eq_explicit_of_ne hdc himp, hcx, fun d hd hdx ↦ ?_⟩
    exact Cover.eq_of_countP_covers_eq_one hcount hc hcx (mem_firsts.1 hd) hdx

end Formula

namespace Espresso

/-- **The Espresso engine answers with a cover of the formula**, whatever the cap on its rounds,
with the formula's names and form and without don't cares, and leaves the formula as it was but for
the mark. -/
theorem minimize_answers (h : f.Reachable) (cap : Option Nat) (debug : Bool) :
    (minimize cap f debug).Answers f := by
  have hcover := h.isCover_of_partition (isCover_ofPartition h.isValid_partition cap)
  exact Outcome.answers_minimizedTo hcover _

/-- A product of sums with two explicit points and a don't care. -/
def lowZeros : Formula 2 :=
  Formula.ofStore
    (Store.ofCubes .productOfSums [Cube.minterm 0#2, Cube.minterm 1#2] [Cube.minterm 2#2])
    Formula.defaultName (Names.default 2)

theorem reachable_lowZeros : lowZeros.Reachable := by
  have h : Formula.ofIndices 2 .productOfSums [0, 1] [2] = .ok lowZeros := rfl
  exact .ofIndices h

theorem minimize_answers_lowZeros :
    lowZeros.Reachable ∧ (minimize (some 2) lowZeros true).Answers lowZeros :=
  ⟨reachable_lowZeros, minimize_answers reachable_lowZeros (some 2) true⟩

/-- **If any round is allowed the answer is an irredundant cover by prime implicants.** -/
theorem isIrredundant_minimize (h : f.Reachable) {cap : Option Nat} (hcap : cap ≠ some 0)
    (debug : Bool) : f.IsIrredundant (minimize cap f debug).minimized.terms :=
  h.isIrredundant_of_partition (isAnswer_ofPartition h.isValid_partition hcap)

theorem isIrredundant_minimize_lowZeros :
    lowZeros.Reachable ∧ some 1 ≠ some 0 ∧
      lowZeros.IsIrredundant (minimize (some 1) lowZeros false).minimized.terms :=
  ⟨reachable_lowZeros, by decide, isIrredundant_minimize reachable_lowZeros (by decide) false⟩

end Espresso

end TwoLevel
