import TwoLevel.Proofs.QuineMcCluskey
import TwoLevel.Proofs.Espresso

/-!
# Where the two engines agree

In general the engines answer with different covers, and neither with the smallest.  But where the
essential prime implicants cover every explicit point there is nothing to choose, and both answer
with just these.  For the one engine that is so because a column with a single row always comes
first, for the other because its answer is irredundant.
-/

set_option autoImplicit false

namespace TwoLevel

variable {n : Nat} {f : Formula n}

/-- **Where the essential prime implicants suffice, both engines answer with them and nothing
else**, so with the same cubes, and no cover of the formula has fewer. -/
theorem engines_agree_of_essentials_suffice (h : f.Reachable) (hsuff : f.EssentialsSuffice)
    {cap : Option Nat} (hcap : cap ≠ some 0) (debug debug' : Bool) :
    (∀ c, c ∈ (QuineMcCluskey.minimize f debug).minimized.terms ↔ f.IsEssential c) ∧
    (∀ c, c ∈ (Espresso.minimize cap f debug').minimized.terms ↔ f.IsEssential c) ∧
    (QuineMcCluskey.minimize f debug).minimized.terms.Perm
      (Espresso.minimize cap f debug').minimized.terms ∧
    ∀ cover : Cover n, f.IsCover cover →
      (QuineMcCluskey.minimize f debug).minimized.terms.length ≤ cover.length ∧
      (Espresso.minimize cap f debug').minimized.terms.length ≤ cover.length := by
  have hqm : ∀ c, c ∈ (QuineMcCluskey.minimize f debug).minimized.terms ↔ f.IsEssential c :=
    fun c ↦ QuineMcCluskey.mem_minimize_iff hsuff debug
  have hirr := h.isIrredundant_of_partition (Espresso.isAnswer_ofPartition h.isValid_partition hcap)
  have hcov := h.isCover_of_partition (Espresso.isCover_ofPartition h.isValid_partition cap)
  have hespresso : ∀ c, c ∈ (Espresso.minimize cap f debug').minimized.terms ↔ f.IsEssential c :=
    fun c ↦ hirr.mem_iff hcov.firsts hsuff
  have hperm : (QuineMcCluskey.minimize f debug).minimized.terms.Perm
      (Espresso.minimize cap f debug').minimized.terms :=
    (List.perm_ext_iff_of_nodup (QuineMcCluskey.nodup_minimize f debug) hirr.nodup).2
      fun c ↦ (hqm c).trans (hespresso c).symm
  refine ⟨hqm, hespresso, hperm, fun cover hcover ↦ ?_⟩
  rw [hperm.length_eq, and_self_iff]
  exact Formula.length_le_of_isEssential hirr.nodup (fun c hc ↦ (hespresso c).1 hc) hcover

/-- The function `a'c + ab`, whose third prime implicant `bc` is not essential. -/
def consensus : Formula 3 :=
  Formula.ofStore (Store.ofCubes .sumOfProducts ([1#3, 3#3, 6#3, 7#3].map Cube.minterm) [])
    Formula.defaultName (Names.default 3)

theorem reachable_consensus : consensus.Reachable := by
  have h : Formula.ofIndices 3 .sumOfProducts [1, 3, 6, 7] [] = .ok consensus := rfl
  exact .ofIndices h

theorem essentialsSuffice_consensus : consensus.EssentialsSuffice := by
  have hlow : consensus.IsEssential (Cube.ofMasks 1#3 2#3) :=
    Formula.isEssential_of_neighbours (x := 1#3) (by decide) (by decide) (by decide) (by decide)
  have hhigh : consensus.IsEssential (Cube.ofMasks 6#3 1#3) :=
    Formula.isEssential_of_neighbours (x := 6#3) (by decide) (by decide) (by decide) (by decide)
  have hcases : ∀ x : BitVec 3, consensus.store.value x = consensus.form.explicit →
      (Cube.ofMasks 1#3 2#3).covers x = true ∨ (Cube.ofMasks 6#3 1#3).covers x = true := by
    decide
  intro x hx
  rcases hcases x hx with h | h
  · exact ⟨_, hlow, h⟩
  · exact ⟨_, hhigh, h⟩

/-- So the engines agree on it, and no cover of it is smaller. -/
theorem engines_agree_consensus :
    consensus.Reachable ∧ consensus.EssentialsSuffice ∧
    (QuineMcCluskey.minimize consensus false).minimized.terms.Perm
      (Espresso.minimize none consensus true).minimized.terms ∧
    ∀ cover : Cover 3, consensus.IsCover cover →
      (QuineMcCluskey.minimize consensus false).minimized.terms.length ≤ cover.length := by
  obtain ⟨_, _, hperm, hmin⟩ :=
    engines_agree_of_essentials_suffice reachable_consensus essentialsSuffice_consensus
      (by decide : (none : Option Nat) ≠ some 0) false true
  exact ⟨reachable_consensus, essentialsSuffice_consensus, hperm,
    fun cover hcover ↦ (hmin cover hcover).1⟩

end TwoLevel
