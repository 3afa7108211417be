import TwoLevel.Formula.Names
import Mathlib.Data.List.Nodup
import Mathlib.Data.List.Perm.Subperm

/-!
# Names that variables can have

`Names.check` asks three things of the names of a formula's variables, one after the other.
`Names.AreValid` says all three at once, and the check accepts the names of which it holds
(`check_eq_ok_iff`).

There is no fourth question, how many names there may be.  The letters that can be names are the
default names of twenty-six variables, so of different ones there are no more than that
(`AreValid.le_maxNamed`).  Up to that number the default names are valid themselves
(`areValid_default`).
-/

set_option autoImplicit false

namespace TwoLevel.Names

variable {n : Nat} {names : List Char}

/-- Names that `n` variables can have. -/
structure AreValid (n : Nat) (names : List Char) : Prop where
  /-- Each variable has one. -/
  length_eq : names.length = n
  /-- They are lower case letters. -/
  isName : ∀ c ∈ names, isName c = true
  /-- No two variables have the same. -/
  nodup : names.Nodup

/-- **The check accepts the names that variables can have.** -/
theorem check_eq_ok_iff : check n names = .ok () ↔ AreValid n names := by
  rw [check]
  split
  · next hlength => exact iff_of_false nofun fun h ↦ hlength h.length_eq
  · next hlength =>
    split
    · next hany =>
      refine iff_of_false nofun fun h ↦ ?_
      obtain ⟨c, hc, hname⟩ := List.any_eq_true.1 hany
      rw [h.isName c hc] at hname
      exact Bool.false_ne_true hname
    · next hany =>
      have hname : ∀ c ∈ names, isName c = true := by
        rw [Bool.not_eq_true, List.any_eq_false] at hany
        intro c hc
        simpa using hany c hc
      split
      · next hnodup => exact iff_of_false nofun fun h ↦ hnodup h.nodup
      · next hnodup =>
        exact iff_of_true rfl ⟨Decidable.not_not.1 hlength, hname, Decidable.not_not.1 hnodup⟩

/-! ## Their number -/

theorem isName_iff {c : Char} : isName c = true ↔ 97 ≤ c.toNat ∧ c.toNat ≤ 122 := by
  rw [isName, Bool.and_eq_true, decide_eq_true_eq, decide_eq_true_eq, Char.le_def, Char.le_def,
    UInt32.le_iff_toNat_le, UInt32.le_iff_toNat_le]
  rfl

/-- Every letter that can be a name is a default name, if there are enough variables. -/
theorem mem_default_maxNamed {c : Char} (h : isName c = true) : c ∈ default maxNamed := by
  obtain ⟨hle, hge⟩ := isName_iff.1 h
  rw [default, List.mem_map]
  refine ⟨c.toNat - 97, ?_, ?_⟩
  · rw [List.mem_reverse, List.mem_range, maxNamed]
    omega
  · have hsum : first.toNat + (c.toNat - 97) = c.toNat := Nat.add_sub_of_le hle
    rw [hsum, Char.ofNat_toNat]

/-- **No more variables than letters have names.** -/
theorem AreValid.le_maxNamed (h : AreValid n names) : n ≤ maxNamed := by
  have hsubset : names ⊆ default maxNamed := fun c hc ↦ mem_default_maxNamed (h.isName c hc)
  have hle := (List.subperm_of_subset h.nodup hsubset).length_le
  rwa [h.length_eq] at hle

/-! ## Default names -/

theorem toNat_ofNat_first_add {i : Nat} (h : i < maxNamed) :
    (Char.ofNat (first.toNat + i)).toNat = 97 + i := by
  have hvalid : (first.toNat + i).isValidChar :=
    .inl (Nat.lt_trans (Nat.add_lt_add_left h _) (by decide))
  rw [Char.ofNat, dif_pos hvalid]
  rfl

/-- **Default names are valid** where there are letters enough. -/
theorem areValid_default (h : n ≤ maxNamed) : AreValid n (default n) := by
  have hplace : ∀ i ∈ (List.range n).reverse, i < maxNamed := by
    intro i hi
    rw [List.mem_reverse, List.mem_range] at hi
    exact Nat.lt_of_lt_of_le hi h
  refine ⟨?_, ?_, ?_⟩
  · rw [default, List.length_map, List.length_reverse, List.length_range]
  · intro c hc
    obtain ⟨i, hi, rfl⟩ := List.mem_map.1 hc
    have hlt : i < 26 := hplace i hi
    rw [isName_iff, toNat_ofNat_first_add hlt]
    omega
  · refine (List.nodup_reverse.2 List.nodup_range).map_on fun i hi j hj hij ↦ ?_
    have hcode := congrArg Char.toNat hij
    rw [toNat_ofNat_first_add (hplace i hi), toNat_ofNat_first_add (hplace j hj)] at hcode
    exact Nat.add_left_cancel hcode

end TwoLevel.Names
