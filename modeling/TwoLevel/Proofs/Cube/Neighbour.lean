import TwoLevel.Proofs.Cube.Prime
import Mathlib.Logic.ExistsUnique

/-!
# Cubes that differ in one literal

Two cubes combine when they are **neighbours**: the one is the other with the literal at one
explicit position turned round (`Cube.flip`).  What they combine to is the cube with that position
missing, `Cube.free`.  So everything that the table of implicants does with cubes is described by
`flip` and `free`, and the lemmas here are about these two:

* `combine_eq_some_iff`, that combining is nothing else;
* `combine_eq_some_of_covers`, that two cubes with the same positions missing have a cube for their
  union only if they combine to it;
* `isImplicant_free_iff`, that the combined cube is an implicant exactly when both cubes are;
* `count_flip`, `count_missing_flip` and `count_missing_free`, that turning a literal round moves a
  cube by one cell, and that combining moves it by one level.

`exists_eq_free` is the way back down: a cube with a missing position is what two neighbours combine
to.
-/

set_option autoImplicit false

namespace TwoLevel.Cube

variable {n : Nat}

/-! ## Literals -/

theorem value_eq_missing_iff {c : Cube n} {i : Nat} :
    c.value i = .missing ↔ c.missing.getLsbD i = true := by
  rw [← not_iff_not, ← Ne, value_ne_missing_iff, Bool.not_eq_true]

theorem value_eq_one_iff {c : Cube n} {i : Nat} :
    c.value i = .one ↔ c.literals.getLsbD i = true := by
  rw [value]
  cases hm : c.missing.getLsbD i with
  | true => simp [literals_eq_false hm]
  | false => cases c.literals.getLsbD i <;> simp

theorem value_eq_zero_iff {c : Cube n} {i : Nat} (hi : i < n) :
    c.value i = .zero ↔ c.zeros.getLsbD i = true := by
  rw [value, getLsbD_zeros, decide_eq_true hi]
  cases c.missing.getLsbD i with
  | true => simp
  | false => cases c.literals.getLsbD i <;> simp

theorem value_free {c : Cube n} {i : Nat} (hi : i < n) (j : Nat) :
    (c.free i).value j = if j = i then .missing else c.value j := by
  rw [value, getLsbD_missing_free, free, getLsbD_literals_ofMasks, BitVec.getLsbD_or,
    Mask.getLsbD_bit, decide_eq_true hi]
  by_cases hij : j = i
  · simp [hij]
  · rw [if_neg hij, value, decide_eq_false (Ne.symm hij)]
    cases c.missing.getLsbD j <;> simp

theorem value_assign {c : Cube n} {i : Nat} (hi : i < n) (v : Bool) (j : Nat) :
    (c.assign i v).value j = if j = i then (if v then .one else .zero) else c.value j := by
  by_cases hij : j = i
  · subst hij
    cases v <;> simp [value, assign, hi]
  · rw [if_neg hij, value, value, assign, missing_ofMasks, getLsbD_literals_ofMasks,
      Mask.getLsbD_diff, Mask.getLsbD_bit, decide_eq_false (Ne.symm hij)]
    cases hm : c.missing.getLsbD j <;> cases v <;> simp [Ne.symm hij]

/-- The cube with the literal at one position turned round. -/
def flip (c : Cube n) (position : Nat) : Cube n := c.assign position (c.value position == .zero)

theorem value_flip {c : Cube n} {i : Nat} (hi : i < n) (j : Nat) :
    (c.flip i).value j =
      if j = i then (if c.value i = .zero then .one else .zero) else c.value j := by
  rw [flip, value_assign hi]
  cases c.value i <;> rfl

theorem value_flip_self {c : Cube n} {i : Nat} (hi : i < n) :
    (c.flip i).value i = if c.value i = .zero then .one else .zero := by
  rw [value_flip hi, if_pos rfl]

theorem value_flip_of_ne {c : Cube n} {i j : Nat} (hi : i < n) (h : j ≠ i) :
    (c.flip i).value j = c.value j := by
  rw [value_flip hi, if_neg h]

/-- An explicit position stays one. -/
theorem value_flip_self_ne_missing {c : Cube n} {i : Nat} (hi : i < n) :
    (c.flip i).value i ≠ .missing := by
  rw [value_flip_self hi]
  split <;> decide

/-- The literal changes. -/
theorem value_flip_self_ne {c : Cube n} {i : Nat} (hi : i < n) :
    (c.flip i).value i ≠ c.value i := by
  rw [value_flip_self hi]
  cases c.value i <;> decide

/-- Turned round twice an explicit literal is as it was. -/
theorem flip_flip {c : Cube n} {i : Nat} (hi : i < n) (hm : c.value i ≠ .missing) :
    (c.flip i).flip i = c := by
  refine ext_value fun j _ ↦ ?_
  rw [value_flip hi, value_flip_self hi, value_flip hi]
  by_cases hij : j = i
  · rw [if_pos hij, hij]
    cases hv : c.value i with
    | zero => rfl
    | one => rfl
    | missing => exact absurd hv hm
  · rw [if_neg hij, if_neg hij]

theorem free_flip {c : Cube n} {i : Nat} (hi : i < n) : (c.flip i).free i = c.free i := by
  refine ext_value fun j _ ↦ ?_
  rw [value_free hi, value_free hi, value_flip hi]
  split <;> rfl

/-- A position of a cube that is missing was made so by combining. -/
theorem exists_eq_free {c : Cube n} {i : Nat} (hi : i < n) (hm : c.value i = .missing) :
    ∃ d : Cube n, d.value i ≠ .missing ∧ d.free i = c := by
  refine ⟨c.assign i false, ?_, ext_value fun j _ ↦ ?_⟩
  · rw [value_assign hi, if_pos rfl]
    decide
  · rw [value_free hi, value_assign hi]
    by_cases hij : j = i
    · rw [if_pos hij, hij, hm]
    · rw [if_neg hij, if_neg hij]

/-! ## Counting -/

/-- The literals of a kind can be counted position by position. -/
theorem count_eq_length_filter (c : Cube n) (l : Literal) :
    c.count l = ((List.range n).filter fun i ↦ c.value i == l).length := by
  cases l with
  | zero =>
    refine congrArg List.length (List.filter_congr fun i hi ↦ ?_)
    rw [Bool.eq_iff_iff, ← value_eq_zero_iff (List.mem_range.1 hi), beq_iff_eq]
  | one =>
    refine congrArg List.length (List.filter_congr fun i _ ↦ ?_)
    rw [Bool.eq_iff_iff, ← value_eq_one_iff, beq_iff_eq]
  | missing =>
    refine congrArg List.length (List.filter_congr fun i _ ↦ ?_)
    rw [Bool.eq_iff_iff, ← value_eq_missing_iff, beq_iff_eq]

theorem count_congr {c d : Cube n} {l : Literal}
    (h : ∀ i, i < n → (d.value i = l ↔ c.value i = l)) : d.count l = c.count l := by
  rw [count_eq_length_filter, count_eq_length_filter]
  refine congrArg List.length (List.filter_congr fun i hi ↦ ?_)
  rw [Bool.eq_iff_iff, beq_iff_eq, beq_iff_eq, h i (List.mem_range.1 hi)]

/-- A literal that one cube has at one more position is counted once more. -/
theorem count_eq_succ {c d : Cube n} {l : Literal} {i : Nat} (hi : i < n) (hd : d.value i = l)
    (hc : c.value i ≠ l) (h : ∀ j, j < n → j ≠ i → d.value j = c.value j) :
    d.count l = c.count l + 1 := by
  rw [count_eq_length_filter, count_eq_length_filter, ← List.length_cons (a := i)]
  refine List.Perm.length_eq ((List.perm_ext_iff_of_nodup ?_ ?_).2 fun j ↦ ?_)
  · exact List.nodup_range.filter _
  · refine List.nodup_cons.2 ⟨fun hmem ↦ hc ?_, List.nodup_range.filter _⟩
    exact beq_iff_eq.1 (List.mem_filter.1 hmem).2
  · rw [List.mem_cons, List.mem_filter, List.mem_filter, List.mem_range, beq_iff_eq, beq_iff_eq]
    constructor
    · rintro ⟨hj, hv⟩
      by_cases hji : j = i
      · exact Or.inl hji
      · exact Or.inr ⟨hj, h j hj hji ▸ hv⟩
    · rintro (rfl | ⟨hj, hv⟩)
      · exact ⟨hi, hd⟩
      · have hji : j ≠ i := fun hji ↦ hc (hji ▸ hv)
        exact ⟨hj, (h j hj hji).trans hv⟩

theorem count_le (c : Cube n) (l : Literal) : c.count l ≤ n := by
  rw [count_eq_length_filter]
  exact Nat.le_trans (List.length_filter_le _ _) (Nat.le_of_eq List.length_range)

theorem count_lt {c : Cube n} {l : Literal} {i : Nat} (hi : i < n) (h : c.value i ≠ l) :
    c.count l < n := by
  have hlt : ((List.range n).filter fun j ↦ c.value j == l).length < (List.range n).length :=
    List.length_filter_lt_length_iff_exists.2 ⟨i, List.mem_range.2 hi, by rwa [beq_iff_eq]⟩
  rwa [← count_eq_length_filter, List.length_range] at hlt

/-- There is a position with a literal that is counted. -/
theorem exists_value_eq {c : Cube n} {l : Literal} (h : 0 < c.count l) :
    ∃ i, i < n ∧ c.value i = l := by
  rw [count_eq_length_filter] at h
  obtain ⟨i, hi⟩ := List.exists_mem_of_length_pos h
  obtain ⟨hi, hv⟩ := List.mem_filter.1 hi
  exact ⟨i, List.mem_range.1 hi, beq_iff_eq.1 hv⟩

/-- Turning a literal round that is not counted makes one that is. -/
theorem count_flip {c : Cube n} {l : Literal} {i : Nat} (hi : i < n) (hm : c.value i ≠ .missing)
    (hl : l ≠ .missing) (h : c.value i ≠ l) : (c.flip i).count l = c.count l + 1 := by
  refine count_eq_succ hi ?_ h fun j _ hji ↦ value_flip_of_ne hi hji
  rw [value_flip_self hi]
  cases hv : c.value i with
  | zero => cases l with
    | zero => exact absurd hv h
    | one => rfl
    | missing => exact absurd rfl hl
  | one => cases l with
    | zero => rfl
    | one => exact absurd hv h
    | missing => exact absurd rfl hl
  | missing => exact absurd hv hm

theorem count_missing_flip {c : Cube n} {i : Nat} (hi : i < n) (hm : c.value i ≠ .missing) :
    (c.flip i).count .missing = c.count .missing := by
  refine count_congr fun j _ ↦ ?_
  by_cases hji : j = i
  · rw [hji]
    exact iff_of_false (value_flip_self_ne_missing hi) hm
  · rw [value_flip_of_ne hi hji]

theorem count_missing_free {c : Cube n} {i : Nat} (hi : i < n) (hm : c.value i ≠ .missing) :
    (c.free i).count .missing = c.count .missing + 1 := by
  refine count_eq_succ hi ?_ hm fun j _ hji ↦ ?_
  · rw [value_free hi, if_pos rfl]
  · rw [value_free hi, if_neg hji]

@[simp]
theorem count_missing_minterm (x : BitVec n) : (minterm x).count .missing = 0 :=
  Mask.count_eq_zero_iff.2 rfl

/-- A cube without missing positions is that of a point. -/
theorem eq_minterm_of_count_missing_eq_zero {c : Cube n} (h : c.count .missing = 0) :
    c = minterm c.literals :=
  ext_masks rfl (Mask.count_eq_zero_iff.1 h)

/-! ## Combining -/

/-- Two cubes with the same missing positions conflict where their literals differ. -/
theorem getLsbD_conflicts_of_missing_eq {c d : Cube n} (h : c.missing = d.missing) (i : Nat) :
    (c.conflicts d).getLsbD i = true ↔ c.value i ≠ d.value i := by
  rw [conflicts, Mask.getLsbD_diff, BitVec.getLsbD_xor, BitVec.getLsbD_or, value, value, h]
  cases hm : d.missing.getLsbD i with
  | true => simp
  | false => cases c.literals.getLsbD i <;> cases d.literals.getLsbD i <;> simp

theorem missing_flip {c : Cube n} {i : Nat} (hi : i < n) (hm : c.value i ≠ .missing) :
    (c.flip i).missing = c.missing := by
  refine BitVec.eq_of_getLsbD_eq fun j _ ↦ ?_
  rw [Bool.eq_iff_iff, ← value_eq_missing_iff, ← value_eq_missing_iff]
  by_cases hji : j = i
  · rw [hji]
    exact iff_of_false (value_flip_self_ne_missing hi) hm
  · rw [value_flip_of_ne hi hji]

/-- A cube conflicts with its neighbour at one position. -/
theorem conflicts_flip {c : Cube n} {i : Nat} (hi : i < n) (hm : c.value i ≠ .missing) :
    c.conflicts (c.flip i) = Mask.bit i := by
  refine BitVec.eq_of_getLsbD_eq fun j _ ↦ ?_
  rw [Bool.eq_iff_iff, getLsbD_conflicts_of_missing_eq (missing_flip hi hm).symm, Mask.getLsbD_bit,
    decide_eq_true hi, Bool.true_and, decide_eq_true_iff]
  refine ⟨fun hne ↦ ?_, ?_⟩
  · by_contra hij
    exact hne (value_flip_of_ne hi (Ne.symm hij)).symm
  · rintro rfl
    exact (value_flip_self_ne hi).symm

/-- Two cubes with the same missing positions that differ at one position are neighbours. -/
theorem eq_flip {c d : Cube n} {i : Nat} (hi : i < n) (h : c.missing = d.missing)
    (hne : c.value i ≠ d.value i) (heq : ∀ j, j < n → j ≠ i → c.value j = d.value j) :
    c.value i ≠ .missing ∧ d = c.flip i := by
  have hmissing : c.value i = .missing ↔ d.value i = .missing := by
    rw [value_eq_missing_iff, value_eq_missing_iff, h]
  refine ⟨fun hm ↦ hne (hm.trans (hmissing.1 hm).symm), ext_value fun j hj ↦ ?_⟩
  by_cases hji : j = i
  · rw [hji, value_flip_self hi]
    cases hc : c.value i <;> cases hd : d.value i <;> simp_all
  · rw [value_flip_of_ne hi hji, heq j hj hji]

/-- **Two cubes combine exactly when they are neighbours.** -/
theorem combine_eq_some_iff {c d e : Cube n} :
    c.combine d = some e ↔
      ∃ i, i < n ∧ c.value i ≠ .missing ∧ d = c.flip i ∧ e = c.free i := by
  rw [combine]
  refine ⟨fun h ↦ ?_, ?_⟩
  · obtain ⟨⟨hmissing, hcount⟩, he⟩ := Option.ite_none_right_eq_some.1 h
    cases he
    obtain ⟨i, hconf⟩ := Mask.count_eq_one_iff.1 hcount
    have hi : i < n := BitVec.lt_of_getLsbD ((hconf i).2 rfl)
    have hne := (getLsbD_conflicts_of_missing_eq hmissing i).1 ((hconf i).2 rfl)
    obtain ⟨hm, rfl⟩ := eq_flip hi hmissing hne fun j _ hji ↦ by
      by_contra hv
      exact hji ((hconf j).1 ((getLsbD_conflicts_of_missing_eq hmissing j).2 hv))
    rw [conflicts_flip hi hm]
    exact ⟨i, hi, hm, rfl, rfl⟩
  · rintro ⟨i, hi, hm, rfl, rfl⟩
    rw [conflicts_flip hi hm, if_pos, free]
    refine ⟨(missing_flip hi hm).symm, Mask.count_eq_one_iff.2 ⟨i, fun j ↦ ?_⟩⟩
    rw [Mask.getLsbD_bit, decide_eq_true hi, Bool.true_and, decide_eq_true_iff, eq_comm]

/-- The combined cube covers what either of the two covers. -/
theorem covers_free_iff_or {c : Cube n} {i : Nat} (hi : i < n) (hm : c.value i ≠ .missing)
    {x : BitVec n} :
    (c.free i).covers x = true ↔ c.covers x = true ∨ (c.flip i).covers x = true := by
  refine ⟨fun h ↦ ?_, ?_⟩
  · rw [covers_free_iff] at h
    -- which of the two it is depends on the point's value at the position
    by_cases hx : c.literals.getLsbD i = x.getLsbD i
    · refine Or.inl (covers_iff.2 fun j hj hjm ↦ ?_)
      by_cases hji : j = i
      · rw [hji, hx]
      · exact h j hj hji hjm
    · refine Or.inr (covers_iff.2 fun j hj hjm ↦ ?_)
      rw [missing_flip hi hm] at hjm
      by_cases hji : j = i
      · rw [hji, Bool.eq_iff_iff, ← value_eq_one_iff, value_flip_self hi]
        rw [Bool.eq_iff_iff, ← value_eq_one_iff] at hx
        cases hv : c.value i with
        | zero => simpa [hv] using hx
        | one => simpa [hv] using hx
        | missing => exact absurd hv hm
      · rw [← h j hj hji hjm, Bool.eq_iff_iff, ← value_eq_one_iff, value_flip_of_ne hi hji,
          value_eq_one_iff]
  · rintro (h | h)
    · exact contains_iff.1 (free_contains c i) x h
    · rw [← free_flip hi]
      exact contains_iff.1 (free_contains _ i) x h

theorem covers_of_combine {c d e : Cube n} (h : c.combine d = some e) (x : BitVec n) :
    e.covers x = true ↔ c.covers x = true ∨ d.covers x = true := by
  obtain ⟨i, hi, hm, rfl, rfl⟩ := combine_eq_some_iff.1 h
  exact covers_free_iff_or hi hm

/-- Each of two neighbours is the other's. -/
theorem combine_comm (c d : Cube n) : c.combine d = d.combine c := by
  have hswap : ∀ {c d e : Cube n}, c.combine d = some e → d.combine c = some e := by
    intro c d e h
    obtain ⟨i, hi, hm, rfl, rfl⟩ := combine_eq_some_iff.1 h
    refine combine_eq_some_iff.2 ⟨i, hi, value_flip_self_ne_missing hi, ?_, ?_⟩
    · exact (flip_flip hi hm).symm
    · exact (free_flip hi).symm
  exact Option.ext fun e ↦ ⟨hswap, hswap⟩

theorem missing_eq_iff {c d : Cube n} :
    c.missing = d.missing ↔ ∀ i, i < n → (c.value i = .missing ↔ d.value i = .missing) := by
  simp only [value_eq_missing_iff]
  refine ⟨fun h i _ ↦ by rw [h], fun h ↦ BitVec.eq_of_getLsbD_eq fun i hi ↦ ?_⟩
  exact Bool.eq_iff_iff.2 (h i hi)

/-- **Two cubes combine exactly when they have the same positions missing and differ in one.** -/
theorem isSome_combine_iff {c d : Cube n} :
    (c.combine d).isSome = true ↔
      (∀ i, i < n → (c.value i = .missing ↔ d.value i = .missing)) ∧
        ∃! i, i < n ∧ c.value i ≠ .missing ∧ c.value i ≠ d.value i := by
  rw [Option.isSome_iff_exists, ← missing_eq_iff]
  simp only [combine_eq_some_iff]
  constructor
  · rintro ⟨e, i, hi, hm, rfl, -⟩
    refine ⟨(missing_flip hi hm).symm, i, ⟨hi, hm, (value_flip_self_ne hi).symm⟩, ?_⟩
    rintro j ⟨-, -, hj⟩
    by_contra hji
    exact hj (value_flip_of_ne hi hji).symm
  · rintro ⟨hmissing, i, ⟨hi, hm, hne⟩, huniq⟩
    refine ⟨c.free i, i, hi, hm, (eq_flip hi hmissing hne fun j hj hji ↦ ?_).2, rfl⟩
    by_contra hv
    refine hji (huniq j ⟨hj, fun hjm ↦ hv ?_, hv⟩)
    rw [hjm, ((missing_eq_iff.1 hmissing) j hj).1 hjm]

/-- Where the same positions are missing, literals that differ are explicit and opposite. -/
theorem opposite_of_value_ne {c d : Cube n} {i : Nat} (h : c.missing = d.missing)
    (hv : c.value i ≠ d.value i) :
    c.missing.getLsbD i = false ∧ c.literals.getLsbD i ≠ d.literals.getLsbD i := by
  rw [value, value, h] at hv
  rw [h]
  cases hm : d.missing.getLsbD i with
  | true => simp [hm] at hv
  | false => exact ⟨rfl, fun hl ↦ hv (by rw [hl])⟩

/-- The union of two cubes that have opposite literals at two positions is not a cube: it would lack
the points of the one cube with the literal of the other at the second position. -/
theorem value_eq_of_covers {c d e : Cube n} (hmissing : c.missing = d.missing)
    (h : ∀ x, e.covers x = true ↔ c.covers x = true ∨ d.covers x = true) {i j : Nat} (hi : i < n)
    (hvi : c.value i ≠ d.value i) (hj : j < n) (hji : j ≠ i) : c.value j = d.value j := by
  by_contra hvj
  obtain ⟨hmi, hli⟩ := opposite_of_value_ne hmissing hvi
  obtain ⟨hmj, hlj⟩ := opposite_of_value_ne hmissing hvj
  have hc : e.covers c.literals = true := (h _).2 (Or.inl c.covers_literals)
  have hd : e.covers d.literals = true := (h _).2 (Or.inr d.covers_literals)
  have hej : e.missing.getLsbD j = true := by
    by_contra hej
    rw [Bool.not_eq_true] at hej
    exact hlj ((covers_iff.1 hc j hj hej).symm.trans (covers_iff.1 hd j hj hej))
  rcases (h _).1 (covers_xor_bit hc hej) with hcx | hdx
  · simpa [hj] using covers_iff.1 hcx j hj hmj
  · have hdi := covers_iff.1 hdx i hi (hmissing ▸ hmi)
    rw [Mask.getLsbD_xor_bit_of_ne _ (Ne.symm hji)] at hdi
    exact hli hdi.symm

/-- **A cube that is the union of two with the same positions missing is what they combine to.** -/
theorem combine_eq_some_of_covers {c d e : Cube n} (hne : c ≠ d) (hmissing : c.missing = d.missing)
    (h : ∀ x, e.covers x = true ↔ c.covers x = true ∨ d.covers x = true) :
    c.combine d = some e := by
  obtain ⟨i, hi, hvi⟩ : ∃ i, i < n ∧ c.value i ≠ d.value i := by
    by_contra hno
    exact hne (ext_value fun i hi ↦ by_contra fun hv ↦ hno ⟨i, hi, hv⟩)
  obtain ⟨hm, rfl⟩ := eq_flip hi hmissing hvi fun j hj hji ↦
    value_eq_of_covers hmissing h hi hvi hj hji
  have hcombine : c.combine (c.flip i) = some (c.free i) :=
    combine_eq_some_iff.2 ⟨i, hi, hm, rfl, rfl⟩
  rw [hcombine, ext_covers fun x ↦ (covers_of_combine hcombine x).trans (h x).symm]

/-- **What two neighbours combine to is an implicant exactly when both are.** -/
theorem isImplicant_free_iff {p : BitVec n → Prop} {c : Cube n} {i : Nat} (hi : i < n)
    (hm : c.value i ≠ .missing) :
    (c.free i).IsImplicant p ↔ c.IsImplicant p ∧ (c.flip i).IsImplicant p := by
  simp only [IsImplicant, covers_free_iff_or hi hm]
  exact ⟨fun h ↦ ⟨fun x hx ↦ h x (Or.inl hx), fun x hx ↦ h x (Or.inr hx)⟩,
    fun h x hx ↦ hx.elim (h.1 x) (h.2 x)⟩

end TwoLevel.Cube
