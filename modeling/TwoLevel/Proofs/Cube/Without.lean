import TwoLevel.Proofs.Cube.Neighbour
import Mathlib.Data.List.Forall2
import Mathlib.Tactic.ByContra

/-!
# A cube less one point

`Cube.without c x` takes a point out of a cube that covers it.  The parts are made by going through
the missing positions: each part turns away from the point at one of them, agrees with it at those
before, and leaves those after open (`IsPartAround`).  So a point of the cube is in some part
exactly when it differs from `x` at a missing position, and a point of the cube that differs from
`x` nowhere else is `x` (`covers_without`).  It is in one part only, that of the first position at
which it differs, since every later part agrees with `x` there (`disjoint_without`).

`Cube.outside` is the same without asking whether the point is covered: a cube that does not cover
it stays whole.
-/

set_option autoImplicit false

namespace TwoLevel.Cube

variable {n : Nat}

/-! ## One position set -/

theorem getLsbD_missing_assign (c : Cube n) {i : Nat} (hi : i < n) (v : Bool) (j : Nat) :
    (c.assign i v).missing.getLsbD j = (c.missing.getLsbD j && !decide (i = j)) := by
  rw [assign, missing_ofMasks, Mask.getLsbD_diff, Mask.getLsbD_bit, decide_eq_true hi,
    Bool.true_and]

theorem getLsbD_literals_assign_self (c : Cube n) {i : Nat} (hi : i < n) (v : Bool) :
    (c.assign i v).literals.getLsbD i = v := by
  cases v <;> simp [assign, hi]

theorem getLsbD_literals_assign_of_ne (c : Cube n) {i j : Nat} (h : i ≠ j) (v : Bool) :
    (c.assign i v).literals.getLsbD j = c.literals.getLsbD j := by
  cases hm : c.missing.getLsbD j with
  | false => cases v <;> simp [assign, h, hm]
  | true => cases v <;> simp [assign, h, hm, literals_eq_false hm]

/-- Setting a missing position leaves the points with that value there. -/
theorem covers_assign {c : Cube n} {i : Nat} (hm : c.missing.getLsbD i = true) {v : Bool}
    {y : BitVec n} : (c.assign i v).covers y = true ↔ c.covers y = true ∧ y.getLsbD i = v := by
  have hi : i < n := BitVec.lt_of_getLsbD hm
  rw [covers_iff, covers_iff]
  refine ⟨fun h ↦ ⟨fun j hj hmj ↦ ?_, ?_⟩, ?_⟩
  · have hij : i ≠ j := by
      rintro rfl
      exact absurd (hm.symm.trans hmj) (by decide)
    have hmj' : (c.assign i v).missing.getLsbD j = false := by
      rw [getLsbD_missing_assign c hi, hmj, Bool.false_and]
    rw [← h j hj hmj', getLsbD_literals_assign_of_ne c hij]
  · have hmi : (c.assign i v).missing.getLsbD i = false := by
      rw [getLsbD_missing_assign c hi, decide_eq_true rfl, Bool.not_true, Bool.and_false]
    rw [← h i hi hmi, getLsbD_literals_assign_self c hi]
  · rintro ⟨h, hv⟩ j hj hmj
    by_cases hij : i = j
    · rw [← hij, getLsbD_literals_assign_self c hi, hv]
    · rw [getLsbD_missing_assign c hi, decide_eq_false hij, Bool.not_false, Bool.and_true] at hmj
      rw [getLsbD_literals_assign_of_ne c hij, h j hj hmj]

/-! ## The parts around a point -/

/-- Other missing positions are still missing once one position is set. -/
theorem missing_assign_of_mem {is : List Nat} {c : Cube n} {i : Nat} {v : Bool}
    (hmi : c.missing.getLsbD i = true) (hi : i ∉ is) (hm : ∀ j ∈ is, c.missing.getLsbD j = true) :
    ∀ j ∈ is, (c.assign i v).missing.getLsbD j = true := by
  intro j hj
  have hij : i ≠ j := fun h ↦ hi (h ▸ hj)
  rw [getLsbD_missing_assign c (BitVec.lt_of_getLsbD hmi), hm j hj, decide_eq_false hij]
  rfl

/-- The parts for some of the missing positions cover what differs from the point at one of them. -/
theorem covers_withoutFrom {is : List Nat} {c : Cube n} {x y : BitVec n} (hnodup : is.Nodup)
    (hm : ∀ i ∈ is, c.missing.getLsbD i = true) :
    Cover.covers (withoutFrom x is c) y = true ↔
      c.covers y = true ∧ ∃ i ∈ is, y.getLsbD i ≠ x.getLsbD i := by
  induction is generalizing c with
  | nil =>
    rw [withoutFrom, Cover.covers_nil]
    refine iff_of_false Bool.false_ne_true ?_
    rintro ⟨_, i, hi, _⟩
    exact List.not_mem_nil hi
  | cons i is ih =>
    obtain ⟨hi, hnodup⟩ := List.nodup_cons.1 hnodup
    have hmi : c.missing.getLsbD i = true := hm i List.mem_cons_self
    have hrest : ∀ j ∈ is, (c.assign i (x.getLsbD i)).missing.getLsbD j = true :=
      missing_assign_of_mem hmi hi fun j hj ↦ hm j (List.mem_cons_of_mem i hj)
    rw [withoutFrom, Cover.covers_cons, Bool.or_eq_true, ih hnodup hrest, covers_assign hmi,
      covers_assign hmi, Bool.eq_not]
    simp only [List.mem_cons, exists_eq_or_imp]
    refine ⟨?_, ?_⟩
    · rintro (⟨hy, hne⟩ | ⟨⟨hy, _⟩, hj⟩)
      · exact ⟨hy, Or.inl hne⟩
      · exact ⟨hy, Or.inr hj⟩
    · rintro ⟨hy, hne⟩
      by_cases hyi : y.getLsbD i = x.getLsbD i
      · exact Or.inr ⟨⟨hy, hyi⟩, hne.resolve_left (not_not_intro hyi)⟩
      · exact Or.inl ⟨hy, hyi⟩

/-- **The parts of a cube around one of its points cover the other points.** -/
theorem covers_without {c : Cube n} {x y : BitVec n} (hx : c.covers x = true) :
    Cover.covers (c.without x) y = true ↔ c.covers y = true ∧ y ≠ x := by
  rw [without, covers_withoutFrom (Mask.positions_nodup _) fun i hi ↦ Mask.mem_positions.1 hi]
  refine and_congr_right fun hy ↦ ⟨?_, fun hne ↦ ?_⟩
  · rintro ⟨i, _, hi⟩ rfl
    exact hi rfl
  · by_contra hagree
    refine hne (BitVec.eq_of_getLsbD_eq fun i hi ↦ ?_)
    cases hm : c.missing.getLsbD i with
    | false => rw [← covers_iff.1 hy i hi hm, covers_iff.1 hx i hi hm]
    | true => exact by_contra fun hi ↦ hagree ⟨i, Mask.mem_positions.2 hm, hi⟩

/-- No point is in two parts. -/
theorem disjoint_withoutFrom {is : List Nat} {c : Cube n} {x : BitVec n} (hnodup : is.Nodup)
    (hm : ∀ i ∈ is, c.missing.getLsbD i = true) :
    (withoutFrom x is c).Pairwise fun a b ↦ ∀ y, ¬(a.covers y = true ∧ b.covers y = true) := by
  induction is generalizing c with
  | nil => exact List.Pairwise.nil
  | cons i is ih =>
    obtain ⟨hi, hnodup'⟩ := List.nodup_cons.1 hnodup
    have hmi : c.missing.getLsbD i = true := hm i List.mem_cons_self
    have hrest : ∀ j ∈ is, (c.assign i (x.getLsbD i)).missing.getLsbD j = true :=
      missing_assign_of_mem hmi hi fun j hj ↦ hm j (List.mem_cons_of_mem i hj)
    refine List.pairwise_cons.2 ⟨fun b hb y ↦ ?_, ih hnodup' hrest⟩
    rintro ⟨ha, hby⟩
    -- the head turns away from `x` at position `i`, and what comes after has been set as in `x`
    have hturned : y.getLsbD i = !x.getLsbD i := ((covers_assign hmi).1 ha).2
    have hcovers : Cover.covers (withoutFrom x is (c.assign i (x.getLsbD i))) y = true :=
      Cover.covers_iff.2 ⟨b, hb, hby⟩
    have hagrees := ((covers_assign hmi).1 ((covers_withoutFrom hnodup' hrest).1 hcovers).1).2
    rw [hagrees, Bool.eq_not] at hturned
    exact hturned rfl

/-- **The parts of a cube around a point have no point in common**, any two of them. -/
theorem disjoint_without (c : Cube n) (x : BitVec n) :
    (c.without x).Pairwise fun a b ↦ ∀ y, ¬(a.covers y = true ∧ b.covers y = true) :=
  disjoint_withoutFrom (Mask.positions_nodup _) fun _ hi ↦ Mask.mem_positions.1 hi

/-- No part is made twice. -/
theorem nodup_without (c : Cube n) (x : BitVec n) : (c.without x).Nodup := by
  refine (disjoint_without c x).imp ?_
  rintro a _ hdisjoint rfl
  exact hdisjoint a.literals ⟨a.covers_literals, a.covers_literals⟩

-- `0--` less `000` is `0-1` and `010`
example : (ofMasks 0#3 3#3).without 0#3 = [ofMasks 1#3 2#3, ofMasks 2#3 0#3] := by decide

/-- A cube is the part of another around a point that belongs to a missing position. -/
structure IsPartAround (c : Cube n) (x : BitVec n) (position : Nat) (d : Cube n) : Prop where
  /-- It turns away from the point at the position. -/
  value_self : d.value position = if x.getLsbD position then .zero else .one
  /-- It agrees with the point at the missing positions before. -/
  value_before : ∀ j, j < position → c.value j = .missing →
    d.value j = if x.getLsbD j then .one else .zero
  /-- Everywhere else it is as the cube was. -/
  value_else : ∀ j, j ≠ position → (c.value j = .missing → position < j) → d.value j = c.value j

/-- The first part turns away at the first position and changes nothing else. -/
theorem isPartAround_assign {c : Cube n} {x : BitVec n} {i : Nat} (hi : i < n)
    (hfirst : ∀ j, c.value j = .missing → i ≤ j) :
    c.IsPartAround x i (c.assign i (!x.getLsbD i)) where
  value_self := by
    rw [value_assign hi, if_pos rfl]
    cases x.getLsbD i <;> rfl
  value_before j hj hm := absurd (hfirst j hm) (Nat.not_le.2 hj)
  value_else j hji _ := by rw [value_assign hi, if_neg hji]

/-- A part of the cube with the first position set as in the point is a part of the cube. -/
theorem IsPartAround.of_assign {c d : Cube n} {x : BitVec n} {i p : Nat} (hi : i < n)
    (hm : c.value i = .missing) (hip : i < p) (h : (c.assign i (x.getLsbD i)).IsPartAround x p d) :
    c.IsPartAround x p d where
  value_self := h.value_self
  value_before j hj hmj := by
    by_cases hji : j = i
    · rw [hji, h.value_else i (Nat.ne_of_lt hip), value_assign hi, if_pos rfl]
      rw [value_assign hi, if_pos rfl]
      cases x.getLsbD i <;> exact nofun
    · refine h.value_before j hj ?_
      rw [value_assign hi, if_neg hji, hmj]
  value_else j hjp hmj := by
    have hji : j ≠ i := by
      rintro rfl
      exact Nat.lt_asymm hip (hmj hm)
    have hvalue : (c.assign i (x.getLsbD i)).value j = c.value j := by
      rw [value_assign hi, if_neg hji]
    rw [h.value_else j hjp fun hmissing ↦ hmj (hvalue.symm.trans hmissing), hvalue]

theorem isPartAround_withoutFrom {is : List Nat} {c : Cube n} {x : BitVec n}
    (hincreasing : is.Pairwise (· < ·)) (hm : ∀ i, c.value i = .missing ↔ i ∈ is) :
    List.Forall₂ (c.IsPartAround x) is (withoutFrom x is c) := by
  induction is generalizing c with
  | nil => exact List.Forall₂.nil
  | cons i is ih =>
    obtain ⟨hbelow, hincreasing⟩ := List.pairwise_cons.1 hincreasing
    have hmi : c.value i = .missing := (hm i).2 List.mem_cons_self
    have hi : i < n := BitVec.lt_of_getLsbD (value_eq_missing_iff.1 hmi)
    refine List.Forall₂.cons (isPartAround_assign hi fun j hj ↦ ?_) ?_
    · rcases List.mem_cons.1 ((hm j).1 hj) with rfl | hj
      · exact Nat.le_refl _
      · exact Nat.le_of_lt (hbelow j hj)
    · have hrest : ∀ j, (c.assign i (x.getLsbD i)).value j = .missing ↔ j ∈ is := by
        intro j
        rw [value_assign hi]
        by_cases hji : j = i
        · rw [if_pos hji, hji]
          refine iff_of_false ?_ fun hmem ↦ Nat.lt_irrefl i (hbelow i hmem)
          cases x.getLsbD i <;> exact nofun
        · rw [if_neg hji, hm, List.mem_cons, or_iff_right hji]
      have hparts := (List.forall₂_and_left is _).2 ⟨hbelow, ih hincreasing hrest⟩
      exact hparts.imp fun p d h ↦ h.2.of_assign hi hmi h.1

/-- **There is one part for every missing position**, in the order of the positions. -/
theorem isPartAround_without (c : Cube n) (x : BitVec n) :
    List.Forall₂ (c.IsPartAround x) (Mask.positions c.missing) (c.without x) :=
  isPartAround_withoutFrom (Mask.positions_increasing _) fun i ↦ by
    rw [value_eq_missing_iff, Mask.mem_positions]

/-- Of a cube without missing positions nothing is left. -/
theorem without_of_missing_eq_zero {c : Cube n} (h : c.missing = 0#n) (x : BitVec n) :
    c.without x = [] := by
  rw [without, h, Mask.positions_eq_nil_iff.2 rfl]
  rfl

/-! ## What is left of a cube -/

/-- The cubes that are left of a cube when a point is taken out of it, if it is there. -/
def outside (c : Cube n) (x : BitVec n) : Cover n := if c.covers x then c.without x else [c]

theorem outside_of_covers {c : Cube n} {x : BitVec n} (h : c.covers x = true) :
    c.outside x = c.without x :=
  if_pos h

theorem outside_of_not_covers {c : Cube n} {x : BitVec n} (h : c.covers x = false) :
    c.outside x = [c] :=
  if_neg (Bool.eq_false_iff.1 h)

theorem covers_outside {c : Cube n} {x y : BitVec n} :
    (c.outside x).covers y = true ↔ c.covers y = true ∧ y ≠ x := by
  cases hx : c.covers x with
  | true => rw [outside_of_covers hx, covers_without hx]
  | false =>
    rw [outside_of_not_covers hx, Cover.covers_cons, Cover.covers_nil, Bool.or_false]
    refine (and_iff_left_of_imp ?_).symm
    rintro hy rfl
    exact Bool.false_ne_true (hx.symm.trans hy)

end TwoLevel.Cube
