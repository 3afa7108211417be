import TwoLevel.Cover.ComplementCube
import TwoLevel.Proofs.Cover.Tautology

/-!
# The least cube around a set of points

A cube is the least one around a set of points when it covers them and each of its missing positions
is needed, because both values occur there in the set.  `Cube.IsHull` says this of an optional cube,
none being right for the empty set only.

The recursion that finds the least cube around the complement of a cover is put together from
operations on hulls, and each has one lemma:

* `isHull_joinParts`, the hull of a union;
* `IsHull.bind_inter`, the hull of the part of a set inside a cube, from the hull of what the cube
  leaves open of it;
* `isHull_unateComplementCube`, the hull of what a unate cover misses.

The main statement is `Cover.isHull_complementCube`.
-/

set_option autoImplicit false

namespace TwoLevel

variable {n : Nat}

namespace Cube

/-! ## Hulls -/

/-- The least cube around a set of points, if there are any. -/
def IsHull (p : BitVec n → Prop) : Option (Cube n) → Prop
  | none => ∀ x, ¬ p x
  | some c => (∃ x, p x) ∧ (∀ x, p x → c.covers x = true) ∧
      ∀ i, i < n → c.missing.getLsbD i = true → ∀ v, ∃ x, p x ∧ x.getLsbD i = v

variable {p q : BitVec n → Prop}

/-- **A hull is contained in every cube around the set.** -/
theorem IsHull.contains {c d : Cube n} (h : IsHull p (some c))
    (hd : ∀ x, p x → d.covers x = true) : d.contains c = true := by
  obtain ⟨⟨x, hx⟩, hcov, hboth⟩ := h
  rw [contains_iff_forall_position]
  intro i hi hdm
  cases hcm : c.missing.getLsbD i with
  | false => exact ⟨rfl, by rw [covers_iff.1 (hd x hx) i hi hdm, covers_iff.1 (hcov x hx) i hi hcm]⟩
  | true =>
    obtain ⟨y, hy, hyv⟩ := hboth i hi hcm (!d.literals.getLsbD i)
    have hdy := covers_iff.1 (hd y hy) i hi hdm
    rw [hyv] at hdy
    cases hl : d.literals.getLsbD i <;> simp [hl] at hdy

/-- A cube is the least around a set of points when it covers them and lies in every cube that
does. -/
structure IsLeastAround (p : BitVec n → Prop) (c : Cube n) : Prop where
  /-- It covers the points. -/
  covers : ∀ x, p x → c.covers x = true
  /-- It lies in every cube that covers them. -/
  contained : ∀ d : Cube n, (∀ x, p x → d.covers x = true) → d.contains c = true

theorem IsHull.isLeastAround {c : Cube n} (h : IsHull p (some c)) : IsLeastAround p c where
  covers := h.2.1
  contained _ hd := h.contains hd

/-- A hull stays one when points of it join the set. -/
theorem IsHull.mono {c : Cube n} (h : IsHull p (some c)) (hpq : ∀ x, p x → q x)
    (hq : ∀ x, q x → c.covers x = true) : IsHull q (some c) := by
  obtain ⟨hne, _, hboth⟩ := h
  refine ⟨hne.imp hpq, hq, fun i hi hm v ↦ ?_⟩
  obtain ⟨x, hx, hxv⟩ := hboth i hi hm v
  exact ⟨x, hpq x hx, hxv⟩

theorem IsHull.congr {o : Option (Cube n)} (h : IsHull p o) (hpq : ∀ x, p x ↔ q x) :
    IsHull q o := by
  rwa [← funext fun x ↦ propext (hpq x)]

theorem isHull_full (hp : ∀ x, p x) : IsHull p (some (full n)) := by
  refine ⟨⟨0#n, hp _⟩, fun x _ ↦ covers_full x, fun i hi _ v ↦ ?_⟩
  obtain ⟨x, hx⟩ := Cover.exists_point n fun _ ↦ v
  exact ⟨x, hp x, hx i hi⟩

theorem getLsbD_missing_supercube (a b : Cube n) (i : Nat) :
    (a.supercube b).missing.getLsbD i = (a.missing.getLsbD i || b.missing.getLsbD i ||
      (a.literals.getLsbD i ^^ b.literals.getLsbD i)) := by
  rw [supercube, missing_ofMasks, BitVec.getLsbD_or, BitVec.getLsbD_or, BitVec.getLsbD_xor]

theorem supercube_contains_left (a b : Cube n) : (a.supercube b).contains a = true := by
  rw [contains_iff_forall_position]
  intro i _ hm
  have hlit : (a.supercube b).literals.getLsbD i = a.literals.getLsbD i := by
    rw [supercube, getLsbD_literals_ofMasks]
    rw [supercube, missing_ofMasks] at hm
    rw [hm, Bool.not_false, Bool.and_true]
  rw [getLsbD_missing_supercube, Bool.or_eq_false_iff, Bool.or_eq_false_iff] at hm
  exact ⟨hm.1.1, hlit⟩

theorem supercube_contains_right (a b : Cube n) : (a.supercube b).contains b = true := by
  have ha := contains_iff_forall_position.1 (supercube_contains_left a b)
  rw [contains_iff_forall_position]
  intro i hi hm
  have hlit := (ha i hi hm).2
  rw [getLsbD_missing_supercube, Bool.or_eq_false_iff, Bool.or_eq_false_iff] at hm
  refine ⟨hm.1.2, hlit.trans ?_⟩
  simpa using hm.2

/-- The least cube around two sets. -/
theorem isHull_supercube {a b : Cube n} (ha : IsHull p (some a)) (hb : IsHull q (some b)) :
    IsHull (fun x ↦ p x ∨ q x) (some (a.supercube b)) := by
  obtain ⟨⟨x, hx⟩, hacov, haboth⟩ := ha
  obtain ⟨⟨y, hy⟩, hbcov, hbboth⟩ := hb
  refine ⟨⟨x, Or.inl hx⟩, ?_, fun i hi hm v ↦ ?_⟩
  · rintro z (hz | hz)
    · exact contains_iff.1 (supercube_contains_left a b) z (hacov z hz)
    · exact contains_iff.1 (supercube_contains_right a b) z (hbcov z hz)
  · rw [getLsbD_missing_supercube, Bool.or_eq_true, Bool.or_eq_true] at hm
    -- either one of the two needs the position, or the two have opposite literals there
    by_cases ham : a.missing.getLsbD i = true
    · obtain ⟨z, hz, hzv⟩ := haboth i hi ham v
      exact ⟨z, Or.inl hz, hzv⟩
    · by_cases hbm : b.missing.getLsbD i = true
      · obtain ⟨z, hz, hzv⟩ := hbboth i hi hbm v
        exact ⟨z, Or.inr hz, hzv⟩
      · have hab : (a.literals.getLsbD i ^^ b.literals.getLsbD i) = true :=
          hm.resolve_left fun h ↦ h.elim ham hbm
        have hax := covers_iff.1 (hacov x hx) i hi (by simpa using ham)
        have hby := covers_iff.1 (hbcov y hy) i hi (by simpa using hbm)
        rw [hax, hby] at hab
        by_cases hxv : x.getLsbD i = v
        · exact ⟨x, Or.inl hx, hxv⟩
        · have hyx : y.getLsbD i ≠ x.getLsbD i := (bne_iff_ne.1 hab).symm
          refine ⟨y, Or.inr hy, ?_⟩
          rw [Bool.eq_not_of_ne hyx, Bool.eq_not_of_ne hxv, Bool.not_not]

theorem inter_comm (c d : Cube n) : c.inter d = d.inter c := by
  rw [inter, inter, conflicts, conflicts, BitVec.xor_comm, BitVec.or_comm c.missing,
    BitVec.or_comm c.literals, BitVec.and_comm c.missing]

/-- **The part of a set inside a cube** has for its hull the part inside the cube of the hull of
what the cube leaves open. -/
theorem IsHull.bind_inter {o : Option (Cube n)} {h : Cube n}
    (ho : IsHull (fun x ↦ p (h.clamp x)) o) :
    IsHull (fun x ↦ p x ∧ h.covers x = true) (o.bind (·.inter h)) := by
  cases o with
  | none =>
    rintro x ⟨hx, hcov⟩
    refine ho x ?_
    show p (h.clamp x)
    rwa [clamp_eq_self hcov]
  | some c =>
    obtain ⟨⟨x, hx⟩, hcov, hboth⟩ := ho
    have hin : ∀ y, p y → h.covers y = true → c.covers y = true := by
      intro y hy hhy
      refine hcov y ?_
      show p (h.clamp y)
      rwa [clamp_eq_self hhy]
    have hx' : c.covers (h.clamp x) = true := hin _ hx (h.covers_clamp x)
    obtain ⟨e, he, _⟩ := covers_inter.2 ⟨hx', h.covers_clamp x⟩
    rw [Option.bind_some, he]
    refine ⟨⟨h.clamp x, hx, h.covers_clamp x⟩, ?_, fun i hi hm v ↦ ?_⟩
    · rintro y ⟨hy, hhy⟩
      exact (covers_of_inter he y).2 ⟨hin y hy hhy, hhy⟩
    · have hmm : c.missing.getLsbD i = true ∧ h.missing.getLsbD i = true := by
        rw [inter] at he
        split at he
        · cases he
          rwa [missing_ofMasks, BitVec.getLsbD_and, Bool.and_eq_true] at hm
        · cases he
      obtain ⟨y, hy, hyv⟩ := hboth i hi hmm.1 v
      refine ⟨h.clamp y, ⟨hy, h.covers_clamp y⟩, ?_⟩
      rw [getLsbD_clamp_of_missing hmm.2, hyv]

/-! ## Negated cubes -/

/-- A point is in the negated cube when it has the opposite value at every explicit position. -/
theorem covers_negate_iff {c : Cube n} {x : BitVec n} :
    c.negate.covers x = true ↔ ∀ i, i < n → c.missing.getLsbD i = false →
      c.literals.getLsbD i ≠ x.getLsbD i := by
  rw [covers_iff, negate]
  refine forall_congr' fun i ↦ forall_congr' fun hi ↦ forall_congr' fun hm ↦ ?_
  rw [missing_ofMasks] at hm
  rw [getLsbD_literals_ofMasks, getLsbD_zeros, hm, decide_eq_true hi]
  cases c.literals.getLsbD i <;> cases x.getLsbD i <;> simp

theorem literalCount_eq_one_iff {c : Cube n} :
    c.literalCount = 1 ↔ ∃ i, i < n ∧ c.missing.getLsbD i = false ∧
      ∀ j, j < n → c.missing.getLsbD j = false → j = i := by
  rw [literalCount, Mask.count_eq_one_iff]
  simp only [getLsbD_care, Bool.and_eq_true, decide_eq_true_eq, Bool.not_eq_true']
  refine exists_congr fun i ↦ ⟨fun h ↦ ?_, ?_⟩
  · exact ⟨((h i).2 rfl).1, ((h i).2 rfl).2, fun j hj hm ↦ (h j).1 ⟨hj, hm⟩⟩
  · rintro ⟨hi, hm, honly⟩ j
    refine ⟨fun hj ↦ honly j hj.1 hj.2, ?_⟩
    rintro rfl
    exact ⟨hi, hm⟩

/-- A point is missed by a cube with one literal exactly when the negated cube covers it. -/
theorem covers_negate_of_literalCount_eq_one {c : Cube n} (h : c.literalCount = 1) (x : BitVec n) :
    c.negate.covers x = !c.covers x := by
  obtain ⟨i, hi, hm, honly⟩ := literalCount_eq_one_iff.1 h
  rw [Bool.eq_iff_iff, covers_negate_iff, Bool.not_eq_true', ← Bool.not_eq_true, covers_iff]
  refine ⟨fun hneg hcov ↦ ?_, fun hcov j hj hjm heq ↦ ?_⟩
  · exact hneg i hi hm (hcov i hi hm)
  · refine hcov fun k hk hkm ↦ ?_
    rw [honly k hk hkm, ← honly j hj hjm, heq]

end Cube

namespace Cover

open TwoLevel.Cube

/-! ## Unate covers -/

/-- Cubes that meet in a point can be intersected one after the other. -/
theorem covers_foldl_inter {cs : List (Cube n)} {acc : Cube n} {x : BitVec n}
    (hacc : acc.covers x = true) (hcs : ∀ c ∈ cs, c.negate.covers x = true) (y : BitVec n) :
    (cs.foldl (fun acc c ↦ (acc.inter c.negate).getD acc) acc).covers y = true ↔
      acc.covers y = true ∧ ∀ c ∈ cs, c.negate.covers y = true := by
  induction cs generalizing acc with
  | nil => simp
  | cons c cs ih =>
    obtain ⟨e, he, hex⟩ := covers_inter.2 ⟨hacc, hcs c List.mem_cons_self⟩
    rw [List.foldl_cons, he, Option.getD_some, ih hex fun d hd ↦ hcs d (List.mem_cons_of_mem _ hd),
      covers_of_inter he, List.forall_mem_cons, and_assoc]

/-- The negated one-literal cubes of a unate cover meet in the points that those cubes miss. -/
theorem covers_unateComplementCube_iff {f : Cover n} {x : BitVec n} (hx : f.Against x)
    (y : BitVec n) : f.unateComplementCube.covers y = true ↔
      ∀ c ∈ f, c.literalCount = 1 → c.covers y = false := by
  have hagainst : ∀ c ∈ f.filter (fun c ↦ c.literalCount == 1), c.negate.covers x = true := by
    intro c hc
    exact covers_negate_iff.2 (hx c (List.mem_filter.1 hc).1)
  rw [unateComplementCube, covers_foldl_inter (covers_full x) hagainst,
    and_iff_right (covers_full y)]
  refine forall_congr' fun c ↦ ?_
  rw [List.mem_filter, beq_iff_eq, and_imp]
  refine forall_congr' fun _ ↦ forall_congr' fun hone ↦ ?_
  rw [covers_negate_of_literalCount_eq_one hone, Bool.not_eq_true']

/-- Where the least cube of a unate cover needs no literal, the mirror image of a point against the
cover is missed, too. -/
theorem Against.not_covers_mirror {f : Cover n} {x : BitVec n} (hx : f.Against x)
    (hfull : f.any Cube.isFull = false) {i : Nat}
    (hm : f.unateComplementCube.missing.getLsbD i = true) :
    f.covers (x ^^^ Mask.bit i) = false := by
  have hux : f.unateComplementCube.covers x = true :=
    (covers_unateComplementCube_iff hx x).2 fun c hc _ ↦
      covers_eq_false_iff.1 (hx.not_covers hfull) c hc
  have hcube := covers_xor_bit hux hm
  refine covers_eq_false_iff.2 fun c hc ↦ ?_
  rw [← Bool.not_eq_true]
  intro hcov
  -- a cube that covers the mirror image has its only literal at the position
  have hother : ∀ j, j < n → c.missing.getLsbD j = false → j = i := by
    intro j hj hjm
    by_contra hji
    refine hx c hc j hj hjm ?_
    rw [Cube.covers_iff.1 hcov j hj hjm, Mask.getLsbD_xor_bit_of_ne _ hji]
  obtain ⟨j, hj, hjm⟩ := exists_explicit_of_any_isFull_eq_false hfull hc
  have hone : c.literalCount = 1 :=
    literalCount_eq_one_iff.2 ⟨j, hj, hjm, fun k hk hkm ↦ by rw [hother k hk hkm, hother j hj hjm]⟩
  have hmissed := (covers_unateComplementCube_iff hx _).1 hcube c hc hone
  rw [hcov] at hmissed
  exact absurd hmissed (by decide)

/-- **The negated one-literal cubes of a unate cover meet in the hull of what it misses.** -/
theorem isHull_unateComplementCube {f : Cover n} (hu : f.isUnate = true)
    (hfull : f.any Cube.isFull = false) :
    IsHull (fun x ↦ f.covers x = false) (some f.unateComplementCube) := by
  obtain ⟨x, hx⟩ := exists_against_of_isUnate hu
  refine ⟨⟨x, hx.not_covers hfull⟩, fun y hy ↦ ?_, fun i hi hm v ↦ ?_⟩
  · rw [covers_unateComplementCube_iff hx]
    exact fun c hc _ ↦ covers_eq_false_iff.1 hy c hc
  · by_cases hxv : x.getLsbD i = v
    · exact ⟨x, hx.not_covers hfull, hxv⟩
    · refine ⟨x ^^^ Mask.bit i, hx.not_covers_mirror hfull hm, ?_⟩
      rw [BitVec.getLsbD_xor, Mask.getLsbD_bit, decide_eq_true hi, decide_eq_true rfl,
        Bool.and_self, Bool.xor_true, Bool.eq_not_of_ne hxv, Bool.not_not]

/-! ## The recursion -/

theorem isHull_joinParts {p q : BitVec n → Prop} {a b : Option (Cube n)} (ha : IsHull p a)
    (hb : IsHull q b) : IsHull (fun x ↦ p x ∨ q x) (joinParts a b) := by
  cases a with
  | none => exact hb.congr fun x ↦ (or_iff_right (ha x)).symm
  | some a =>
    cases b with
    | none => exact ha.congr fun x ↦ (or_iff_left (hb x)).symm
    | some b => exact isHull_supercube ha hb

theorem isUnate_of_binateSelect_eq_none {f : Cover n} (h : f.binateSelect = none) :
    f.isUnate = true := by
  rw [binateSelect, Option.map_eq_none_iff, firstBest_eq_none_iff, List.map_eq_nil_iff] at h
  rw [isUnate, h]
  rfl

/-- One half of the recursion: the hull of what is missed inside a cube. -/
theorem isHull_inter_of_cofactor {f : Cover n} {h : Cube n} {o : Option (Cube n)}
    (ho : IsHull (fun x ↦ (f.cofactor h).covers x = false) o) :
    IsHull (fun x ↦ f.covers x = false ∧ h.covers x = true) (o.bind (·.inter h)) := by
  refine IsHull.bind_inter (ho.congr fun x ↦ ?_)
  rw [covers_cofactor_clamp]

/-- **The least cube around what a cover misses.** -/
theorem isHull_complementCube (f : Cover n) :
    IsHull (fun x ↦ f.covers x = false) f.complementCube := by
  fun_induction complementCube f with
  | case1 f hf =>
    rw [List.isEmpty_iff.1 hf]
    exact isHull_full fun x ↦ rfl
  | case2 f _ hfull =>
    intro x hx
    obtain ⟨c, hc, hcf⟩ := List.any_eq_true.1 hfull
    have := covers_eq_false_iff.1 hx c hc
    simp [covers_of_isFull hcf x] at this
  | case3 f _ hfull h =>
    exact isHull_unateComplementCube (isUnate_of_binateSelect_eq_none h) (by simpa using hfull)
  | case4 f _ _ i h ih0 ih1 =>
    have hi := (exists_care_of_binateSelect h).1
    refine (isHull_joinParts (isHull_inter_of_cofactor ih0) (isHull_inter_of_cofactor ih1)).congr
      fun x ↦ ?_
    rw [covers_halfSpace hi, covers_halfSpace hi, ← and_or_left]
    refine and_iff_left ?_
    cases x.getLsbD i <;> simp

theorem isHull_of_complementCube {f : Cover n} {o : Option (Cube n)} (h : f.complementCube = o) :
    IsHull (fun x ↦ f.covers x = false) o :=
  h ▸ isHull_complementCube f

/-- There is no least cube around the complement exactly when there is no complement. -/
theorem complementCube_eq_none_iff {f : Cover n} :
    f.complementCube = none ↔ ∀ x, f.covers x = true := by
  cases h : f.complementCube with
  | none => exact iff_of_true rfl fun x ↦ eq_true_of_ne_false (isHull_of_complementCube h x)
  | some c =>
    obtain ⟨x, hx⟩ := (isHull_of_complementCube h).1
    refine iff_of_false (Option.some_ne_none c) fun hall ↦ ?_
    rw [hall x] at hx
    cases hx

end Cover

end TwoLevel
