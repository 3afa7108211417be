import TwoLevel.Proofs.Cover.ComplementCube
import TwoLevel.Proofs.Cube.Neighbour

/-!
# How deep the recursions on covers nest

The tautology test and the search for the least cube around the complement both look at a cover and
either have their answer or split the cover on a position and join the answers for the two halves.
A `Splitting` is such a recursion, given by these two steps.  `Splitting.run` carries it out with
room for only so many calls inside each other, and gives up when that is not enough.

A position is *meaningful* in a cover when it is explicit in some cube (`meaningful`).  A cover is
only ever split on a meaningful position.  In both of its halves that position is meaningful no
more, and none is that was not before (`count_meaningful_cofactor_lt`).  So calls are nested no
deeper than there are meaningful positions, whatever the number of cubes (`Computes.run_eq`).

With that each of the two recursions gets its main statement, `isTautology_ends_and_iff` and
`complementCube_ends_and_isLeast`: with room for more calls than there are positions it does not
give up, and what it answers is right.

A cofactor has no meaningful positions but those that its cube leaves open
(`getLsbD_meaningful_cofactor`).  So the test on a cofactor nests no deeper than the cube has
missing positions, and with `decidesContainment_cofactor` what it answers is whether the cover
covers the cube.
-/

set_option autoImplicit false

namespace TwoLevel.Cover

variable {n : Nat}

/-! ## Meaningful positions -/

/-- The positions that are explicit in some cube. -/
def meaningful (f : Cover n) : BitVec n := f.foldr (fun c rest ↦ c.care ||| rest) 0#n

theorem getLsbD_meaningful {f : Cover n} {i : Nat} :
    f.meaningful.getLsbD i = true ↔ ∃ c ∈ f, c.care.getLsbD i = true := by
  induction f with
  | nil => simp [meaningful]
  | cons c f ih =>
    rw [meaningful] at ih
    rw [meaningful, List.foldr_cons, BitVec.getLsbD_or, Bool.or_eq_true, ih]
    simp only [List.mem_cons, exists_eq_or_imp]

/-- What is meaningful from inside a cube was so before, and the cube leaves it open. -/
theorem getLsbD_meaningful_cofactor {f : Cover n} {p : Cube n} {i : Nat}
    (h : (meaningful (f.cofactor p)).getLsbD i = true) :
    f.meaningful.getLsbD i = true ∧ p.missing.getLsbD i = true := by
  obtain ⟨e, he, hei⟩ := getLsbD_meaningful.1 h
  obtain ⟨c, hc, hce⟩ := List.mem_filterMap.1 he
  obtain ⟨hci, hpi⟩ := Cube.care_cofactor_le hce i hei
  exact ⟨getLsbD_meaningful.2 ⟨c, hc, hci⟩, hpi⟩

/-- **Seen from inside a cube a cover has fewer meaningful positions**, if the cube is explicit at
one of them. -/
theorem count_meaningful_cofactor_lt {f : Cover n} {p : Cube n} {i : Nat}
    (hf : ∃ c ∈ f, c.care.getLsbD i = true) (hp : p.missing.getLsbD i = false) :
    Mask.count (meaningful (f.cofactor p)) < Mask.count f.meaningful := by
  refine Mask.count_lt_of_subset (fun j hj ↦ (getLsbD_meaningful_cofactor hj).1)
    (getLsbD_meaningful.2 hf) ?_
  rw [← Bool.not_eq_true]
  intro hi
  rw [(getLsbD_meaningful_cofactor hi).2] at hp
  cases hp

/-- Seen from inside a cube no more positions are meaningful than the cube leaves open. -/
theorem count_meaningful_cofactor_le (f : Cover n) (p : Cube n) :
    Mask.count (meaningful (f.cofactor p)) ≤ p.count .missing :=
  Mask.count_le_of_subset fun _ hi ↦ (getLsbD_meaningful_cofactor hi).2

/-! ## Recursions that split -/

/-- A recursion on covers by splitting them in halves. -/
structure Splitting (n : Nat) (α : Type) where
  /-- The answer, or the position to split on. -/
  look : Cover n → α ⊕ Nat
  /-- The answer for a cover split on a position, from those for its halves. -/
  join : Nat → α → α → α

namespace Splitting

variable {α : Type}

/-- Carries out a recursion with room for so many calls inside each other, if that is enough. -/
def run (r : Splitting n α) : Nat → Cover n → Option α
  | 0, _ => none
  | depth + 1, f =>
    match r.look f with
    | .inl answer => some answer
    | .inr i => do
      let zero ← r.run depth (f.cofactor (Cube.halfSpace i false))
      let one ← r.run depth (f.cofactor (Cube.halfSpace i true))
      return r.join i zero one

/-- One step, with a function in place of the calls of the recursion itself. -/
def step (r : Splitting n α) (answer : Cover n → α) (f : Cover n) : α :=
  match r.look f with
  | .inl a => a
  | .inr i =>
    r.join i (answer (f.cofactor (Cube.halfSpace i false)))
      (answer (f.cofactor (Cube.halfSpace i true)))

/-- A recursion computes the function that a step leaves as it is, and splits covers only where some
cube is explicit. -/
structure Computes (r : Splitting n α) (answer : Cover n → α) : Prop where
  /-- The function answers what a step answers. -/
  eq_step : ∀ f, answer f = r.step answer f
  /-- Every position to split on is meaningful. -/
  exists_care : ∀ f i, r.look f = .inr i → i < n ∧ ∃ c ∈ f, c.care.getLsbD i = true

/-- **Calls nest no deeper than there are meaningful positions.** -/
theorem Computes.run_eq {r : Splitting n α} {answer : Cover n → α} (h : r.Computes answer)
    {depth : Nat} {f : Cover n} (hdepth : Mask.count f.meaningful < depth) :
    r.run depth f = some (answer f) := by
  induction depth generalizing f with
  | zero => exact absurd hdepth (Nat.not_lt_zero _)
  | succ depth ih =>
    rw [run, h.eq_step f, step]
    split
    · rfl
    · next i hi =>
      obtain ⟨hin, hcare⟩ := h.exists_care f i hi
      have hhalf : ∀ v, Mask.count (meaningful (f.cofactor (Cube.halfSpace i v))) < depth := by
        intro v
        have := count_meaningful_cofactor_lt hcare (missing_halfSpace (v := v) hin)
        omega
      rw [ih (hhalf false), ih (hhalf true)]
      rfl

theorem Computes.run_eq_of_lt {r : Splitting n α} {answer : Cover n → α} (h : r.Computes answer)
    {depth : Nat} (hdepth : n < depth) (f : Cover n) : r.run depth f = some (answer f) :=
  h.run_eq (Nat.lt_of_le_of_lt (Mask.count_le f.meaningful) hdepth)

end Splitting

/-! ## The tautology test -/

/-- The steps of the tautology test. -/
def tautologySteps (n : Nat) : Splitting n Bool where
  look f :=
    if f.isEmpty then .inl false
    else if f.any Cube.isFull then .inl true
    else if f.isUnate then .inl false
    else
      match f.firstMeaningful? with
      | none => .inl true
      | some i => .inr i
  join _ zero one := zero && one

theorem computes_tautologySteps : (tautologySteps n).Computes isTautology where
  eq_step f := by
    fun_cases isTautology f with
    | case1 hempty => simp only [Splitting.step, tautologySteps, if_pos hempty]
    | case2 hempty hfull => simp only [Splitting.step, tautologySteps, if_neg hempty, if_pos hfull]
    | case3 hempty hfull hunate =>
      simp only [Splitting.step, tautologySteps, if_neg hempty, if_neg hfull, if_pos hunate]
    | case4 hempty hfull hunate hnone =>
      simp only [Splitting.step, tautologySteps, if_neg hempty, if_neg hfull, if_neg hunate, hnone]
    | case5 hempty hfull hunate i hi =>
      simp only [Splitting.step, tautologySteps, if_neg hempty, if_neg hfull, if_neg hunate, hi]
  exists_care f i h := by
    refine exists_care_of_firstMeaningful? ?_
    grind [tautologySteps]

/-- **The tautology test ends and is exact**: calls are nested at most one deeper than there are
positions, and the answer is whether every index is covered. -/
theorem isTautology_ends_and_iff (f : Cover n) :
    (∀ depth, n < depth → (tautologySteps n).run depth f = some f.isTautology) ∧
      (f.isTautology = true ↔
        ∀ i, i < numPoints n → ∃ c ∈ f, c.covers (BitVec.ofNat n i) = true) := by
  refine ⟨fun depth hdepth ↦ computes_tautologySteps.run_eq_of_lt hdepth f, ?_⟩
  rw [isTautology_iff]
  refine ⟨fun h i _ ↦ covers_iff.1 (h _), fun h x ↦ covers_iff.2 ?_⟩
  have hx := h x.toNat x.isLt
  rwa [BitVec.ofNat_toNat, BitVec.setWidth_eq] at hx

/-! ## Covers seen from inside a cube -/

/-- The second cover stands for the part of the first that lies in a cube, so that the tautology
test on it tells whether the first covers the cube. -/
structure DecidesContainment (f : Cover n) (p : Cube n) (g : Cover n) : Prop where
  /-- Of the indices in the cube both cover the same ones. -/
  covers_eq : ∀ i, i < numPoints n → p.covers (BitVec.ofNat n i) = true →
    g.covers (BitVec.ofNat n i) = f.covers (BitVec.ofNat n i)
  /-- No cube of the second cover has a literal where the cube has one. -/
  value_eq_missing : ∀ c ∈ g, ∀ position, position < n → p.value position ≠ .missing →
    c.value position = .missing
  /-- The tautology test on the second cover ends, with calls nested at most one deeper than the
  cube has missing positions. -/
  run_eq : ∀ depth, p.count .missing < depth →
    (tautologySteps n).run depth g = some g.isTautology
  /-- The second cover is a tautology exactly if the first covers every index in the cube. -/
  isTautology_iff : g.isTautology = true ↔
    ∀ i, i < numPoints n → p.covers (BitVec.ofNat n i) = true →
      f.covers (BitVec.ofNat n i) = true

/-- **A cofactor decides containment.**  Of the cubes of a cover, those that meet a cube, freed
where the cube is explicit, decide whether the cover covers the cube. -/
theorem decidesContainment_cofactor (f : Cover n) (p : Cube n) :
    DecidesContainment f p (f.cofactor p) where
  covers_eq _ _ hp := covers_cofactor hp
  value_eq_missing c hc position hlt hp := by
    obtain ⟨d, _, hd⟩ := List.mem_filterMap.1 hc
    rw [Cube.value_eq_missing_iff]
    exact Cube.missing_of_cofactor hd hlt (Cube.value_ne_missing_iff.1 hp)
  run_eq depth hdepth :=
    computes_tautologySteps.run_eq
      (Nat.lt_of_le_of_lt (count_meaningful_cofactor_le f p) hdepth)
  isTautology_iff := by
    rw [isTautology_cofactor_iff]
    refine ⟨fun h i _ hi ↦ h _ hi, fun h x hx ↦ ?_⟩
    have hx' := h x.toNat x.isLt
    rw [BitVec.ofNat_toNat, BitVec.setWidth_eq] at hx'
    exact hx' hx

/-! ## The least cube around the complement -/

/-- The steps of the search for the least cube around the complement. -/
def complementSteps (n : Nat) : Splitting n (Option (Cube n)) where
  look f :=
    if f.isEmpty then .inl (some (Cube.full n))
    else if f.any Cube.isFull then .inl none
    else
      match f.binateSelect with
      | none => .inl (some f.unateComplementCube)
      | some i => .inr i
  join i zero one :=
    joinParts (zero.bind (·.inter (Cube.halfSpace i false)))
      (one.bind (·.inter (Cube.halfSpace i true)))

theorem computes_complementSteps : (complementSteps n).Computes complementCube where
  eq_step f := by
    fun_cases complementCube f with
    | case1 hempty => simp only [Splitting.step, complementSteps, if_pos hempty]
    | case2 hempty hfull => simp only [Splitting.step, complementSteps, if_neg hempty, if_pos hfull]
    | case3 hempty hfull hnone =>
      simp only [Splitting.step, complementSteps, if_neg hempty, if_neg hfull, hnone]
    | case4 hempty hfull i hi =>
      simp only [Splitting.step, complementSteps, if_neg hempty, if_neg hfull, hi]
  exists_care f i h := by
    refine exists_care_of_binateSelect ?_
    grind [complementSteps]

/-- **The search for the least cube around the complement ends and is exact**: calls are nested at
most one deeper than there are positions, there is no answer exactly for a tautology, and otherwise
the answer covers every index that the cover misses and lies in every cube that does. -/
theorem complementCube_ends_and_isLeast (f : Cover n) :
    (∀ depth, n < depth → (complementSteps n).run depth f = some f.complementCube) ∧
      (f.complementCube = none ↔ ∀ x, f.covers x = true) ∧
      (f.complementCube = none ↔ f.isTautology = true) ∧
      ∀ c, f.complementCube = some c → Cube.IsLeastAround (fun x ↦ f.covers x = false) c := by
  refine ⟨fun depth hdepth ↦ computes_complementSteps.run_eq_of_lt hdepth f,
    complementCube_eq_none_iff, ?_, fun c hc ↦ (isHull_of_complementCube hc).isLeastAround⟩
  rw [complementCube_eq_none_iff, isTautology_iff]

end TwoLevel.Cover
