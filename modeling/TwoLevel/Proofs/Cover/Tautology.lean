import TwoLevel.Cover.Tautology
import TwoLevel.Proofs.Cube.Prime

/-!
# The tautology test is exact

`Cover.isTautology_iff` says that the test answers whether every point is covered, and
`Cover.isTautology_cofactor_iff` what that means for a cofactor: the cofactor of a cover by a cube
is a tautology exactly when the cover covers the cube.

Two facts carry this.

* **A cofactor reads only what its cube leaves open** (`covers_cofactor_clamp`).  Moving a point
  into the cube, by `Cube.clamp`, changes nothing for the cofactor, and inside the cube the cofactor
  is the cover.
* **A unate cover without the full cube misses a point** (`Against.not_covers`): at every position
  at most one literal occurs, so one point can go against all of them.
-/

set_option autoImplicit false

namespace TwoLevel

variable {n : Nat}

namespace Cube

/-! ## Into a cube -/

/-- The point of a cube that agrees with `x` at the missing positions. -/
def clamp (p : Cube n) (x : BitVec n) : BitVec n := p.literals ||| (x &&& p.missing)

theorem getLsbD_clamp_of_missing {p : Cube n} {i : Nat} (h : p.missing.getLsbD i = true)
    (x : BitVec n) : (p.clamp x).getLsbD i = x.getLsbD i := by
  rw [clamp, BitVec.getLsbD_or, BitVec.getLsbD_and, h, literals_eq_false h, Bool.and_true,
    Bool.false_or]

theorem getLsbD_clamp_of_explicit {p : Cube n} {i : Nat} (h : p.missing.getLsbD i = false)
    (x : BitVec n) : (p.clamp x).getLsbD i = p.literals.getLsbD i := by
  rw [clamp, BitVec.getLsbD_or, BitVec.getLsbD_and, h, Bool.and_false, Bool.or_false]

theorem covers_clamp (p : Cube n) (x : BitVec n) : p.covers (p.clamp x) = true :=
  covers_iff.2 fun _ _ hm ↦ (getLsbD_clamp_of_explicit hm x).symm

theorem clamp_eq_self {p : Cube n} {x : BitVec n} (h : p.covers x = true) : p.clamp x = x := by
  refine BitVec.eq_of_getLsbD_eq fun i hi ↦ ?_
  cases hm : p.missing.getLsbD i with
  | true => exact getLsbD_clamp_of_missing hm x
  | false => rw [getLsbD_clamp_of_explicit hm, covers_iff.1 h i hi hm]

/-- A cofactor has no literal where its cube has one. -/
theorem missing_of_cofactor {c p e : Cube n} (h : c.cofactor p = some e) {i : Nat} (hi : i < n)
    (hp : p.missing.getLsbD i = false) : e.missing.getLsbD i = true := by
  rw [cofactor] at h
  split at h
  · cases h
    rw [missing_ofMasks, BitVec.getLsbD_or, getLsbD_care, hp, decide_eq_true hi]
    simp
  · cases h

theorem covers_clamp_of_cofactor {c p e : Cube n} (h : c.cofactor p = some e) (x : BitVec n) :
    e.covers (p.clamp x) = e.covers x := by
  rw [Bool.eq_iff_iff, covers_iff, covers_iff]
  have hopen : ∀ i, i < n → e.missing.getLsbD i = false →
      (p.clamp x).getLsbD i = x.getLsbD i := by
    intro i hi he
    refine getLsbD_clamp_of_missing ?_ x
    cases hp : p.missing.getLsbD i with
    | true => rfl
    | false => simp [missing_of_cofactor h hi hp] at he
  refine ⟨fun hx i hi he ↦ ?_, fun hx i hi he ↦ ?_⟩
  · rw [hx i hi he, hopen i hi he]
  · rw [hx i hi he, hopen i hi he]

end Cube

namespace Cover

/-- **A cofactor reads only what its cube leaves open.** -/
theorem covers_cofactor_clamp (f : Cover n) (p : Cube n) (x : BitVec n) :
    (f.cofactor p).covers x = f.covers (p.clamp x) := by
  have hout : (f.cofactor p).covers x = (f.cofactor p).covers (p.clamp x) := by
    rw [Bool.eq_iff_iff, covers_iff, covers_iff]
    refine exists_congr fun e ↦ and_congr_right fun he ↦ ?_
    obtain ⟨c, _, hce⟩ := List.mem_filterMap.1 he
    rw [Cube.covers_clamp_of_cofactor hce]
  rw [hout, covers_cofactor (p.covers_clamp x)]

/-- A cofactor covers everything exactly when the cover covers its cube. -/
theorem forall_covers_cofactor_iff {f : Cover n} {p : Cube n} :
    (∀ x, (f.cofactor p).covers x = true) ↔ ∀ x, p.covers x = true → f.covers x = true := by
  refine ⟨fun h x hx ↦ ?_, fun h x ↦ ?_⟩
  · rw [← covers_cofactor hx]
    exact h x
  · rw [covers_cofactor_clamp]
    exact h _ (p.covers_clamp x)

/-- A cover covers everything when it does so on both sides of a position. -/
theorem forall_covers_iff_halves {f : Cover n} {i : Nat} (hi : i < n) :
    (∀ x, f.covers x = true) ↔
      (∀ x, (f.cofactor (Cube.halfSpace i false)).covers x = true) ∧
        ∀ x, (f.cofactor (Cube.halfSpace i true)).covers x = true := by
  rw [forall_covers_cofactor_iff, forall_covers_cofactor_iff]
  refine ⟨fun h ↦ ?_, ?_⟩
  · exact ⟨fun x _ ↦ h x, fun x _ ↦ h x⟩
  · rintro ⟨h0, h1⟩ x
    cases hx : x.getLsbD i with
    | false => exact h0 x ((Cube.covers_halfSpace hi).2 hx)
    | true => exact h1 x ((Cube.covers_halfSpace hi).2 hx)

/-! ## Unate covers -/

/-- A point can have any values. -/
theorem exists_point (n : Nat) (q : Nat → Bool) :
    ∃ x : BitVec n, ∀ i, i < n → x.getLsbD i = q i := by
  induction n with
  | zero => exact ⟨0#0, fun i hi ↦ absurd hi (Nat.not_lt_zero i)⟩
  | succ n ih =>
    obtain ⟨x, hx⟩ := ih
    refine ⟨x.cons (q n), fun i hi ↦ ?_⟩
    rw [BitVec.getLsbD_cons]
    split
    · next h => rw [h]
    · next h => exact hx i (by omega)

theorem isUnate_iff {f : Cover n} :
    f.isUnate = true ↔ ∀ i, i < n → f.ones i = 0 ∨ f.zeros i = 0 := by
  rw [isUnate, List.isEmpty_iff, binatePositions, List.filter_eq_nil_iff]
  simp only [List.mem_range, Bool.and_eq_true, bne_iff_ne, ne_eq, not_and, Decidable.not_not]
  exact forall_congr' fun i ↦ forall_congr' fun _ ↦ ⟨fun h ↦ Decidable.or_iff_not_imp_left.2 h,
    fun h hn ↦ h.resolve_left hn⟩

theorem countP_value_ne_zero {f : Cover n} {c : Cube n} (hc : c ∈ f) {i : Nat} {l : Literal}
    (h : c.value i = l) : f.countP (fun d ↦ d.value i == l) ≠ 0 :=
  Nat.pos_iff_ne_zero.1 (List.countP_pos_iff.2 ⟨c, hc, beq_iff_eq.2 h⟩)

/-- A point goes against a cover when it disagrees with every literal of every cube. -/
def Against (f : Cover n) (x : BitVec n) : Prop :=
  ∀ c ∈ f, ∀ i, i < n → c.missing.getLsbD i = false → c.literals.getLsbD i ≠ x.getLsbD i

/-- Some point goes against a unate cover. -/
theorem exists_against_of_isUnate {f : Cover n} (h : f.isUnate = true) :
    ∃ x : BitVec n, f.Against x := by
  rw [isUnate_iff] at h
  obtain ⟨x, hx⟩ := exists_point n fun i ↦ f.zeros i != 0
  refine ⟨x, fun c hc i hi hm ↦ ?_⟩
  rw [hx i hi]
  cases hl : c.literals.getLsbD i with
  | true =>
    have hv : c.value i = .one := by simp [Cube.value, hm, hl]
    simp [(h i hi).resolve_left (countP_value_ne_zero hc hv)]
  | false =>
    have hv : c.value i = .zero := by simp [Cube.value, hm, hl]
    have hzeros : f.zeros i ≠ 0 := countP_value_ne_zero hc hv
    simpa using hzeros

/-- A cube that is not the full one has an explicit position. -/
theorem exists_explicit_of_not_isFull {c : Cube n} (h : c.isFull = false) :
    ∃ i, i < n ∧ c.missing.getLsbD i = false := by
  by_contra hno
  have hall : c.missing = BitVec.allOnes n := by
    refine BitVec.eq_of_getLsbD_eq fun i hi ↦ ?_
    rw [BitVec.getLsbD_allOnes, decide_eq_true hi]
    cases hm : c.missing.getLsbD i with
    | true => rfl
    | false => exact absurd ⟨i, hi, hm⟩ hno
  simp [Cube.isFull, hall] at h

theorem covers_of_isFull {c : Cube n} (h : c.isFull = true) (x : BitVec n) : c.covers x = true := by
  rw [Cube.isFull, beq_iff_eq] at h
  rw [Cube.covers_iff]
  intro i hi hm
  simp [h, hi] at hm

theorem exists_explicit_of_any_isFull_eq_false {f : Cover n} (hfull : f.any Cube.isFull = false)
    {c : Cube n} (hc : c ∈ f) : ∃ i, i < n ∧ c.missing.getLsbD i = false :=
  exists_explicit_of_not_isFull (by simpa using List.any_eq_false.1 hfull c hc)

/-- **A point against a cover is missed by it**, unless the cover has the full cube. -/
theorem Against.not_covers {f : Cover n} {x : BitVec n} (hx : f.Against x)
    (hfull : f.any Cube.isFull = false) : f.covers x = false := by
  refine covers_eq_false_iff.2 fun c hc ↦ ?_
  obtain ⟨i, hi, hm⟩ := exists_explicit_of_any_isFull_eq_false hfull hc
  rw [← Bool.not_eq_true, Cube.covers_iff]
  intro h
  exact hx c hc i hi hm (h i hi hm)

/-! ## The test -/

/-- Where nothing is explicit in any cube, the cover is unate. -/
theorem isUnate_of_firstMeaningful?_eq_none {f : Cover n} (h : f.firstMeaningful? = none) :
    f.isUnate = true := by
  rw [isUnate_iff]
  intro i hi
  rw [firstMeaningful?, List.find?_eq_none] at h
  have h0 := h i (List.mem_range.2 hi)
  simp only [bne_iff_ne, ne_eq, Decidable.not_not, Nat.add_eq_zero_iff] at h0
  exact Or.inl h0.1

/-- **The tautology test answers whether every point is covered.** -/
theorem isTautology_iff {f : Cover n} : f.isTautology = true ↔ ∀ x, f.covers x = true := by
  fun_induction isTautology f with
  | case1 f hf =>
    rw [List.isEmpty_iff.1 hf]
    simp only [covers_nil, Bool.false_eq_true, forall_const]
  | case2 f _ hfull =>
    obtain ⟨c, hc, hcf⟩ := List.any_eq_true.1 hfull
    refine iff_of_true rfl fun x ↦ covers_iff.2 ⟨c, hc, covers_of_isFull hcf x⟩
  | case3 f _ hfull hu =>
    obtain ⟨x, hx⟩ := exists_against_of_isUnate hu
    have hmissed := hx.not_covers (by simpa using hfull)
    refine iff_of_false (by decide) fun h ↦ ?_
    simp [h x] at hmissed
  | case4 f _ _ hu h => exact absurd (isUnate_of_firstMeaningful?_eq_none h) hu
  | case5 f _ _ _ i h ih0 ih1 =>
    rw [Bool.and_eq_true, ih0, ih1]
    exact (forall_covers_iff_halves (exists_care_of_firstMeaningful? h).1).symm

/-- **A cofactor is a tautology exactly when the cover covers its cube.** -/
theorem isTautology_cofactor_iff {f : Cover n} {p : Cube n} :
    (f.cofactor p).isTautology = true ↔ ∀ x, p.covers x = true → f.covers x = true := by
  rw [isTautology_iff, forall_covers_cofactor_iff]

end Cover

end TwoLevel
