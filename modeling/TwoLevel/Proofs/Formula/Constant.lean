import TwoLevel.Proofs.Cover.Tautology
import TwoLevel.Proofs.Function

/-!
# Constants that show

`Formula.isTautology` and `Formula.isContradiction` look at the stored terms only.  They ask the
same question of opposite outputs (`Formula.looks`): for the explicit one whether the full cube is
stored, for the implicit one whether no term is.  A formula with the full cube has no implicit
point, and one without terms no explicit one.  So a yes can be relied on for any formula
(`SpotsOnlyConstants`), up to the points that do not matter.

A no says little.  The two half spaces of one variable are a tautology that does not show.  But what
an engine answers with are prime implicants of the formula it was given, and no don't cares.  If all
points are covered by them then none was implicit, so the full cube was an implicant; every prime
implicant is contained in it and therefore is it (`full_mem_of_isPrime`).  If no point is covered,
there is no term.  So the constants among the answers show (`SpotsConstants`).

An Espresso run that is allowed no round answers with the points it was given, which is why its
answers are left out.
-/

set_option autoImplicit false

namespace TwoLevel

variable {n : Nat} {f : Formula n} {cover : Cover n}

namespace Formula

/-! ## Terms that say everything -/

/-- Where the full cube is stored no point is implicit. -/
theorem value_ne_implicit_of_full (h : f.terms.any Cube.isFull = true) (x : BitVec n) :
    f.store.value x ≠ f.form.implicit := by
  obtain ⟨c, hc, hfull⟩ := List.any_eq_true.1 h
  have hcovers : f.terms.covers x = true :=
    Cover.covers_iff.2 ⟨c, hc, Cover.covers_of_isFull hfull x⟩
  intro hx
  exact Bool.false_ne_true ((Store.value_eq_implicit_iff.1 hx).2.symm.trans hcovers)

/-- Where nothing is stored no point is explicit. -/
theorem value_ne_explicit_of_isEmpty (h : f.terms.isEmpty = true) (x : BitVec n) :
    f.store.value x ≠ f.form.explicit := by
  have hterms : f.store.terms = [] := List.isEmpty_iff.1 h
  intro hx
  have hcovers := (Store.value_eq_explicit_iff.1 hx).2
  rw [hterms, Cover.covers_nil] at hcovers
  exact Bool.false_ne_true hcovers

/-! ## Terms of an answer -/

/-- The formula over a cover is explicit where it is covered. -/
theorem value_minimizedTo_eq_explicit_iff {x : BitVec n} :
    (f.minimizedTo cover).store.value x = (f.minimizedTo cover).form.explicit ↔
      cover.covers x = true := by
  rw [form, Store.value_eq_explicit_iff, ← Cover.covers_firsts cover]
  exact and_iff_right (Cover.covers_nil x)

/-- It is implicit everywhere else. -/
theorem value_minimizedTo_eq_implicit_iff {x : BitVec n} :
    (f.minimizedTo cover).store.value x = (f.minimizedTo cover).form.implicit ↔
      cover.covers x = false := by
  rw [form, Store.value_eq_implicit_iff, ← Cover.covers_firsts cover]
  exact and_iff_right (Cover.covers_nil x)

/-- **If prime implicants cover all points, the full cube is among them.** -/
theorem full_mem_of_isPrime (hcover : f.IsCover cover) (hprime : ∀ c ∈ cover, f.IsPrime c)
    (hall : ∀ x, cover.covers x = true) : Cube.full n ∈ cover := by
  have himplicant : (Cube.full n).IsImplicant fun x ↦ f.store.value x ≠ f.form.implicit := by
    intro x _ hx
    exact Bool.false_ne_true ((hcover.avoids_implicit x hx).symm.trans (hall x))
  -- some cube covers the point zero, and being prime it is the full one
  obtain ⟨c, hc, _⟩ := Cover.covers_iff.1 (hall 0#n)
  rw [(hprime c hc).eq_of_contains himplicant (Cube.contains_full c)]
  exact hc

theorem any_isFull_minimizedTo_iff (hcover : f.IsCover cover)
    (hprime : ∀ c ∈ cover, f.IsPrime c) :
    (f.minimizedTo cover).terms.any Cube.isFull = true ↔
      ∀ x, (f.minimizedTo cover).store.value x = (f.minimizedTo cover).form.explicit := by
  simp only [value_minimizedTo_eq_explicit_iff]
  refine ⟨fun h x ↦ ?_, fun hall ↦ ?_⟩
  · obtain ⟨c, hc, hfull⟩ := List.any_eq_true.1 h
    rw [terms_minimizedTo, mem_firsts] at hc
    exact Cover.covers_iff.2 ⟨c, hc, Cover.covers_of_isFull hfull x⟩
  · refine List.any_eq_true.2 ⟨Cube.full n, ?_, beq_self_eq_true _⟩
    rw [terms_minimizedTo, mem_firsts]
    exact full_mem_of_isPrime hcover hprime hall

theorem isEmpty_minimizedTo_iff :
    (f.minimizedTo cover).terms.isEmpty = true ↔
      ∀ x, (f.minimizedTo cover).store.value x = (f.minimizedTo cover).form.implicit := by
  simp only [value_minimizedTo_eq_implicit_iff]
  rw [List.isEmpty_iff, terms_minimizedTo, List.eq_nil_iff_forall_not_mem]
  simp only [mem_firsts]
  refine ⟨fun h x ↦ Cover.covers_eq_false_iff.2 fun c hc ↦ absurd hc (h c), fun h c hc ↦ ?_⟩
  -- each cube covers a point
  have hcovers := Cover.covers_eq_false_iff.1 (h c.literals) c hc
  exact Bool.false_ne_true (hcovers.symm.trans c.covers_literals)

/-! ## Constants -/

/-- The formula has the given output at some index. -/
def Takes (f : Formula n) (output : Output) : Prop :=
  ∃ index, f.store.valueAt index = .ok output

/-- The formula has the given output at every index. -/
def IsConstant (f : Formula n) (output : Output) : Prop :=
  ∀ index, index < numPoints n → f.store.valueAt index = .ok output

theorem not_takes_iff {output : Output} :
    ¬ f.Takes output ↔ ∀ x, f.store.value x ≠ output := by
  refine ⟨fun h x hx ↦ h ⟨x.toNat, ?_⟩, ?_⟩
  · rw [Store.valueAt_toNat, hx]
  · rintro h ⟨index, hindex⟩
    exact h _ (Store.valueAt_eq_ok_iff.1 hindex).2

theorem isConstant_iff {output : Output} :
    f.IsConstant output ↔ ∀ x, f.store.value x = output := by
  refine ⟨fun h x ↦ ?_, fun h index hlt ↦ ?_⟩
  · have hx := h x.toNat x.isLt
    rw [Store.valueAt_toNat] at hx
    exact Except.ok.inj hx
  · rw [Store.valueAt_of_lt hlt, h]

/-- Whether the terms show that the formula has no other output than the given one: they include the
full cube, if they stand for that output, and there are none if they do not. -/
def looks (f : Formula n) (output : Output) : Bool :=
  if output = f.form.explicit then f.terms.any Cube.isFull else f.terms.isEmpty

theorem isTautology_eq (f : Formula n) : f.isTautology = f.looks .one := by
  rw [isTautology, looks]
  cases f.form <;> rfl

theorem isContradiction_eq (f : Formula n) : f.isContradiction = f.looks .zero := by
  rw [isContradiction, looks]
  cases f.form <;> rfl

theorem looks_explicit (f : Formula n) : f.looks f.form.explicit = f.terms.any Cube.isFull :=
  if_pos rfl

theorem looks_implicit (f : Formula n) : f.looks f.form.implicit = f.terms.isEmpty :=
  if_neg f.form.explicit_ne_implicit.symm

/-- Of two opposite outputs the one that shows rules the other out. -/
theorem not_takes_of_looks {output other : Output} (hdc : output ≠ .dontCare)
    (hother : other ≠ .dontCare) (hne : other ≠ output) (h : f.looks output = true) :
    ¬ f.Takes other := by
  rw [not_takes_iff]
  rcases (f.form.output_cases output).resolve_left hdc with rfl | rfl
  · rw [((f.form.output_cases other).resolve_left hother).resolve_left hne]
    rw [looks_explicit] at h
    exact value_ne_implicit_of_full h
  · rw [((f.form.output_cases other).resolve_left hother).resolve_right hne]
    rw [looks_implicit] at h
    exact value_ne_explicit_of_isEmpty h

/-- **A constant that is given by prime implicants shows.** -/
theorem looks_minimizedTo_iff (hcover : f.IsCover cover) (hprime : ∀ c ∈ cover, f.IsPrime c)
    {output : Output} (hdc : output ≠ .dontCare) :
    (f.minimizedTo cover).looks output = true ↔ (f.minimizedTo cover).IsConstant output := by
  rw [isConstant_iff]
  rcases ((f.minimizedTo cover).form.output_cases output).resolve_left hdc with rfl | rfl
  · rw [looks_explicit]
    exact any_isFull_minimizedTo_iff hcover hprime
  · rw [looks_implicit]
    exact isEmpty_minimizedTo_iff

/-! ## What can be relied on -/

/-- A formula that is said to be constant takes the opposite output nowhere. -/
structure SpotsOnlyConstants (f : Formula n) : Prop where
  /-- A tautology is nowhere zero. -/
  tautology : f.isTautology = true → ¬ f.Takes .zero
  /-- A contradiction is nowhere one. -/
  contradiction : f.isContradiction = true → ¬ f.Takes .one

/-- A formula is said to be constant exactly when it is. -/
structure SpotsConstants (f : Formula n) : Prop where
  /-- The tautologies are those that are one everywhere. -/
  isTautology_iff : f.isTautology = true ↔ f.IsConstant .one
  /-- The contradictions are those that are zero everywhere. -/
  isContradiction_iff : f.isContradiction = true ↔ f.IsConstant .zero

/-- **A yes can be relied on**, whatever the formula. -/
theorem spotsOnlyConstants (f : Formula n) : f.SpotsOnlyConstants where
  tautology h := by
    rw [isTautology_eq] at h
    exact not_takes_of_looks (by decide) (by decide) (by decide) h
  contradiction h := by
    rw [isContradiction_eq] at h
    exact not_takes_of_looks (by decide) (by decide) (by decide) h

/-- **Of a cover by prime implicants a no can be relied on as well.** -/
theorem spotsConstants_minimizedTo (hcover : f.IsCover cover)
    (hprime : ∀ c ∈ cover, f.IsPrime c) : (f.minimizedTo cover).SpotsConstants where
  isTautology_iff := by
    rw [isTautology_eq]
    exact looks_minimizedTo_iff hcover hprime (by decide)
  isContradiction_iff := by
    rw [isContradiction_eq]
    exact looks_minimizedTo_iff hcover hprime (by decide)

end Formula

/-! ## The answers of the engines -/

theorem QuineMcCluskey.spotsConstants_minimize (f : Formula n) (debug : Bool) :
    (minimize f debug).minimized.SpotsConstants := by
  obtain ⟨cs, trace, heq, h⟩ := exists_taken f debug
  rw [heq]
  refine Formula.spotsConstants_minimizedTo (isCover_of_taken h) fun c hc ↦ ?_
  exact mem_primes_iff.1 (h.mem_primes hc)

theorem Espresso.spotsConstants_minimize (hf : f.Reachable) {cap : Option Nat}
    (hcap : cap ≠ some 0) (debug : Bool) : (minimize cap f debug).minimized.SpotsConstants := by
  have hvalid := hf.isValid_partition
  have hirr := hf.isIrredundant_of_partition (isAnswer_ofPartition hvalid hcap)
  refine Formula.spotsConstants_minimizedTo
    (hf.isCover_of_partition (isCover_ofPartition hvalid cap)) fun c hc ↦ ?_
  exact hirr.isPrime c (mem_firsts.2 hc)

/-- **Constants are detected**: a formula that shows as a tautology is nowhere zero and one that
shows as a contradiction nowhere one, and the answers of both engines, those of the Espresso engine
if it is allowed any round, show as such whenever they are one or zero everywhere. -/
theorem constants_detected (hf : f.Reachable) :
    f.SpotsOnlyConstants ∧
    (∀ debug, (QuineMcCluskey.minimize f debug).minimized.SpotsConstants) ∧
    ∀ cap debug, cap ≠ some 0 → (Espresso.minimize cap f debug).minimized.SpotsConstants :=
  ⟨f.spotsOnlyConstants, QuineMcCluskey.spotsConstants_minimize f,
    fun _ debug hcap ↦ Espresso.spotsConstants_minimize hf hcap debug⟩

/-- A product of sums that is zero everywhere, stored as two half spaces, so that it does not
show. -/
def bothHalves : Formula 2 :=
  Formula.ofCubes .productOfSums [Cube.halfSpace 0 true, Cube.halfSpace 0 false]

theorem constants_detected_bothHalves :
    bothHalves.Reachable ∧ some 1 ≠ some 0 ∧ bothHalves.isContradiction = false ∧
    (QuineMcCluskey.minimize bothHalves true).minimized.isContradiction = true ∧
    (Espresso.minimize (some 1) bothHalves false).minimized.isContradiction = true := by
  have hf : bothHalves.Reachable := Formula.reachable_ofCubes _ (by decide) (by decide)
  have hcap : some 1 ≠ some 0 := by decide
  obtain ⟨_, hqm, hespresso⟩ := constants_detected hf
  have hzero : bothHalves.IsConstant .zero := Formula.isConstant_iff.2 (by decide)
  have hdc : ∀ index, bothHalves.store.valueAt index ≠ .ok .dontCare := by
    intro index hindex
    have hvalue := (Store.valueAt_eq_ok_iff.1 hindex).2
    exact absurd hvalue ((by decide : ∀ x, bothHalves.store.value x ≠ .dontCare) _)
  have hsame := QuineMcCluskey.isSameFunction_minimize hdc true
  have hsame' := Espresso.isSameFunction_minimize hf hdc (some 1) false
  refine ⟨hf, hcap, by decide, ?_, ?_⟩
  · refine (hqm true).isContradiction_iff.2 fun index hlt ↦ ?_
    rw [hsame.valueAt_eq, hzero index hlt]
  · refine (hespresso _ false hcap).isContradiction_iff.2 fun index hlt ↦ ?_
    rw [hsame'.valueAt_eq, hzero index hlt]

-- Without any round the half spaces are left as points, which say nothing.
example : (Espresso.minimize (some 0) bothHalves false).minimized.isContradiction = false := by
  cbv

end TwoLevel
