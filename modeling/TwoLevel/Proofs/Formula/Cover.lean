import TwoLevel.Outcome
import TwoLevel.Proofs.Cube.Prime
import TwoLevel.Proofs.Store.Value
import Mathlib.Data.List.Perm.Subperm

/-!
# Covers of a formula

What minimizing is about, said with the values of a formula and without any engine.

A **cover** of a formula has to cover its explicit points and must not cover its implicit ones
(`Formula.IsCover`).  Its **prime implicants** are those of all points that are not implicit
(`Formula.IsPrime`), and one of them is **essential** if it is the only one to cover some explicit
point (`Formula.IsEssential`).  A cover made of prime implicants contains every essential one
(`IsEssential.mem`), and no cover at all has fewer cubes than there are essential prime implicants
(`length_le_of_isEssential`): each cube of it lies in some prime implicant, and each essential one
is met in this way.

`Outcome.Answers` is what both engines promise.
-/

set_option autoImplicit false

namespace TwoLevel

variable {n : Nat}

/-- Leaving out repetitions does not change what is covered. -/
@[simp]
theorem Cover.covers_firsts (f : Cover n) (x : BitVec n) : covers (firsts f) x = covers f x := by
  rw [Bool.eq_iff_iff, Cover.covers_iff, Cover.covers_iff]
  simp only [mem_firsts]

namespace Formula

/-! ## Covers -/

/-- A cover of the explicit points that covers none of the implicit ones. -/
structure IsCover (f : Formula n) (cover : Cover n) : Prop where
  /-- Every explicit point is covered. -/
  covers_explicit : ∀ x, f.store.value x = f.form.explicit → cover.covers x = true
  /-- No implicit point is covered. -/
  avoids_implicit : ∀ x, f.store.value x = f.form.implicit → cover.covers x = false

variable {f : Formula n} {cover : Cover n}

theorem IsCover.firsts (h : f.IsCover cover) : f.IsCover (firsts cover) where
  covers_explicit x hx := by
    rw [Cover.covers_firsts, h.covers_explicit x hx]
  avoids_implicit x hx := by
    rw [Cover.covers_firsts, h.avoids_implicit x hx]

theorem IsCover.exists_covers (h : f.IsCover cover) {x : BitVec n}
    (hx : f.store.value x = f.form.explicit) : ∃ c ∈ cover, c.covers x = true :=
  Cover.covers_iff.1 (h.covers_explicit x hx)

/-- The cubes of a cover are implicants. -/
theorem IsCover.isImplicant (h : f.IsCover cover) {c : Cube n} (hc : c ∈ cover) :
    c.IsImplicant fun x ↦ f.store.value x ≠ f.form.implicit := by
  intro x hx himp
  have hcov : cover.covers x = true := Cover.covers_iff.2 ⟨c, hc, hx⟩
  rw [h.avoids_implicit x himp] at hcov
  cases hcov

/-- Explicit points are not implicit. -/
theorem ne_implicit_of_explicit {x : BitVec n} (hx : f.store.value x = f.form.explicit) :
    f.store.value x ≠ f.form.implicit := by
  rw [hx]
  exact f.form.explicit_ne_implicit

/-- What is neither a don't care nor implicit is explicit. -/
theorem value_eq_explicit_of_ne {x : BitVec n} (hdc : f.store.value x ≠ .dontCare)
    (himp : f.store.value x ≠ f.form.implicit) : f.store.value x = f.form.explicit :=
  ((f.store.value_cases x).resolve_left hdc).resolve_right himp

/-! ## Prime implicants -/

/-- A prime implicant of the explicit points and the don't cares. -/
def IsPrime (f : Formula n) (c : Cube n) : Prop :=
  c.IsPrime fun x ↦ f.store.value x ≠ f.form.implicit

/-- The only prime implicant to cover some explicit point. -/
structure IsEssential (f : Formula n) (c : Cube n) : Prop where
  /-- It is a prime implicant. -/
  isPrime : f.IsPrime c
  /-- Some explicit point is covered by no other. -/
  needed : ∃ x, f.store.value x = f.form.explicit ∧ c.covers x = true ∧
    ∀ d, f.IsPrime d → d.covers x = true → d = c

/-- Prime implicants, each listed once and each covering an explicit point that no other one of them
covers. -/
structure IsIrredundant (f : Formula n) (cover : Cover n) : Prop where
  /-- No cube is listed twice. -/
  nodup : cover.Nodup
  /-- Every cube is prime. -/
  isPrime : ∀ c ∈ cover, f.IsPrime c
  /-- Every cube is needed. -/
  needed : ∀ c ∈ cover, ∃ x, f.store.value x = f.form.explicit ∧ c.covers x = true ∧
    ∀ d ∈ cover, d.covers x = true → d = c

/-- An implicant is essential if one of its explicit points becomes implicit whichever literal of
the cube is turned round in it. -/
theorem isEssential_of_neighbours {c : Cube n}
    (hc : c.IsImplicant fun x ↦ f.store.value x ≠ f.form.implicit) {x : BitVec n}
    (hx : f.store.value x = f.form.explicit) (hcx : c.covers x = true)
    (hout : ∀ i, i < n → c.value i ≠ .missing →
      f.store.value (x ^^^ Mask.bit i) = f.form.implicit) : f.IsEssential c where
  isPrime := hc.isPrime_of_neighbours hcx fun i hi hm hne ↦ hne (hout i hi hm)
  needed := by
    refine ⟨x, hx, hcx, fun d hd hdx ↦ ?_⟩
    have hcd : c.contains d = true :=
      Cube.contains_of_neighbours hcx (fun i hi hm hne ↦ hne (hout i hi hm)) hd.implicant hdx
    exact (hd.eq_of_contains hc hcd).symm

/-- **Every cover by prime implicants contains the essential ones.** -/
theorem IsEssential.mem {c : Cube n} (hc : f.IsEssential c) (hcover : f.IsCover cover)
    (hprime : ∀ d ∈ cover, f.IsPrime d) : c ∈ cover := by
  obtain ⟨x, hx, _, honly⟩ := hc.needed
  obtain ⟨d, hd, hdx⟩ := hcover.exists_covers hx
  rwa [← honly d (hprime d hd) hdx]

/-- **No cover has fewer cubes than there are essential prime implicants.** -/
theorem length_le_of_isEssential {cs : List (Cube n)} (hnodup : cs.Nodup)
    (hcs : ∀ c ∈ cs, f.IsEssential c) (hcover : f.IsCover cover) : cs.length ≤ cover.length := by
  have hex : ∀ d : Cube n, ∃ e : Cube n, d ∈ cover → f.IsPrime e ∧ e.contains d = true := by
    intro d
    by_cases hd : d ∈ cover
    · obtain ⟨e, he, hed⟩ := Cube.exists_isPrime_contains (hcover.isImplicant hd)
      exact ⟨e, fun _ ↦ ⟨he, hed⟩⟩
    · exact ⟨d, fun h ↦ absurd h hd⟩
  obtain ⟨prime, hprime⟩ := Classical.axiomOfChoice hex
  have hsub : cs ⊆ cover.map prime := by
    intro c hc
    obtain ⟨x, hx, _, honly⟩ := (hcs c hc).needed
    obtain ⟨d, hd, hdx⟩ := hcover.exists_covers hx
    obtain ⟨he, hed⟩ := hprime d hd
    rw [← honly _ he (Cube.contains_iff.1 hed x hdx)]
    exact List.mem_map_of_mem hd
  have hle : cs.length ≤ (cover.map prime).length :=
    (List.subperm_of_subset hnodup hsub).length_le
  rwa [List.length_map] at hle

/-! ## Where the essential prime implicants suffice -/

/-- Every explicit point is covered by an essential prime implicant. -/
def EssentialsSuffice (f : Formula n) : Prop :=
  ∀ x, f.store.value x = f.form.explicit → ∃ c, f.IsEssential c ∧ c.covers x = true

/-- **Then nothing but the essential prime implicants is left of an irredundant cover**: a further
cube would have a point of its own, but some essential one covers that. -/
theorem IsIrredundant.mem_iff (h : f.IsIrredundant cover) (hcover : f.IsCover cover)
    (hsuff : f.EssentialsSuffice) {c : Cube n} : c ∈ cover ↔ f.IsEssential c := by
  refine ⟨fun hc ↦ ?_, fun hc ↦ hc.mem hcover h.isPrime⟩
  obtain ⟨x, hx, _, honly⟩ := h.needed c hc
  obtain ⟨d, hd, hdx⟩ := hsuff x hx
  rwa [← honly d (hd.mem hcover h.isPrime) hdx]

end Formula

/-! ## Answers -/

/-- The outcome is a cover of the formula with the same names and form and without don't cares, and
the formula that was given is as it was, but for the mark. -/
structure Outcome.Answers {Trace : Type} (o : Outcome n Trace) (f : Formula n) : Prop where
  /-- The cover is one of the formula. -/
  isCover : f.IsCover o.minimized.terms
  /-- No don't cares are left. -/
  dontCares : o.minimized.dontCares = []
  /-- The name is kept. -/
  name : o.minimized.name = f.name
  /-- The variables are kept. -/
  vars : o.minimized.vars = f.vars
  /-- The form is kept. -/
  form : o.minimized.form = f.form
  /-- Nothing else happens to the formula. -/
  given : o.given = { f with minimized := true }

theorem Formula.terms_minimizedTo (f : Formula n) (cover : Cover n) :
    (f.minimizedTo cover).terms = firsts cover :=
  rfl

/-- An engine that finds a cover answers with it. -/
theorem Outcome.answers_minimizedTo {Trace : Type} {f : Formula n} {cover : Cover n}
    (h : f.IsCover cover) (trace : Option Trace) :
    (Outcome.mk f.mark (f.minimizedTo cover) trace).Answers f where
  isCover := h.firsts
  dontCares := rfl
  name := rfl
  vars := rfl
  form := rfl
  given := rfl

end TwoLevel
