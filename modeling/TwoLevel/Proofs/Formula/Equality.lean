import TwoLevel.Proofs.Formula.Reachable
import TwoLevel.Proofs.Store.Views
import Mathlib.Data.List.Perm.Subperm
import Mathlib.Tactic.ByContra

/-!
# Equality of formulas

Two formulas are compared cube by cube: the lists have to be equally long, and every cube of the
first has to be in the second.  For lists without repetitions that is being the same up to order
(`Store.sameCubes_iff_perm`), and then the two formulas are the same function and the comparison
could have been made the other way round (`Store.function_eq_of_equal`).

The don't cares of a formula are never repeated.  Its terms can be.  The constructors leave out
repetitions and a change of form writes points out once, but setting an output puts parts of cubes
beside cubes that were there, and `Store.nodup_terms_set_iff` says when one of the parts is one of
them.  The smallest case is the cube of all points of one variable before the minterm of its upper
point: with the lower point taken out both are that minterm (`upperTwice`).  Of such a formula the
comparison says that it equals another function, and denies it when asked the other way round.
-/

set_option autoImplicit false

namespace TwoLevel

variable {n : Nat}

/-! ## Comparing cube by cube -/

namespace Store

variable {s t : Store n}

/-- **Without repetitions, lists that compare as equal are the same up to order.** -/
theorem sameCubes_iff_perm {f g : Cover n} (hf : f.Nodup) : sameCubes f g = true ↔ f.Perm g := by
  rw [sameCubes, Bool.and_eq_true, beq_iff_eq, List.all_eq_true]
  refine ⟨fun ⟨hlength, hmem⟩ ↦ ?_, fun h ↦ ⟨h.length_eq, fun c hc ↦ ?_⟩⟩
  · have hsubset : f ⊆ g := fun c hc ↦ List.contains_iff_mem.1 (hmem c hc)
    exact (List.subperm_of_subset hf hsubset).perm_of_length_le (Nat.le_of_eq hlength.symm)
  · exact List.contains_iff_mem.2 (h.mem_iff.1 hc)

theorem equal_iff_perm (hterms : s.terms.Nodup) (hdontCares : s.dontCares.Nodup) :
    s.equal t = true ↔
      s.form = t.form ∧ s.terms.Perm t.terms ∧ s.dontCares.Perm t.dontCares := by
  rw [equal, Bool.and_eq_true, Bool.and_eq_true, decide_eq_true_eq, sameCubes_iff_perm hterms,
    sameCubes_iff_perm hdontCares, and_assoc]

/-- The order of the cubes does not matter to the values. -/
theorem value_eq_of_perm (hform : s.form = t.form) (hterms : s.terms.Perm t.terms)
    (hdontCares : s.dontCares.Perm t.dontCares) (x : BitVec n) : s.value x = t.value x := by
  have hcovers : ∀ {f g : Cover n}, f.Perm g → f.covers x = g.covers x := fun h ↦ h.any_eq
  rw [value, value, hform, hcovers hterms, hcovers hdontCares]

/-- **Without repetitions the comparison is sound, and it is symmetric.** -/
theorem function_eq_of_equal (hterms : s.terms.Nodup) (hdontCares : s.dontCares.Nodup)
    (h : s.equal t = true) :
    s.form = t.form ∧ (∀ x, s.value x = t.value x) ∧ t.equal s = true := by
  obtain ⟨hform, hpterms, hpdontCares⟩ := (equal_iff_perm hterms hdontCares).1 h
  refine ⟨hform, value_eq_of_perm hform hpterms hpdontCares, ?_⟩
  rw [equal_iff_perm (hpterms.nodup_iff.1 hterms) (hpdontCares.nodup_iff.1 hdontCares)]
  exact ⟨hform.symm, hpterms.symm, hpdontCares.symm⟩

/-- Whatever is repeated, a store compares as equal to itself. -/
theorem equal_self (s : Store n) : s.equal s = true := by
  have hsame : ∀ f : Cover n, sameCubes f f = true := fun f ↦ by
    rw [sameCubes, Bool.and_eq_true, beq_iff_eq, List.all_eq_true]
    exact ⟨rfl, fun _ hc ↦ List.contains_iff_mem.2 hc⟩
  rw [equal, hsame, hsame, decide_eq_true rfl]
  rfl

/-! ## Repetitions -/

theorem nodup_splitOff_append_minterm_iff {f : Cover n} {x : BitVec n} :
    (splitOff x f ++ [Cube.minterm x]).Nodup ↔ (splitOff x f).Nodup := by
  rw [← List.concat_eq_append, List.nodup_concat]
  refine and_iff_right fun hmem ↦ ?_
  have hcovers : (splitOff x f).covers x = true :=
    Cover.covers_iff.2 ⟨_, hmem, Cube.covers_minterm.2 rfl⟩
  exact Bool.false_ne_true ((covers_splitOff_self f x).symm.trans hcovers)

/-- **When a change repeats a term**: one of the terms that are kept is a part, around the changed
point, of a term stored before it. -/
theorem nodup_terms_set_iff (h : s.terms.Nodup) {x : BitVec n} {output : Output}
    (hne : s.value x ≠ output) :
    (s.set x output).terms.Nodup ↔
      s.terms.Pairwise fun c d ↦ c.covers x = true → d.covers x = false → d ∉ c.without x := by
  rw [← nodup_splitOff_iff h]
  rcases s.set_cases x output with ⟨hv, _⟩ | ⟨_, hset⟩ | ⟨_, hset⟩ | ⟨_, hset⟩
  · exact absurd hv hne
  · rw [hset]
    rfl
  · rw [hset]
    exact nodup_splitOff_append_minterm_iff
  · rw [hset]
    rfl

end Store

/-! ## Formulas over given cubes -/

namespace Formula

theorem cubesOfSize_map (cs : Cover n) : cubesOfSize n (cs.map (Term.mk n)) = .ok cs := by
  induction cs with
  | nil => rfl
  | cons c cs ih =>
    rw [List.map_cons, cubesOfSize, dif_pos rfl, ih]
    rfl

/-- The formula over some cubes, with the names that variables have when nobody chose any. -/
def ofCubes (form : Form) (cubes : Cover n) : Formula n :=
  ofStore (Store.ofCubes form cubes []) defaultName (Names.default n)

/-- Different cubes, at least one, can be given as they are. -/
theorem reachable_ofCubes (form : Form) {c : Cube n} {cs : Cover n} (hn : n ≤ maxNamed)
    (hnodup : (c :: cs).Nodup) : (ofCubes form (c :: cs)).Reachable := by
  have hgiven : Formula.ofTerms form ((c :: cs).map (Term.mk n)) =
      .ok ⟨n, ofCubes form (c :: cs)⟩ := by
    rw [List.map_cons, Formula.ofTerms, checkNameable_eq_ok_iff.2 hn, ← List.map_cons,
      cubesOfSize_map]
    show Except.ok (⟨n, ofStore (Store.ofTerms form (c :: cs)) _ _⟩ : AnyFormula) = _
    rw [Store.ofTerms, firsts_eq_self hnodup]
    rfl
  exact .ofTerms hgiven

end Formula

/-! ## Comparing formulas -/

theorem Formula.equal_without_vars (f g : Formula n) : f.equal g false = f.store.equal g.store :=
  Bool.and_true _

/-- Formulas over one store compare as equal, if need be with the same names for the variables. -/
theorem Formula.equal_of_store_eq {f g : Formula n} {withVars : Bool} (hstore : f.store = g.store)
    (hvars : withVars = true → f.vars = g.vars) : f.equal g withVars = true := by
  rw [equal, hstore, Store.equal_self, Bool.true_and]
  cases withVars with
  | false => rfl
  | true => exact beq_iff_eq.2 (hvars rfl)

/-- Formulas whose variables have different names do not. -/
theorem Formula.equal_of_vars_ne {f g : Formula n} (h : f.vars ≠ g.vars) :
    f.equal g true = false := by
  rw [equal, beq_false_of_ne h]
  exact Bool.and_false _

namespace AnyFormula

theorem equal_mk (f g : Formula n) (withVars : Bool) :
    AnyFormula.equal ⟨n, f⟩ ⟨n, g⟩ withVars = f.equal g withVars :=
  dif_pos rfl

theorem size_eq_of_equal {f g : AnyFormula} {withVars : Bool} (h : f.equal g withVars = true) :
    f.1 = g.1 := by
  by_contra hne
  rw [equal, dif_neg (Ne.symm hne)] at h
  exact Bool.false_ne_true h

/-- **Formulas that compare as equal are the same function**, and compare as equal the other way
round, if the first does not repeat a term. -/
theorem agrees_of_equal {f g : AnyFormula} (hf : f.2.Reachable) (hnodup : f.2.terms.Nodup)
    (h : f.equal g false = true) :
    f.1 = g.1 ∧ f.2.form = g.2.form ∧
      (∀ index, f.2.store.valueAt index = g.2.store.valueAt index) ∧ g.equal f false = true := by
  have hsize := size_eq_of_equal h
  obtain ⟨n, f⟩ := f
  obtain ⟨m, g⟩ := g
  obtain rfl : n = m := hsize
  rw [equal_mk, Formula.equal_without_vars] at h
  have hdontCares := hf.store.isConsistent.dontCares.nodup
  obtain ⟨hform, hvalue, hback⟩ := Store.function_eq_of_equal hnodup hdontCares h
  refine ⟨rfl, hform, Store.valueAt_eq_iff.2 hvalue, ?_⟩
  rw [equal_mk, Formula.equal_without_vars, hback]

/-- Two overlapping half spaces, with the point in both made a don't care. -/
def splitHalves : Formula 2 :=
  Formula.ofStore
    (Store.ofCubes .sumOfProducts [Cube.minterm 1#2, Cube.minterm 2#2] [Cube.minterm 3#2])
    Formula.defaultName (Names.default 2)

/-- The same function, its points listed in another order. -/
def listedPoints : Formula 2 :=
  Formula.ofStore
    (Store.ofCubes .sumOfProducts [Cube.minterm 2#2, Cube.minterm 1#2] [Cube.minterm 3#2])
    Formula.defaultName (Names.default 2)

theorem agrees_of_equal_splitHalves :
    splitHalves.Reachable ∧ splitHalves.terms.Nodup ∧
    AnyFormula.equal ⟨2, splitHalves⟩ ⟨2, listedPoints⟩ false = true ∧
    (∀ index, splitHalves.store.valueAt index = listedPoints.store.valueAt index) ∧
    AnyFormula.equal ⟨2, listedPoints⟩ ⟨2, splitHalves⟩ false = true := by
  have hset : (Formula.ofCubes .sumOfProducts [Cube.halfSpace 0 true, Cube.halfSpace 1 true]).setAt
      3 .dontCare = .ok (true, splitHalves) := rfl
  have hsplit : splitHalves.Reachable :=
    .setAt (Formula.reachable_ofCubes _ (by decide) (by decide)) hset
  have hnodup : splitHalves.terms.Nodup := by decide
  have hequal : AnyFormula.equal ⟨2, splitHalves⟩ ⟨2, listedPoints⟩ false = true := by decide
  obtain ⟨_, _, hvalue, hback⟩ :=
    agrees_of_equal (f := ⟨2, splitHalves⟩) hsplit hnodup hequal
  exact ⟨hsplit, hnodup, hequal, hvalue, hback⟩

/-! ## A repeated term -/

/-- The cube of all points of one variable before the minterm of the upper point, with the lower
point taken out. -/
def upperTwice : Formula 1 :=
  Formula.ofCubes .sumOfProducts [Cube.minterm 1#1, Cube.minterm 1#1]

/-- Both points of one variable. -/
def bothPoints : Formula 1 :=
  Formula.ofCubes .sumOfProducts [Cube.minterm 1#1, Cube.minterm 0#1]

theorem reachable_upperTwice : upperTwice.Reachable := by
  have hset : (Formula.ofCubes .sumOfProducts [Cube.full 1, Cube.minterm 1#1]).setAt 0 .zero =
      .ok (true, upperTwice) := rfl
  exact .setAt (Formula.reachable_ofCubes _ (by decide) (by decide)) hset

/-- **With a repeated term the comparison is neither sound nor symmetric.** -/
theorem equal_upperTwice_bothPoints :
    upperTwice.Reachable ∧ bothPoints.Reachable ∧
    AnyFormula.equal ⟨1, upperTwice⟩ ⟨1, bothPoints⟩ false = true ∧
    upperTwice.store.valueAt 0 = .ok .zero ∧ bothPoints.store.valueAt 0 = .ok .one ∧
    AnyFormula.equal ⟨1, bothPoints⟩ ⟨1, upperTwice⟩ false = false := by
  refine ⟨reachable_upperTwice, Formula.reachable_ofCubes _ (by decide) (by decide), ?_⟩
  decide

end AnyFormula

end TwoLevel
