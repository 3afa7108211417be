import TwoLevel.Formula.Text
import TwoLevel.Proofs.Cover.Tautology
import TwoLevel.Proofs.Cube.Neighbour
import TwoLevel.Proofs.Formula.Equality
import TwoLevel.Proofs.Formula.Expression
import TwoLevel.Proofs.Store.Update

/-!
# What the algebraic form says

The algebraic form of a formula is a Boolean expression, and here it is read as one.  What comes out
is the formula's own `expression`: of its terms, and each of these of its literals.

The two forms are mirror images.  A sum of products joins literals by products and terms by sums, a
product of sums the other way round, and the literals with a prime are the opposite ones.  What is
common to both is said with the neutral values of the two connectives: a term has that of its
literals' connective at the points it covers (`Cube.eval_expression_eq_neutral_iff`), and the
formula has that of its terms' connective where no term covers the point
(`eval_expression_eq_neutral_iff`).  So the constants take care of themselves.  The full cube is a
term without literals, a formula may be without terms, and nothing joined is the neutral value.

**The text determines the terms**, in their order, if form and names are known: it determines the
expression, the expression its parts, and each part where it has the neutral value, which is where
the cube covers.
-/

set_option autoImplicit false

namespace TwoLevel

open Expression

variable {n : Nat} {vars : List Char}

/-! ## The two forms -/

namespace Form

/-- What joins the literals of a term. -/
def within : Form → Connective
  | .sumOfProducts => .product
  | .productOfSums => .sum

/-- What joins the terms. -/
def between : Form → Connective
  | .sumOfProducts => .sum
  | .productOfSums => .product

/-- The literal that is written with a prime. -/
def negated : Form → Literal
  | .sumOfProducts => .zero
  | .productOfSums => .one

theorem neutral_within_ne (form : Form) : form.within.neutral ≠ form.between.neutral := by
  cases form <;> decide

theorem eq_neutral_between_iff {form : Form} {b : Bool} :
    b = form.between.neutral ↔ b ≠ form.within.neutral := by
  cases form <;> cases b <;> decide

theorem explicit_eq (form : Form) :
    form.explicit = if form.within.neutral then .one else .zero := by
  cases form <;> rfl

theorem implicit_eq (form : Form) :
    form.implicit = if form.between.neutral then .one else .zero := by
  cases form <;> rfl

end Form

/-! ## Names and points -/

/-- The values of the variables at a point; the first name has the most significant bit. -/
def Names.valuation (vars : List Char) (x : BitVec n) (c : Char) : Bool :=
  x.getMsbD (vars.idxOf c)

theorem Names.valuation_eq (hvars : vars.Nodup) {i : Nat} (hi : i < n) {c : Char}
    (hc : vars[n - 1 - i]? = some c) (x : BitVec n) : valuation vars x c = x.getLsbD i := by
  obtain ⟨hlt, rfl⟩ := List.getElem?_eq_some_iff.1 hc
  have hplace : n - 1 - i < n := by omega
  have hback : n - 1 - (n - 1 - i) = i := by omega
  rw [valuation, hvars.idxOf_getElem, BitVec.getMsbD, decide_eq_true hplace, hback, Bool.true_and]

/-! ## Terms -/

namespace Cube

variable {c d : Cube n} {form : Form}

theorem getElem?_literalList {k : Nat} (hk : k < n) :
    c.literalList[k]? = some (c.value (n - 1 - k)) := by
  have hlt : k < (List.range n).length := by rwa [List.length_range]
  rw [literalList, List.getElem?_map, List.getElem?_reverse hlt, List.length_range,
    List.getElem?_range (by omega)]
  rfl

/-- Each explicit position is written by its own name. -/
theorem mem_named_iff (hvars : vars.length = n) {letter : Char} {l : Literal} :
    (letter, l) ∈ c.named vars ↔
      ∃ i, i < n ∧ vars[n - 1 - i]? = some letter ∧ c.value i = l ∧ l ≠ .missing := by
  rw [named, List.mem_filter, List.mem_iff_getElem?, bne_iff_ne]
  simp only [List.getElem?_zip_eq_some]
  constructor
  · rintro ⟨⟨k, hname, hl⟩, hne⟩
    have hk : k < n := hvars ▸ (List.getElem?_eq_some_iff.1 hname).1
    have hback : n - 1 - (n - 1 - k) = k := by omega
    rw [getElem?_literalList hk, Option.some_inj] at hl
    exact ⟨n - 1 - k, by omega, by rwa [hback], hl, hne⟩
  · rintro ⟨i, hi, hname, hl, hne⟩
    have hback : n - 1 - (n - 1 - i) = i := by omega
    refine ⟨⟨n - 1 - i, hname, ?_⟩, hne⟩
    rw [getElem?_literalList (by omega), hback, hl]

theorem exists_mem_named (hvars : vars.length = n) {i : Nat} (hi : i < n)
    (hm : c.missing.getLsbD i = false) :
    ∃ letter, vars[n - 1 - i]? = some letter ∧ (letter, c.value i) ∈ c.named vars := by
  have hlt : n - 1 - i < vars.length := by omega
  have hname : vars[n - 1 - i]? = some vars[n - 1 - i] := List.getElem?_eq_getElem hlt
  exact ⟨_, hname, (mem_named_iff hvars).2 ⟨i, hi, hname, rfl, value_ne_missing_iff.2 hm⟩⟩

theorem named_eq_nil_iff (hvars : vars.length = n) : c.named vars = [] ↔ c.isFull = true := by
  constructor
  · intro hnil
    rw [← Bool.not_eq_false]
    intro hfull
    obtain ⟨i, hi, hm⟩ := Cover.exists_explicit_of_not_isFull hfull
    obtain ⟨letter, _, hmem⟩ := exists_mem_named hvars hi hm
    rw [hnil] at hmem
    exact List.not_mem_nil hmem
  · intro hfull
    refine List.eq_nil_iff_forall_not_mem.2 fun ⟨letter, l⟩ hmem ↦ ?_
    obtain ⟨i, hi, _, rfl, hne⟩ := (mem_named_iff hvars).1 hmem
    rw [value_ne_missing_iff, beq_iff_eq.1 hfull, BitVec.getLsbD_allOnes, decide_eq_true hi] at hne
    cases hne

/-- A name, negated where it has the given literal. -/
def nameExpression (negated : Literal) (nl : Char × Literal) : Expression :=
  if nl.2 = negated then .not (.name nl.1) else .name nl.1

/-- A cube as a term of the given form. -/
def expression (form : Form) (vars : List Char) (c : Cube n) : Expression :=
  joined form.within ((c.named vars).map (nameExpression form.negated))

theorem eval_nameExpression_eq_neutral_iff {letter : Char} {l : Literal} (hl : l ≠ .missing)
    (valuation : Char → Bool) :
    (nameExpression form.negated (letter, l)).eval valuation = form.within.neutral ↔
      (l = .one ↔ valuation letter = true) := by
  rw [nameExpression]
  generalize hb : valuation letter = b
  cases form <;> cases l <;> cases b <;> simp_all [eval, Form.negated, Form.within,
    Connective.neutral]

/-- **A term has the neutral value at the points the cube covers.** -/
theorem eval_expression_eq_neutral_iff (form : Form) (hvars : Names.AreValid n vars)
    {x : BitVec n} :
    (c.expression form vars).eval (Names.valuation vars x) = form.within.neutral ↔
      c.covers x = true := by
  rw [expression, eval_joined_eq_neutral_iff, List.forall_mem_map, covers_iff]
  constructor
  · intro h i hi hm
    obtain ⟨letter, hname, hmem⟩ := exists_mem_named hvars.length_eq hi hm
    have heval := h _ hmem
    rw [eval_nameExpression_eq_neutral_iff (value_ne_missing_iff.2 hm), value_eq_one_iff,
      Names.valuation_eq hvars.nodup hi hname] at heval
    exact Bool.eq_iff_iff.2 heval
  · rintro h ⟨letter, l⟩ hmem
    obtain ⟨i, hi, hname, rfl, hne⟩ := (mem_named_iff hvars.length_eq).1 hmem
    rw [eval_nameExpression_eq_neutral_iff hne, value_eq_one_iff,
      Names.valuation_eq hvars.nodup hi hname, h i hi (value_ne_missing_iff.1 hne)]

/-- Different cubes are different terms. -/
theorem expression_injective (form : Form) (hvars : Names.AreValid n vars) :
    Function.Injective (expression (n := n) form vars) := by
  intro c d h
  refine ext_covers fun x ↦ ?_
  rw [← eval_expression_eq_neutral_iff form hvars, h, eval_expression_eq_neutral_iff form hvars]

theorem parts_nameExpression (k : Connective) (negated : Literal) (nl : Char × Literal) :
    (nameExpression negated nl).parts k = [nameExpression negated nl] := by
  rw [nameExpression]
  split <;> rfl

/-- A term is a single part of the formula. -/
theorem parts_expression (c : Cube n) :
    (c.expression form vars).parts form.between = [c.expression form vars] :=
  parts_joined_of_ne form.neutral_within_ne
    (List.forall_mem_map.2 fun nl _ ↦ parts_nameExpression _ _ nl)

theorem isFactor_nameChars {negated : Literal} {nl : Char × Literal}
    (hname : Names.isName nl.1 = true) :
    IsFactor (nameChars negated nl) (nameExpression negated nl) := by
  rw [nameChars, nameExpression]
  split
  · exact (isFactor_name hname).prime
  · exact isFactor_name hname

theorem isFactor_nameChars_of_mem (hvars : Names.AreValid n vars) {negated : Literal} :
    ∀ nl ∈ c.named vars, IsFactor (nameChars negated nl) (nameExpression negated nl) := by
  rintro ⟨letter, l⟩ hmem
  obtain ⟨i, _, hname, _⟩ := (mem_named_iff hvars.length_eq).1 hmem
  exact isFactor_nameChars (hvars.isName _ (List.mem_of_getElem? hname))

/-- A term of a sum is written as a product. -/
theorem isProduct_algebraicChars (hvars : Names.AreValid n vars) (c : Cube n) :
    IsProduct (c.algebraicChars .sumOfProducts vars) (c.expression .sumOfProducts vars) := by
  rw [algebraicChars, expression]
  split
  · next hfull =>
    rw [(named_eq_nil_iff hvars.length_eq).2 hfull]
    exact (isFactor_constant true).isProduct
  · next hfull =>
    have hne : c.named vars ≠ [] := mt (named_eq_nil_iff hvars.length_eq).1 hfull
    exact isProduct_flatMap hne (isFactor_nameChars_of_mem hvars)

/-- A term of a product is written as a factor: a constant, or a sum between brackets. -/
theorem isFactor_algebraicChars (hvars : Names.AreValid n vars) (c : Cube n) :
    IsFactor (c.algebraicChars .productOfSums vars) (c.expression .productOfSums vars) := by
  rw [algebraicChars, expression]
  split
  · next hfull =>
    rw [(named_eq_nil_iff hvars.length_eq).2 hfull]
    exact isFactor_constant false
  · next hfull =>
    have hne : c.named vars ≠ [] := mt (named_eq_nil_iff hvars.length_eq).1 hfull
    exact (isSum_intercalate hne fun nl hnl ↦
      (isFactor_nameChars_of_mem hvars nl hnl).isProduct).bracket

end Cube

/-! ## Formulas -/

/-- With nothing between them texts stand side by side. -/
theorem intercalate_nil_map {α β : Type} (text : α → List β) (xs : List α) :
    [].intercalate (xs.map text) = xs.flatMap text := by
  induction xs with
  | nil => rfl
  | cons x xs ih =>
    cases xs with
    | nil => rw [List.map_singleton, List.intercalate_singleton, List.flatMap_singleton]
    | cons y ys =>
      rw [List.map_cons, List.map_cons, List.intercalate_cons_cons, List.append_nil,
        ← List.map_cons, ih]
      rfl

namespace Formula

variable {f g : Formula n}

/-- What the algebraic form says. -/
def expression (f : Formula n) : Expression :=
  joined f.form.between (f.terms.map (Cube.expression f.form f.vars))

theorem isSum_algebraicChars (hvars : Names.AreValid n f.vars) :
    IsSum f.algebraicChars f.expression := by
  rw [algebraicChars, expression]
  cases hform : f.form with
  | sumOfProducts =>
    split
    · next hnil =>
      rw [List.isEmpty_iff.1 hnil]
      exact (isFactor_constant false).isProduct.isSum
    · next hne =>
      exact isSum_intercalate (mt List.isEmpty_iff.2 hne)
        fun c _ ↦ Cube.isProduct_algebraicChars hvars c
  | productOfSums =>
    split
    · next hnil =>
      rw [List.isEmpty_iff.1 hnil]
      exact (isFactor_constant true).isProduct.isSum
    · next hne =>
      rw [separator, intercalate_nil_map]
      exact (isProduct_flatMap (mt List.isEmpty_iff.2 hne)
        fun c _ ↦ Cube.isFactor_algebraicChars hvars c).isSum

/-- **The algebraic form is read as the expression of the formula.** -/
theorem read?_algebraic (hvars : Names.AreValid n f.vars) :
    read? (f.algebraic false) = some f.expression :=
  (isSum_algebraicChars hvars).read?

/-- **The formula has the neutral value where no term covers the point.** -/
theorem eval_expression_eq_neutral_iff (hvars : Names.AreValid n f.vars) {x : BitVec n} :
    f.expression.eval (Names.valuation f.vars x) = f.form.between.neutral ↔
      f.terms.covers x = false := by
  rw [expression, eval_joined_eq_neutral_iff, List.forall_mem_map, Cover.covers_eq_false_iff]
  refine forall₂_congr fun c _ ↦ ?_
  rw [Form.eq_neutral_between_iff, Ne, Cube.eval_expression_eq_neutral_iff f.form hvars,
    Bool.not_eq_true]

theorem eval_expression (hvars : Names.AreValid n f.vars) (x : BitVec n) :
    f.expression.eval (Names.valuation f.vars x) =
      if f.terms.covers x then f.form.within.neutral else f.form.between.neutral := by
  cases hcovers : f.terms.covers x with
  | false => exact (eval_expression_eq_neutral_iff hvars).2 hcovers
  | true =>
    have hne := mt (eval_expression_eq_neutral_iff hvars (x := x)).1 (by simp [hcovers])
    exact Decidable.not_not.1 (mt Form.eq_neutral_between_iff.2 hne)

/-- The terms can be told from the expression. -/
theorem expression_eq_iff (hvars : Names.AreValid n f.vars) (hgvars : g.vars = f.vars)
    (hform : g.form = f.form) : g.expression = f.expression ↔ g.terms = f.terms := by
  rw [expression, expression, hgvars, hform]
  constructor
  · intro h
    have hparts := congrArg (parts f.form.between) h
    rw [parts_joined (List.forall_mem_map.2 fun c _ ↦ c.parts_expression),
      parts_joined (List.forall_mem_map.2 fun c _ ↦ c.parts_expression)] at hparts
    exact List.map_injective_iff.2 (Cube.expression_injective f.form hvars) hparts
  · intro h
    rw [h]

/-! ## What the text denotes -/

/-- An expression says what the terms of a formula say. -/
structure Denotes (f : Formula n) (e : Expression) : Prop where
  /-- A sum of products is one where some term covers the point. -/
  eval_of_sumOfProducts : f.form = .sumOfProducts → ∀ x : BitVec n,
    (e.eval (Names.valuation f.vars x) = true ↔ ∃ c ∈ f.terms, c.covers x = true)
  /-- A product of sums is one where no term does. -/
  eval_of_productOfSums : f.form = .productOfSums → ∀ x : BitVec n,
    (e.eval (Names.valuation f.vars x) = true ↔ ¬ ∃ c ∈ f.terms, c.covers x = true)
  /-- Where no don't care covers the point, the output is the value of the expression. -/
  valueAt_eq : ∀ x : BitVec n, f.dontCares.covers x = false →
    f.store.valueAt x.toNat =
      .ok (if e.eval (Names.valuation f.vars x) then .one else .zero)

theorem denotes_expression (hvars : Names.AreValid n f.vars) : f.Denotes f.expression where
  eval_of_sumOfProducts hform x := by
    rw [eval_expression hvars, hform, ← Cover.covers_iff]
    cases f.terms.covers x <;> decide
  eval_of_productOfSums hform x := by
    rw [eval_expression hvars, hform, ← Cover.covers_iff]
    cases f.terms.covers x <;> decide
  valueAt_eq x hdc := by
    rw [Store.valueAt_toNat, eval_expression hvars]
    cases hcovers : f.terms.covers x with
    | false =>
      have hvalue := Store.value_eq_implicit_iff.2 ⟨hdc, hcovers⟩
      exact congrArg _ (hvalue.trans f.form.implicit_eq)
    | true =>
      have hvalue := Store.value_eq_explicit_iff.2 ⟨hdc, hcovers⟩
      exact congrArg _ (hvalue.trans f.form.explicit_eq)

/-- **The algebraic form is canonical for the terms**: formulas in the same form with the same names
have the same text exactly when they have the same terms in the same order. -/
theorem algebraic_eq_iff (hvars : Names.AreValid n f.vars) (hgvars : g.vars = f.vars)
    (hform : g.form = f.form) :
    g.algebraic false = f.algebraic false ↔ g.terms = f.terms := by
  constructor
  · intro h
    have hread := congrArg read? h
    rw [read?_algebraic hvars, read?_algebraic (hgvars ▸ hvars), Option.some_inj] at hread
    exact (expression_eq_iff hvars hgvars hform).1 hread
  · intro h
    rw [algebraic, algebraic, algebraicChars, algebraicChars, h, hgvars, hform]
    rfl

/-- **The algebraic form denotes the function.**  Read as a Boolean expression it is one at the
points that the terms of a sum of products cover and those of a product of sums do not, so that
don't cares aside it has the value of the formula.  And it is that of no other terms. -/
theorem algebraic_denotes (hf : f.Reachable) :
    (∃ e, read? (f.algebraic false) = some e ∧ f.Denotes e) ∧
    ∀ g : Formula n, g.vars = f.vars → g.form = f.form →
      (g.algebraic false = f.algebraic false ↔ g.terms = f.terms) :=
  ⟨⟨_, read?_algebraic hf.areValid, denotes_expression hf.areValid⟩,
    fun _ hvars hform ↦ algebraic_eq_iff hf.areValid hvars hform⟩

/-- Two sums, and a don't care. -/
def twoSums : Formula 3 :=
  ofStore
    (Store.ofCubes .productOfSums [Cube.ofMasks 2#3 1#3, Cube.halfSpace 0 true] [Cube.minterm 0#3])
    defaultName (Names.default 3)

theorem algebraic_denotes_twoSums :
    twoSums.Reachable ∧
    (∃ e, read? "(c + b')(a')" = some e ∧ twoSums.Denotes e) ∧
    ∀ g : Formula 3, g.vars = ['c', 'b', 'a'] → g.form = .productOfSums →
      (g.algebraic false = "(c + b')(a')" ↔
        g.terms = [Cube.ofMasks 2#3 1#3, Cube.halfSpace 0 true]) := by
  have hset : (ofCubes .productOfSums [Cube.ofMasks 2#3 1#3, Cube.halfSpace 0 true]).setAt 0
      .dontCare = .ok (true, twoSums) := rfl
  have htwo : twoSums.Reachable := .setAt (reachable_ofCubes _ (by decide) (by decide)) hset
  exact ⟨htwo, algebraic_denotes htwo⟩

end Formula

end TwoLevel
