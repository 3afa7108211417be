import TwoLevel.Formula.Names

/-!
# Boolean expressions and how they are read

A Boolean expression is written with names and the constants `0` and `1`, side by side for a
product and with `+` between for a sum, with brackets, and with a prime after what is negated.
`Expression` is what such a text stands for, and `Expression.read?` reads it off the text.  The
reader knows nothing of cubes and formulas; it takes every expression in this notation.

**One character at a time.**  A prime negates the factor before it.  A product ends at a `+`, and a
sum at the bracket that closes it or with the text.  So nothing need be kept of what stands between
two brackets but the products that have ended and the factors of the one that has not, a `Frame`.
An opening bracket puts the frame aside, and the closing one makes a factor of its sum in the frame
that was put aside last.

**Three ways to be read.**  Some characters are read as a factor, as a product or as a sum
(`IsFactor`, `IsProduct`, `IsSum`) if that is what they are to the reader whatever it has read
before.  For each way to write an expression there is one lemma that makes it one of these out of
its parts.

Sums and products differ in nothing but the `Connective`, so what is proved of one is proved of the
other: the neutral value comes out where it is the value of every part
(`eval_joined_eq_neutral_iff`), and the parts can be told from the expression (`parts_joined`).
-/

set_option autoImplicit false

namespace TwoLevel

/-! ## Expressions -/

/-- What two expressions are joined by. -/
inductive Connective where
  | sum
  | product
deriving DecidableEq, Repr

namespace Connective

/-- The value of two joined expressions. -/
def apply : Connective → Bool → Bool → Bool
  | .sum => or
  | .product => and

/-- The value that changes nothing when it is joined. -/
def neutral : Connective → Bool
  | .sum => false
  | .product => true

theorem apply_eq_neutral_iff {k : Connective} {a b : Bool} :
    k.apply a b = k.neutral ↔ a = k.neutral ∧ b = k.neutral := by
  cases k <;> cases a <;> cases b <;> decide

end Connective

/-- A Boolean expression. -/
inductive Expression where
  | constant (value : Bool)
  | name (c : Char)
  | not (e : Expression)
  | join (k : Connective) (e f : Expression)
deriving DecidableEq, Repr

namespace Expression

variable {k : Connective} {es : List Expression} {valuation : Char → Bool}

/-- The value of an expression where its names have the given values. -/
def eval (valuation : Char → Bool) : Expression → Bool
  | constant value => value
  | name c => valuation c
  | not e => !e.eval valuation
  | join k e f => k.apply (e.eval valuation) (f.eval valuation)

/-- The sum or the product of some expressions. -/
def joined (k : Connective) : List Expression → Expression
  | [] => constant k.neutral
  | e :: es => es.foldl (join k) e

theorem joined_concat {e : Expression} (f : Expression) :
    joined k (e :: es ++ [f]) = join k (joined k (e :: es)) f := by
  rw [List.cons_append, joined, List.foldl_append]
  rfl

theorem eval_foldl_eq_neutral_iff {e : Expression} :
    (es.foldl (join k) e).eval valuation = k.neutral ↔
      e.eval valuation = k.neutral ∧ ∀ f ∈ es, f.eval valuation = k.neutral := by
  induction es generalizing e with
  | nil => exact (and_iff_left fun _ h ↦ absurd h List.not_mem_nil).symm
  | cons f es ih =>
    rw [List.foldl_cons, ih, eval, Connective.apply_eq_neutral_iff, List.forall_mem_cons, and_assoc]

/-- **A sum is zero where all its summands are, a product one where all its factors are.** -/
theorem eval_joined_eq_neutral_iff :
    (joined k es).eval valuation = k.neutral ↔ ∀ e ∈ es, e.eval valuation = k.neutral := by
  cases es with
  | nil => exact iff_of_true rfl fun _ h ↦ absurd h List.not_mem_nil
  | cons e es => rw [joined, eval_foldl_eq_neutral_iff, List.forall_mem_cons]

/-! ## The parts of a sum or a product -/

/-- What an expression is the sum of, or the product of. -/
def parts (k : Connective) : Expression → List Expression
  | constant value => if value = k.neutral then [] else [constant value]
  | name c => [name c]
  | not e => [not e]
  | join j e f => if j = k then e.parts k ++ [f] else [join j e f]

theorem parts_foldl {e : Expression} : (es.foldl (join k) e).parts k = e.parts k ++ es := by
  induction es generalizing e with
  | nil => exact (List.append_nil _).symm
  | cons f es ih =>
    rw [List.foldl_cons, ih, parts, if_pos rfl, List.append_assoc]
    rfl

/-- **The parts can be told from what they are joined to**, if they are not joined that way
themselves. -/
theorem parts_joined (h : ∀ e ∈ es, e.parts k = [e]) : (joined k es).parts k = es := by
  cases es with
  | nil => exact if_pos rfl
  | cons e es =>
    rw [joined, parts_foldl, h e List.mem_cons_self]
    rfl

/-- What is joined one way is a single part of what is joined the other way. -/
theorem parts_joined_of_ne {j : Connective} (hne : j.neutral ≠ k.neutral)
    (h : ∀ e ∈ es, e.parts k = [e]) : (joined j es).parts k = [joined j es] := by
  cases es with
  | nil => exact if_neg hne
  | cons e es =>
    rcases List.eq_nil_or_concat es with rfl | ⟨init, last, rfl⟩
    · exact h e List.mem_cons_self
    · rw [List.concat_eq_append, ← List.cons_append, joined_concat]
      refine if_neg ?_
      rintro rfl
      exact hne rfl

/-! ## Reading -/

/-- What has been read since a bracket was opened. -/
structure Frame where
  /-- The products that have ended, the latest first. -/
  products : List Expression
  /-- The factors of the product that has not ended, the latest first. -/
  factors : List Expression

namespace Frame

/-- Nothing has been read. -/
def empty : Frame := ⟨[], []⟩

/-- One more factor has been read. -/
def push (frame : Frame) (e : Expression) : Frame := ⟨frame.products, e :: frame.factors⟩

/-- The product that has not ended, if it has a factor. -/
def product? (frame : Frame) : Option Expression :=
  if frame.factors.isEmpty then none else some (joined .product frame.factors.reverse)

/-- The sum of all products. -/
def sum? (frame : Frame) : Option Expression :=
  frame.product?.map fun e ↦ joined .sum (frame.products.reverse ++ [e])

end Frame

/-- What has been read of a text. -/
structure Reader where
  /-- What has been read since the last bracket was opened that is still open. -/
  frame : Frame
  /-- The frames that were put aside before, the latest first. -/
  outer : List Frame

/-- A character that is no name is read. -/
def readSign? (frame : Frame) (outer : List Frame) : Char → Option Reader
  | ' ' => some ⟨frame, outer⟩
  | '0' => some ⟨frame.push (constant false), outer⟩
  | '1' => some ⟨frame.push (constant true), outer⟩
  | '\'' =>
    match frame.factors with
    | [] => none
    | e :: es => some ⟨⟨frame.products, not e :: es⟩, outer⟩
  | '+' => frame.product?.map fun e ↦ ⟨⟨e :: frame.products, []⟩, outer⟩
  | '(' => some ⟨.empty, frame :: outer⟩
  | ')' =>
    match outer with
    | [] => none
    | last :: outer => frame.sum?.map fun e ↦ ⟨last.push e, outer⟩
  | _ => none

/-- One more character is read. -/
def readChar? (reader : Reader) (c : Char) : Option Reader :=
  if Names.isName c then some ⟨reader.frame.push (name c), reader.outer⟩
  else readSign? reader.frame reader.outer c

/-- More characters are read. -/
def readChars? (reader : Reader) (text : List Char) : Option Reader := text.foldlM readChar? reader

/-- The expression that is written as the given text. -/
def read? (text : String) : Option Expression :=
  match readChars? ⟨.empty, []⟩ text.toList with
  | some ⟨frame, []⟩ => frame.sum?
  | _ => none

theorem readChars?_append (reader : Reader) (xs ys : List Char) :
    readChars? reader (xs ++ ys) = (readChars? reader xs).bind fun r ↦ readChars? r ys :=
  List.foldlM_append

/-! ## What is read as what -/

/-- The characters are read as one more factor. -/
def IsFactor (text : List Char) (e : Expression) : Prop :=
  ∀ frame outer, readChars? ⟨frame, outer⟩ text = some ⟨frame.push e, outer⟩

/-- The characters are read as a product. -/
def IsProduct (text : List Char) (e : Expression) : Prop :=
  ∀ products outer, ∃ frame, readChars? ⟨⟨products, []⟩, outer⟩ text = some ⟨frame, outer⟩ ∧
    frame.products = products ∧ frame.product? = some e

/-- The characters are read as a sum. -/
def IsSum (text : List Char) (e : Expression) : Prop :=
  ∀ outer, ∃ frame, readChars? ⟨.empty, outer⟩ text = some ⟨frame, outer⟩ ∧ frame.sum? = some e

section

variable {text : List Char} {e : Expression}

theorem isFactor_name {c : Char} (h : Names.isName c = true) : IsFactor [c] (name c) := by
  intro frame outer
  rw [readChars?, List.foldlM_cons, readChar?, if_pos h]
  rfl

theorem isFactor_constant (value : Bool) :
    IsFactor [if value then '1' else '0'] (constant value) := by
  cases value <;> exact fun _ _ ↦ rfl

theorem IsFactor.prime (h : IsFactor text e) : IsFactor (text ++ ['\'']) (not e) := by
  intro frame outer
  rw [readChars?_append, h]
  rfl

theorem IsFactor.isProduct (h : IsFactor text e) : IsProduct text e :=
  fun products outer ↦ ⟨_, h ⟨products, []⟩ outer, rfl, rfl⟩

theorem IsProduct.isSum (h : IsProduct text e) : IsSum text e := by
  intro outer
  obtain ⟨frame, hread, hproducts, hproduct⟩ := h [] outer
  refine ⟨frame, hread, ?_⟩
  rw [Frame.sum?, hproduct, hproducts]
  rfl

/-- A sum becomes a factor by brackets. -/
theorem IsSum.bracket (h : IsSum text e) : IsFactor ('(' :: text ++ [')']) e := by
  intro frame outer
  obtain ⟨inner, hread, hsum⟩ := h (frame :: outer)
  show readChars? ⟨.empty, frame :: outer⟩ (text ++ [')']) = _
  rw [readChars?_append, hread]
  show (inner.sum?.map _).bind _ = _
  rw [hsum]
  rfl

theorem IsSum.read? (h : IsSum text e) : read? (String.ofList text) = some e := by
  obtain ⟨frame, hread, hsum⟩ := h []
  rw [Expression.read?, String.toList_ofList, hread]
  exact hsum

example : read? "(a + b)'c + 0" =
    some (join .sum (join .product (not (join .sum (name 'a') (name 'b'))) (name 'c'))
      (constant false)) := by
  decide

example : read? "(a + )b" = none := by decide

end

section

variable {α : Type} {text : α → List Char} {meaning : α → Expression}

/-- Factors side by side are read one after the other. -/
theorem readChars?_flatMap {xs : List α} (h : ∀ x ∈ xs, IsFactor (text x) (meaning x))
    (frame : Frame) (outer : List Frame) :
    readChars? ⟨frame, outer⟩ (xs.flatMap text) =
      some ⟨⟨frame.products, (xs.map meaning).reverse ++ frame.factors⟩, outer⟩ := by
  induction xs generalizing frame with
  | nil => rfl
  | cons x xs ih =>
    rw [List.forall_mem_cons] at h
    rw [List.flatMap_cons, readChars?_append, h.1, Option.bind_some, ih h.2, List.map_cons,
      List.reverse_cons, List.append_assoc]
    rfl

/-- **Factors side by side are read as their product.** -/
theorem isProduct_flatMap {xs : List α} (hne : xs ≠ [])
    (h : ∀ x ∈ xs, IsFactor (text x) (meaning x)) :
    IsProduct (xs.flatMap text) (joined .product (xs.map meaning)) := by
  intro products outer
  refine ⟨_, readChars?_flatMap h _ outer, rfl, ?_⟩
  have hfactors : ((xs.map meaning).reverse ++ []).isEmpty = false := by
    rw [List.append_nil, List.isEmpty_eq_false_iff]
    exact fun hnil ↦ hne (List.map_eq_nil_iff.1 (List.reverse_eq_nil_iff.1 hnil))
  rw [Frame.product?, hfactors, List.append_nil, List.reverse_reverse]
  rfl

/-- The induction is on the products still to be read; those that have ended are left aside in the
frame, where the sum that is read finds them. -/
theorem exists_readChars?_intercalate {x : α} {xs : List α}
    (h : ∀ y ∈ x :: xs, IsProduct (text y) (meaning y)) (products : List Expression)
    (outer : List Frame) :
    ∃ frame, readChars? ⟨⟨products, []⟩, outer⟩
        ([' ', '+', ' '].intercalate ((x :: xs).map text)) = some ⟨frame, outer⟩ ∧
      frame.sum? = some (joined .sum (products.reverse ++ (x :: xs).map meaning)) := by
  induction xs generalizing x products with
  | nil =>
    obtain ⟨frame, hread, hproducts, hproduct⟩ := h x List.mem_cons_self products outer
    refine ⟨frame, ?_, ?_⟩
    · rw [List.map_singleton, List.intercalate_singleton]
      exact hread
    · rw [Frame.sum?, hproduct, hproducts]
      rfl
  | cons y ys ih =>
    rw [List.forall_mem_cons] at h
    obtain ⟨frame, hread, rfl, hproduct⟩ := h.1 products outer
    obtain ⟨last, hlast, hsum⟩ := ih h.2 (meaning x :: frame.products)
    refine ⟨last, ?_, ?_⟩
    · rw [List.map_cons, List.map_cons, List.intercalate_cons_cons, List.append_assoc,
        readChars?_append, hread, Option.bind_some]
      show (frame.product?.map _).bind _ = _
      rw [hproduct]
      exact hlast
    · rw [hsum, List.reverse_cons, List.append_assoc]
      rfl

/-- **Products with a plus between them are read as their sum.** -/
theorem isSum_intercalate {xs : List α} (hne : xs ≠ [])
    (h : ∀ x ∈ xs, IsProduct (text x) (meaning x)) :
    IsSum ([' ', '+', ' '].intercalate (xs.map text)) (joined .sum (xs.map meaning)) := by
  intro outer
  cases xs with
  | nil => exact absurd rfl hne
  | cons x xs => exact exists_readChars?_intercalate h [] outer

end

end Expression

end TwoLevel
