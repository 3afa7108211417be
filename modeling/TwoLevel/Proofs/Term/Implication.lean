import TwoLevel.Proofs.Packed.Operations

/-!
# Implication and agreement

Two terms **agree** when the second has the same literal at every position that is explicit in the
first (`Term.Agrees`).  A missing position of the second is no literal and agrees with none.  Then,
and only then, the first covers all that the second does, which is the question `Term.contains`.

`Term.implies` is the part of that question that compares ones.  It does not look at what the second
term has missing, and as a missing position is not a one, it is taken for a zero.  So it is asked
whether the first term covers the *least* index of the second (`implies_iff_leastIndex_mem`), and
the two questions differ at one kind of position, a zero of the first term that the second leaves
open (`IsOpenZero`):

* where there is none, implication, containment and agreement are one question;
* where there is one, there is no agreement and no containment, and implication may hold all the
  same (`implies_zero_full`).

A point leaves nothing open.  For a second term without missing positions implication is therefore
what it is used for, membership of its index.
-/

set_option autoImplicit false

namespace TwoLevel

/-! ## Position by position -/

namespace Cube

variable {n i : Nat} {c d : Cube n}

/-- At an explicit position of one cube, another has the same literal if it is explicit there and
has the same bit. -/
theorem value_eq_iff (hm : c.missing.getLsbD i = false) : d.value i = c.value i ↔
    d.missing.getLsbD i = false ∧ c.literals.getLsbD i = d.literals.getLsbD i := by
  rw [value, value, hm]
  cases d.missing.getLsbD i <;> cases c.literals.getLsbD i <;> cases d.literals.getLsbD i <;> simp

/-- The bits are the same also where the one cube is zero and the position is missing in the
other. -/
theorem literals_eq_iff (hm : c.missing.getLsbD i = false) :
    c.literals.getLsbD i = d.literals.getLsbD i ↔
      d.value i = c.value i ∨ (c.value i = .zero ∧ d.value i = .missing) := by
  rw [value_eq_iff hm, value_eq_missing_iff]
  cases hd : d.missing.getLsbD i with
  | false => simp
  | true =>
    rw [literals_eq_false hd, value, hm]
    cases c.literals.getLsbD i <;> simp

theorem contains_iff_value : c.contains d = true ↔
    ∀ i, i < n → c.value i ≠ .missing → d.value i = c.value i := by
  rw [contains_iff_forall_position]
  refine forall₂_congr fun i _ ↦ ?_
  rw [value_ne_missing_iff]
  exact forall_congr' fun hm ↦ (value_eq_iff hm).symm

theorem implies_iff_value : c.implies d = true ↔
    ∀ i, i < n → c.value i ≠ .missing →
      d.value i = c.value i ∨ (c.value i = .zero ∧ d.value i = .missing) := by
  have hcovers : c.implies d = c.covers d.literals := rfl
  rw [hcovers, covers_iff]
  refine forall₂_congr fun i _ ↦ ?_
  rw [value_ne_missing_iff]
  exact forall_congr' literals_eq_iff

end Cube

namespace Term

variable {a b : Term}

/-! ## Agreement -/

/-- At every explicit position of the first term the second has the same literal. -/
def Agrees (a b : Term) : Prop :=
  ∀ i, i < a.size → a.cube.value i ≠ .missing → b.cube.value i = a.cube.value i

/-- Agreement is checked position by position. -/
instance (a b : Term) : Decidable (a.Agrees b) :=
  inferInstanceAs (Decidable (∀ i, i < a.size → a.cube.value i ≠ .missing →
    b.cube.value i = a.cube.value i))

/-- The first term is zero at a position that is missing in the second. -/
structure IsOpenZero (a b : Term) (position : Nat) : Prop where
  /-- It is a position of the first term. -/
  lt_size : position < a.size
  /-- The first term is zero there. -/
  value_eq_zero : a.cube.value position = .zero
  /-- The second term leaves it open. -/
  value_eq_missing : b.cube.value position = .missing

theorem IsOpenZero.not_agrees {i : Nat} (h : a.IsOpenZero b i) : ¬ a.Agrees b := by
  intro hagrees
  have hexplicit : a.cube.value i ≠ .missing := by
    rw [h.value_eq_zero]
    decide
  have hvalue := hagrees i h.lt_size hexplicit
  rw [h.value_eq_zero, h.value_eq_missing] at hvalue
  cases hvalue

/-- A term without missing positions leaves nothing open. -/
theorem not_isOpenZero_of_explicit (h : b.cube.count .missing = 0) (i : Nat) :
    ¬ a.IsOpenZero b i := by
  intro hopen
  have hmissing : b.cube.missing = 0#b.size := Mask.count_eq_zero_iff.1 h
  have hbit := Cube.value_eq_missing_iff.1 hopen.value_eq_missing
  rw [hmissing, BitVec.getLsbD_zero] at hbit
  cases hbit

/-! ## Terms of one size -/

section

variable (hsize : a.size = b.size)

include hsize

/-- Two terms of one size are two cubes over the same positions. -/
theorem exists_eq_mk : ∃ (n : Nat) (c d : Cube n), a = ⟨n, c⟩ ∧ b = ⟨n, d⟩ := by
  obtain ⟨n, c⟩ := a
  obtain ⟨m, d⟩ := b
  obtain rfl : n = m := hsize
  exact ⟨n, c, d, rfl, rfl⟩

/-- **Containment is agreement.** -/
theorem contains_iff_agrees : a.contains b = true ↔ a.Agrees b := by
  obtain ⟨n, c, d, rfl, rfl⟩ := exists_eq_mk hsize
  rw [contains_mk, Cube.contains_iff_value]
  rfl

/-- **Implication is agreement but for open zeros.** -/
theorem implies_iff : a.implies b = true ↔
    ∀ i, i < a.size → a.cube.value i ≠ .missing →
      b.cube.value i = a.cube.value i ∨ a.IsOpenZero b i := by
  obtain ⟨n, c, d, rfl, rfl⟩ := exists_eq_mk hsize
  rw [implies_mk, Cube.implies_iff_value]
  refine forall₃_congr fun i hi _ ↦ or_congr_right ?_
  exact ⟨fun h ↦ ⟨hi, h.1, h.2⟩, fun h ↦ ⟨h.value_eq_zero, h.value_eq_missing⟩⟩

theorem implies_iff_leastIndex_mem : a.implies b = true ↔ b.leastIndex ∈ a.covered := by
  obtain ⟨n, c, d, rfl, rfl⟩ := exists_eq_mk hsize
  rw [implies_mk]
  exact (toNat_mem_covered (t := ⟨n, c⟩)).symm

theorem agrees_iff : a.Agrees b ↔ a.implies b = true ∧ ∀ i, ¬ a.IsOpenZero b i := by
  rw [implies_iff hsize]
  constructor
  · intro h
    exact ⟨fun i hi hm ↦ Or.inl (h i hi hm), fun _ hopen ↦ hopen.not_agrees h⟩
  · rintro ⟨h, hopen⟩ i hi hm
    exact (h i hi hm).resolve_right (hopen i)

end

/-! ## One question or two -/

/-- Implication, agreement and containment come to the same for two terms. -/
structure QuestionsCoincide (a b : Term) : Prop where
  /-- The first implies the second exactly if the two agree. -/
  implies_iff_agrees : a.implies b = true ↔ a.Agrees b
  /-- The first implies the second exactly if it contains it. -/
  implies_eq_contains : a.implies b = a.contains b

/-- **The questions coincide unless implication holds across an open zero.** -/
theorem questionsCoincide_iff (hsize : a.size = b.size) :
    a.QuestionsCoincide b ↔ (a.implies b = true → ∀ i, ¬ a.IsOpenZero b i) := by
  have hagrees := agrees_iff hsize
  constructor
  · intro h himplies
    exact (hagrees.1 (h.implies_iff_agrees.1 himplies)).2
  · intro h
    have hiff : a.implies b = true ↔ a.Agrees b :=
      ⟨fun himplies ↦ hagrees.2 ⟨himplies, h himplies⟩, fun hag ↦ (hagrees.1 hag).1⟩
    exact ⟨hiff, Bool.eq_iff_iff.2 (hiff.trans (contains_iff_agrees hsize).symm)⟩

/-- What the two questions ask of two terms: containment, whether they agree, and implication,
whether they would if every missing position of the second term were a zero. -/
structure ReadsMissingAsZero (a b : Term) : Prop where
  /-- One term contains another if they agree. -/
  contains_iff : a.contains b = true ↔ a.Agrees b
  /-- It implies the other if they agree at every position but those where the one is zero and the
  other leaves it open. -/
  implies_iff : a.implies b = true ↔
    ∀ i, i < a.size → a.cube.value i ≠ .missing →
      b.cube.value i = a.cube.value i ∨ a.IsOpenZero b i
  /-- It implies the other if it covers the least index of the other. -/
  implies_iff_leastIndex_mem : a.implies b = true ↔ b.leastIndex ∈ a.covered
  /-- The questions are the same for any two terms without such a position, and for those that have
  one where implication does not hold. -/
  coincide_iff : a.QuestionsCoincide b ↔ (a.implies b = true → ∀ i, ¬ a.IsOpenZero b i)
  /-- They are the same if the other has no missing positions. -/
  coincide_of_explicit : b.cube.count .missing = 0 → a.QuestionsCoincide b
  /-- On the words of the terms a comparison under a mask decides implication. -/
  implies_packed : a.size ≤ maxPositions → a.packed.implies b.packed = a.implies b
  /-- With the missing positions compared as well, the comparison decides containment. -/
  contains_packed : a.size ≤ maxPositions → a.packed.contains b.packed = a.contains b

/-- **Implication reads a missing position as a zero**, containment does not, and nothing else
distinguishes the two, for terms of one size with any positions missing in either. -/
theorem implies_readsMissingAsZero (a b : Term) (hsize : a.size = b.size) :
    ReadsMissingAsZero a b where
  contains_iff := contains_iff_agrees hsize
  implies_iff := implies_iff hsize
  implies_iff_leastIndex_mem := implies_iff_leastIndex_mem hsize
  coincide_iff := questionsCoincide_iff hsize
  coincide_of_explicit h :=
    (questionsCoincide_iff hsize).2 fun _ ↦ not_isOpenZero_of_explicit h
  implies_packed h := Packed.implies_packed h (hsize ▸ h)
  contains_packed h := Packed.contains_packed h (hsize ▸ h)

/-- The term `1-0`. -/
def oneFreeZero : Term := ⟨3, Cube.ofMasks 4#3 2#3⟩

/-- The term `11-`, which leaves the zero of `1-0` open. -/
def oneOneFree : Term := ⟨3, Cube.ofMasks 6#3 1#3⟩

theorem implies_readsMissingAsZero_oneFreeZero :
    oneFreeZero.size = oneOneFree.size ∧ oneFreeZero.implies oneOneFree = true ∧
      oneOneFree.leastIndex ∈ oneFreeZero.covered ∧ ¬ oneFreeZero.Agrees oneOneFree ∧
      oneFreeZero.contains oneOneFree = false ∧ ¬ oneFreeZero.QuestionsCoincide oneOneFree := by
  have hreads := implies_readsMissingAsZero oneFreeZero oneOneFree rfl
  have hopen : oneFreeZero.IsOpenZero oneOneFree 0 := ⟨by decide, by decide, by decide⟩
  have himplies : oneFreeZero.implies oneOneFree = true := by decide
  refine ⟨rfl, himplies, hreads.implies_iff_leastIndex_mem.1 himplies, hopen.not_agrees, ?_, ?_⟩
  · rw [← Bool.not_eq_true, hreads.contains_iff]
    exact hopen.not_agrees
  · exact fun h ↦ hreads.coincide_iff.1 h himplies 0 hopen

/-- **A zero implies the term of one variable that leaves it open**, without agreeing with it or
containing it.  A one does not. -/
theorem implies_zero_full :
    implies ⟨1, Cube.minterm 0#1⟩ (full 1) = true ∧
      ¬ Agrees ⟨1, Cube.minterm 0#1⟩ (full 1) ∧ contains ⟨1, Cube.minterm 0#1⟩ (full 1) = false ∧
      implies ⟨1, Cube.minterm 1#1⟩ (full 1) = false := by
  decide

end Term

end TwoLevel
