import TwoLevel.Proofs.Term.Order
import TwoLevel.Proofs.Cube.Neighbour

/-!
# What the calls of an expansion answer

An expansion keeps a counter and no list: at every call it puts the bits of the counter into the
missing positions, the highest bit into the lowest position.  `Cube.points` makes the same points by
recursion, setting the lowest missing position to zero, then to one, and each time running through
the rest.  The counter runs through the recursion (`Cube.points_eq_map`), because its highest bit is
zero in the first half of the count and one in the second, and the other bits start over.

From that everything about the calls follows.  The call with number `j` answers the point at place
`j` of the list (`Expansion.answer_ofCube`), so the points of the cube come once each; and the value
at a missing position is one bit of `j` (`Cube.getLsbD_of_getElem?_points`), the lower the more
missing positions there are below.  The main statement is `Term.isEnumeration_expansion`.
-/

set_option autoImplicit false

namespace TwoLevel

variable {n : Nat}

/-! ## Putting a counter into positions -/

namespace Expansion

/-- Only as many bits of the counter are looked at as there are positions. -/
theorem scatter_congr {i j : Nat} {is : List Nat}
    (h : ∀ b, b < is.length → i.testBit b = j.testBit b) :
    (scatter i is : BitVec n) = scatter j is := by
  induction is with
  | nil => rfl
  | cons p is ih =>
    rw [scatter, scatter, h is.length (by simp), ih fun b hb ↦ h b (by simp; omega)]

/-- In the first half of the count the lowest position stays zero. -/
theorem scatter_cons_of_lt {j p : Nat} {is : List Nat} (hj : j < numPoints is.length) :
    (scatter j (p :: is) : BitVec n) = scatter j is := by
  rw [scatter, Nat.testBit_lt_two_pow hj, if_neg Bool.false_ne_true, BitVec.zero_or]

/-- In the second half it stays one, while the others start over. -/
theorem scatter_cons_add {j p : Nat} {is : List Nat} (hj : j < numPoints is.length) :
    (scatter (numPoints is.length + j) (p :: is) : BitVec n) = Mask.bit p ||| scatter j is := by
  have hbit : (numPoints is.length + j).testBit is.length = true :=
    (Nat.testBit_two_pow_add_eq j is.length).trans (by rw [Nat.testBit_lt_two_pow hj]; rfl)
  have hrest : (scatter (numPoints is.length + j) is : BitVec n) = scatter j is :=
    scatter_congr fun b hb ↦ Nat.testBit_two_pow_add_gt hb j
  rw [scatter, if_pos hbit, hrest]

/-- A position gets the bit that has as many bits below as there are positions above. -/
theorem getLsbD_scatter {is : List Nat} (hincreasing : is.Pairwise (· < ·)) (hlt : ∀ p ∈ is, p < n)
    (j p : Nat) : (scatter j is : BitVec n).getLsbD p =
      (decide (p ∈ is) && j.testBit (is.countP fun q ↦ decide (p < q))) := by
  induction is with
  | nil => simp [scatter]
  | cons i is ih =>
    obtain ⟨hi, hincreasing⟩ := List.pairwise_cons.1 hincreasing
    have hbit : (if j.testBit is.length then Mask.bit i else 0#n).getLsbD p =
        (j.testBit is.length && decide (i = p)) := by
      have hin : i < n := hlt i List.mem_cons_self
      split <;> simp_all
    rw [scatter, BitVec.getLsbD_or, hbit,
      ih hincreasing fun q hq ↦ hlt q (List.mem_cons_of_mem i hq)]
    by_cases hip : i = p
    · subst hip
      have hall : is.countP (fun q ↦ decide (i < q)) = is.length :=
        List.countP_eq_length.2 fun q hq ↦ decide_eq_true (hi q hq)
      have hmem : i ∉ is := fun h ↦ Nat.lt_irrefl i (hi i h)
      simp [hall, hmem]
    · by_cases hp : p ∈ is
      · have hpi : ¬ p < i := Nat.lt_asymm (hi p hp)
        simp [hip, hp, hpi]
      · simp [hip, hp, Ne.symm hip]

end Expansion

/-! ## The counter runs through the points -/

namespace Cube

/-- Counting up makes the points in the order of the recursion. -/
theorem pointsFrom_eq_map (is : List Nat) (x : BitVec n) :
    pointsFrom is x =
      (List.range (numPoints is.length)).map fun j ↦ x ||| Expansion.scatter j is := by
  induction is generalizing x with
  | nil => simp [pointsFrom, numPoints, Expansion.scatter]
  | cons i is ih =>
    rw [pointsFrom, List.length_cons, numPoints_succ, List.range_add, List.map_append, List.map_map,
      ih, ih]
    congr 1
    · refine List.map_congr_left fun j hj ↦ ?_
      rw [Expansion.scatter_cons_of_lt (List.mem_range.1 hj)]
    · refine List.map_congr_left fun j hj ↦ ?_
      rw [Function.comp_apply, Expansion.scatter_cons_add (List.mem_range.1 hj), BitVec.or_assoc]

/-- **The points of a cube in their order**, each made from its place in the list. -/
theorem points_eq_map (c : Cube n) : c.points = (List.range (numPoints (c.count .missing))).map
    fun j ↦ c.literals ||| Expansion.scatter j (Mask.positions c.missing) :=
  pointsFrom_eq_map _ _

theorem getElem?_points_of_lt {c : Cube n} {j : Nat} (hj : j < numPoints (c.count .missing)) :
    c.points[j]? = some (c.literals ||| Expansion.scatter j (Mask.positions c.missing)) := by
  rw [points_eq_map, List.getElem?_map, List.getElem?_range hj]
  rfl

theorem getElem?_points_eq_none_iff {c : Cube n} {j : Nat} :
    c.points[j]? = none ↔ numPoints (c.count .missing) ≤ j := by
  rw [List.getElem?_eq_none_iff, length_points]

/-- The number of missing positions above a position. -/
def missingAbove (c : Cube n) (position : Nat) : Nat :=
  (Mask.positions c.missing).countP fun q ↦ decide (position < q)

/-- **The value at a missing position is one bit of the place**, the one with as many bits below as
there are missing positions above. -/
theorem getLsbD_of_getElem?_points {c : Cube n} {j p : Nat} {x : BitVec n}
    (h : c.points[j]? = some x) (hm : c.missing.getLsbD p = true) :
    x.getLsbD p = j.testBit (c.missingAbove p) := by
  have hj : j < numPoints (c.count .missing) := by
    rw [← length_points]
    exact (List.getElem?_eq_some_iff.1 h).1
  rw [getElem?_points_of_lt hj, Option.some.injEq] at h
  rw [← h, BitVec.getLsbD_or, literals_eq_false hm, Bool.false_or,
    Expansion.getLsbD_scatter (Mask.positions_increasing _) fun q hq ↦
      BitVec.lt_of_getLsbD (Mask.mem_positions.1 hq),
    decide_eq_true (Mask.mem_positions.2 hm), Bool.true_and, missingAbove]

end Cube

/-! ## Calls -/

namespace Expansion

/-- One call: its answer, if there still is one, and the expansion it leaves. -/
def call (e : Expansion n) : Option (BitVec n) × Expansion n :=
  match e.next? with
  | none => (none, e)
  | some (x, rest) => (some x, rest)

/-- The expansion after a number of calls. -/
def after (e : Expansion n) : Nat → Expansion n
  | 0 => e
  | j + 1 => e.call.2.after j

/-- The answer of the call with the given number, counted from zero. -/
def answer (e : Expansion n) (j : Nat) : Option (BitVec n) := (e.after j).call.1

/-- The next point is the one at the place that the counter has reached. -/
theorem next?_eq (e : Expansion n) :
    e.next? = (e.cube.points[e.next]?).map fun x ↦ (x, { e with next := e.next + 1 }) := by
  rw [next?, length]
  split
  · next h => rw [Cube.getElem?_points_eq_none_iff.2 (by omega)]; rfl
  · next h => rw [Cube.getElem?_points_of_lt (by omega)]; rfl

theorem call_eq (e : Expansion n) : e.call.1 = e.cube.points[e.next]? := by
  rw [call, next?_eq]
  cases e.cube.points[e.next]? <;> rfl

/-- A call counts up until the end is reached. -/
theorem call_of_lt {e : Expansion n} (h : e.next < numPoints (e.cube.count .missing)) :
    e.call.2 = { e with next := e.next + 1 } := by
  rw [call, next?_eq, Cube.getElem?_points_of_lt h]
  rfl

/-- After the end a call changes nothing. -/
theorem call_of_le {e : Expansion n} (h : numPoints (e.cube.count .missing) ≤ e.next) :
    e.call.2 = e := by
  rw [call, next?_eq, Cube.getElem?_points_eq_none_iff.2 h]
  rfl

theorem after_of_le {e : Expansion n} (h : numPoints (e.cube.count .missing) ≤ e.next) (j : Nat) :
    e.after j = e := by
  induction j with
  | zero => rfl
  | succ j ih => rw [after, call_of_le h, ih]

/-- **The counter is the number of calls**, as long as there are points to come. -/
theorem after_eq {e : Expansion n} (h : e.next ≤ numPoints (e.cube.count .missing)) (j : Nat) :
    e.after j = { e with next := min (e.next + j) (numPoints (e.cube.count .missing)) } := by
  induction j generalizing e with
  | zero => rw [after, Nat.add_zero, Nat.min_eq_left h]
  | succ j ih =>
    rw [after]
    rcases Nat.lt_or_ge e.next (numPoints (e.cube.count .missing)) with hlt | hge
    · rw [call_of_lt hlt, ih (e := { e with next := e.next + 1 }) hlt]
      simp only [Nat.add_comm, Nat.add_left_comm]
    · rw [call_of_le hge, ih h]
      have hnext : e.next = numPoints (e.cube.count .missing) := Nat.le_antisymm h hge
      simp only [hnext, Nat.min_eq_right (Nat.le_add_right _ _)]

theorem after_ofCube (c : Cube n) (j : Nat) :
    (ofCube c).after j = ⟨c, min j (numPoints (c.count .missing))⟩ := by
  rw [after_eq (Nat.zero_le _), ofCube, Nat.zero_add]

/-- **The calls go through the points of the cube**, one after the other. -/
theorem answer_ofCube (c : Cube n) (j : Nat) : (ofCube c).answer j = c.points[j]? := by
  rw [answer, call_eq, after_ofCube]
  rcases Nat.lt_or_ge j (numPoints (c.count .missing)) with h | h
  · rw [Nat.min_eq_left (Nat.le_of_lt h)]
  · rw [Nat.min_eq_right h, Cube.getElem?_points_eq_none_iff.2 h,
      Cube.getElem?_points_eq_none_iff.2 (Nat.le_refl _)]

/-- What is reported to be left is what has not been answered. -/
theorem length_after_ofCube (c : Cube n) (j : Nat) :
    ((ofCube c).after j).length = numPoints (c.count .missing) - j := by
  simp only [after_ofCube, length]
  omega

/-- Taking some at once is calling as often as there is an answer. -/
theorem take_eq (e : Expansion n) (j : Nat) :
    e.take j = ((e.cube.points.drop e.next).take j, e.after j) := by
  induction j generalizing e with
  | zero => rw [take, after, List.take_zero]
  | succ j ih =>
    rw [take, after, call, next?_eq]
    cases h : e.cube.points[e.next]? with
    | none =>
      have hend : numPoints (e.cube.count .missing) ≤ e.next := Cube.getElem?_points_eq_none_iff.1 h
      rw [List.drop_of_length_le (by rwa [Cube.length_points])]
      simp only [Option.map_none, List.take_nil, after_of_le hend]
    | some x =>
      rw [List.drop_eq_getElem?_toList_append, h]
      simp only [Option.map_some, ih, Option.toList_some, List.cons_append, List.nil_append,
        List.take_succ_cons]

end Expansion

/-! ## The explicit terms of a term -/

namespace Term

/-- The answer of the call with the given number in going through the explicit terms of a term. -/
def explicit? (t : Term) (j : Nat) : Option Term := ((Expansion.ofCube t.cube).answer j).map ofPoint

/-- How many terms are reported to be left after a number of calls. -/
def explicitLeft (t : Term) (j : Nat) : Nat := ((Expansion.ofCube t.cube).after j).length

/-- The terms that a number of calls made at once give. -/
def takeExplicit (t : Term) (j : Nat) : List Term :=
  ((Expansion.ofCube t.cube).take j).1.map ofPoint

theorem explicit?_eq (t : Term) (j : Nat) : t.explicit? j = (t.cube.points[j]?).map ofPoint := by
  rw [explicit?, Expansion.answer_ofCube]

/-- An answer is the term of a covered point. -/
theorem exists_explicit?_iff {t m : Term} :
    (∃ j, t.explicit? j = some m) ↔ ∃ x, t.cube.covers x = true ∧ ofPoint x = m := by
  simp only [explicit?_eq, Option.map_eq_some_iff, ← Cube.mem_points, List.mem_iff_getElem?]
  exact ⟨fun ⟨j, x, hj, hx⟩ ↦ ⟨x, ⟨j, hj⟩, hx⟩, fun ⟨x, ⟨j, hj⟩, hx⟩ ↦ ⟨j, x, hj, hx⟩⟩

/-- **The answers are the explicit terms that the term implies.** -/
theorem exists_explicit?_iff_implies {t m : Term} : (∃ j, t.explicit? j = some m) ↔
    m.size = t.size ∧ m.cube.count .missing = 0 ∧ t.implies m = true := by
  rw [exists_explicit?_iff]
  obtain ⟨n, c⟩ := t
  obtain ⟨k, d⟩ := m
  constructor
  · rintro ⟨x, hx, h⟩
    cases h
    exact ⟨rfl, Cube.count_missing_minterm x,
      (implies_mk c (Cube.minterm x)).trans ((c.implies_minterm x).trans hx)⟩
  · rintro ⟨hsize, hexplicit, himplies⟩
    obtain rfl : k = n := hsize
    rw [implies_mk] at himplies
    exact ⟨d.literals, himplies,
      by rw [ofPoint, ← Cube.eq_minterm_of_count_missing_eq_zero hexplicit]⟩

theorem explicit?_eq_none_iff {t : Term} {j : Nat} :
    t.explicit? j = none ↔ numPoints (t.cube.count .missing) ≤ j := by
  rw [explicit?_eq, Option.map_eq_none_iff, Cube.getElem?_points_eq_none_iff]

/-- No term is answered twice. -/
theorem explicit?_injective {t m : Term} {i j : Nat} (hi : t.explicit? i = some m)
    (hj : t.explicit? j = some m) : i = j := by
  rw [explicit?_eq, Option.map_eq_some_iff] at hi hj
  obtain ⟨x, hx, rfl⟩ := hi
  obtain ⟨y, hy, hxy⟩ := hj
  obtain rfl : y = x := by cases hxy; rfl
  have hlt : i < t.cube.points.length := (List.getElem?_eq_some_iff.1 hx).1
  exact (List.getElem?_inj hlt (nodup_points t)).1 (hx.trans hy.symm)

/-- A missing position counts from zero to one, and it keeps each value for as many answers as the
missing positions above it can be filled in ways. -/
theorem value_of_explicit? {t m : Term} {j p : Nat} (h : t.explicit? j = some m)
    (hp : t.cube.value p = .missing) : m.cube.value p =
      if j / numPoints (t.cube.missingAbove p) % 2 = 1 then .one else .zero := by
  rw [explicit?_eq, Option.map_eq_some_iff] at h
  obtain ⟨x, hx, rfl⟩ := h
  have hbit := Cube.getLsbD_of_getElem?_points hx (Cube.value_eq_missing_iff.1 hp)
  rw [Nat.testBit_eq_decide_div_mod_eq] at hbit
  simp only [ofPoint, Cube.value, Cube.minterm, BitVec.getLsbD_zero, hbit, decide_eq_true_eq,
    Bool.false_eq_true, if_false]
  rfl

theorem getElem?_takeExplicit (t : Term) (j i : Nat) :
    (t.takeExplicit j)[i]? = if i < j then t.explicit? i else none := by
  rw [takeExplicit, Expansion.take_eq, List.getElem?_map, Expansion.ofCube, List.drop_zero,
    List.getElem?_take, explicit?_eq]
  split <;> rfl

/-- Calls, one after the other or several at once, that go through the explicit terms of a term. -/
structure IsEnumeration (t : Term) (answer : Nat → Option Term) (left : Nat → Nat)
    (first : Nat → List Term) : Prop where
  /-- There are as many answers as there are ways to fill the missing positions. -/
  isSome_answer_iff : ∀ j, (answer j).isSome = true ↔ j < numPoints (t.cube.count .missing)
  /-- The answers are the terms of the same size without missing positions that the term implies. -/
  exists_answer_iff : ∀ m, (∃ j, answer j = some m) ↔
    m.size = t.size ∧ m.cube.count .missing = 0 ∧ t.implies m = true
  /-- No term is given as an answer twice. -/
  answer_injective : ∀ m i j, answer i = some m → answer j = some m → i = j
  /-- A missing position starts at zero and changes whenever those above it have gone through all
  their values: the highest at every answer, the lowest once. -/
  value_of_answer : ∀ m j p, answer j = some m → t.cube.value p = .missing → m.cube.value p =
    if j / numPoints (t.cube.missingAbove p) % 2 = 1 then .one else .zero
  /-- The number of answers to come is known after every call. -/
  left_eq : ∀ j, left j = numPoints (t.cube.count .missing) - j
  /-- After the end there are no more answers. -/
  answer_eq_none : ∀ i j, i ≤ j → answer i = none → answer j = none
  /-- Several calls at once have the same answers in the same order. -/
  getElem?_first : ∀ j i, (first j)[i]? = if i < j then answer i else none

/-- **Expanding a term goes through the explicit terms it implies**, for terms of every size and
however many positions are missing. -/
theorem isEnumeration_expansion (t : Term) :
    t.IsEnumeration t.explicit? t.explicitLeft t.takeExplicit where
  isSome_answer_iff j := by rw [Option.isSome_iff_ne_none, Ne, explicit?_eq_none_iff, Nat.not_le]
  exists_answer_iff _ := exists_explicit?_iff_implies
  answer_injective _ _ _ := explicit?_injective
  value_of_answer _ _ _ := value_of_explicit?
  left_eq := Expansion.length_after_ofCube t.cube
  answer_eq_none _ _ hij h :=
    explicit?_eq_none_iff.2 (Nat.le_trans (explicit?_eq_none_iff.1 h) hij)
  getElem?_first := getElem?_takeExplicit t

-- `-1-` is gone through as `010`, `110`, `011`, `111`.
example :
    (takeExplicit ⟨3, Cube.ofMasks 2#3 5#3⟩ 9).map (·.cube.literals.toNat) = [2, 6, 3, 7] := by
  decide

end Term

end TwoLevel
