/-!
# Choosing the first best, and searching upwards

Three choices in the library are made the same way: which position to split a cover on, which
position of a cube to give up, and which prime implicant to take next.  Each has an order of merit
and, among the equally good, takes the one that comes first.  `firstBest` is that rule for any
order of merit, given as a test for "strictly better".  Where merit is a number, what is chosen is
the first of the largest (`IsFirstLargest`), whether the search begins with the first candidate or
with none (`foldl_larger_eq_firstBest`).

`firstBelow` is the other search in common: the least number below a bound with a property, found
by walking up from zero, so that an early answer is cheap however large the bound.
-/

set_option autoImplicit false

namespace TwoLevel

/-! ## The first best of a list -/

section

variable {α : Type}

/-- The best member of a list; a later one displaces an earlier one only by being strictly
better. -/
def firstBest (better : α → α → Bool) : List α → Option α
  | [] => none
  | x :: xs => some (xs.foldl (fun best y ↦ if better y best then y else best) x)

theorem foldl_better_mem (better : α → α → Bool) (xs : List α) (x : α) :
    xs.foldl (fun best y ↦ if better y best then y else best) x ∈ x :: xs := by
  induction xs generalizing x with
  | nil => simp
  | cons y ys ih =>
    simp only [List.foldl_cons]
    have := ih (if better y x then y else x)
    simp only [List.mem_cons] at this ⊢
    rcases this with h | h
    · rw [h]; split <;> simp
    · exact Or.inr (Or.inr h)

/-- What is chosen is one of the candidates. -/
theorem mem_of_firstBest {better : α → α → Bool} {xs : List α} {x : α}
    (h : firstBest better xs = some x) : x ∈ xs := by
  cases xs with
  | nil => simp [firstBest] at h
  | cons y ys =>
    simp only [firstBest, Option.some.injEq] at h
    exact h ▸ foldl_better_mem better ys y

/-- Nothing is chosen only where there is nothing to choose from. -/
theorem firstBest_eq_none_iff {better : α → α → Bool} {xs : List α} :
    firstBest better xs = none ↔ xs = [] := by
  cases xs <;> simp [firstBest]

/-- To choose among images is to choose by what they are like. -/
theorem firstBest_map {β : Type} (better : α → α → Bool) (f : β → α) (xs : List β) :
    firstBest better (xs.map f) = (firstBest (fun a b ↦ better (f a) (f b)) xs).map f := by
  cases xs with
  | nil => rfl
  | cons x xs =>
    refine congrArg some ?_
    rw [List.foldl_map]
    refine List.foldl_hom f fun best y ↦ ?_
    exact (apply_ite f _ _ _).symm

/-- What a search keeps when it has looked at one more candidate. -/
def keepBetter (better : α → α → Bool) (best : Option α) (y : α) : Option α :=
  match best with
  | none => some y
  | some x => if better y x then some y else some x

/-- A search that starts from nothing keeps the first best. -/
theorem foldl_keepBetter_none (better : α → α → Bool) (xs : List α) :
    xs.foldl (keepBetter better) none = firstBest better xs := by
  cases xs with
  | nil => rfl
  | cons x xs =>
    refine List.foldl_hom some fun best y ↦ ?_
    exact (apply_ite some _ _ _).symm

/-! ### By the size of a key -/

/-- The first of the largest members of a list: what comes before is smaller, and what comes after
is not larger. -/
def IsFirstLargest (key : α → Nat) (xs : List α) (x : α) : Prop :=
  ∃ before after, xs = before ++ x :: after ∧ (∀ y ∈ before, key y < key x) ∧
    ∀ y ∈ after, key y ≤ key x

namespace IsFirstLargest

variable {key : α → Nat} {xs : List α} {x y : α}

/-- No member is larger. -/
theorem le (h : IsFirstLargest key xs x) (hy : y ∈ xs) : key y ≤ key x := by
  obtain ⟨before, after, rfl, hbefore, hafter⟩ := h
  rcases List.mem_append.1 hy with hy | hy
  · exact Nat.le_of_lt (hbefore y hy)
  · rcases List.mem_cons.1 hy with rfl | hy
    · exact Nat.le_refl _
    · exact hafter y hy

/-- A smaller member in front changes nothing. -/
theorem cons (h : IsFirstLargest key xs x) (hy : key y < key x) :
    IsFirstLargest key (y :: xs) x := by
  obtain ⟨before, after, rfl, hbefore, hafter⟩ := h
  exact ⟨y :: before, after, rfl, List.forall_mem_cons.2 ⟨hy, hbefore⟩, hafter⟩

/-- Nor does one after the head that is not larger than it. -/
theorem insert_second (h : IsFirstLargest key (y :: xs) x) {z : α} (hz : key z ≤ key y) :
    IsFirstLargest key (y :: z :: xs) x := by
  obtain ⟨before, after, heq, hbefore, hafter⟩ := h
  rcases List.cons_eq_append_iff.1 heq with ⟨rfl, hcons⟩ | ⟨rest, rfl, rfl⟩
  · cases hcons
    exact ⟨[], z :: xs, rfl, nofun, List.forall_mem_cons.2 ⟨hz, hafter⟩⟩
  · obtain ⟨hy, hrest⟩ := List.forall_mem_cons.1 hbefore
    refine ⟨y :: z :: rest, after, rfl, ?_, hafter⟩
    exact List.forall_mem_cons.2 ⟨hy, List.forall_mem_cons.2 ⟨Nat.lt_of_le_of_lt hz hy, hrest⟩⟩

/-- Members of no size need not be looked at. -/
theorem of_filter (h : IsFirstLargest key (xs.filter fun y ↦ decide (0 < key y)) x) :
    IsFirstLargest key xs x := by
  obtain ⟨before, after, heq, hbefore, hafter⟩ := h
  obtain ⟨front, back, rfl, rfl, hback⟩ := List.filter_eq_append_iff.1 heq
  obtain ⟨gap, rest, rfl, hgap, hpos, rfl⟩ := List.filter_eq_cons_iff.1 hback
  simp only [List.mem_filter, decide_eq_true_eq] at hpos hgap hbefore hafter
  refine ⟨front ++ gap, rest, by rw [List.append_assoc], fun y hy ↦ ?_, fun y hy ↦ ?_⟩
  · rcases Nat.eq_zero_or_pos (key y) with hzero | hsize
    · rwa [hzero]
    · rcases List.mem_append.1 hy with hy | hy
      · exact hbefore y ⟨hy, hsize⟩
      · exact absurd hsize (hgap y hy)
  · rcases Nat.eq_zero_or_pos (key y) with hzero | hsize
    · exact hzero ▸ Nat.zero_le _
    · exact hafter y ⟨hy, hsize⟩

end IsFirstLargest

theorem isFirstLargest_foldl (key : α → Nat) (xs : List α) (x : α) :
    IsFirstLargest key (x :: xs)
      (xs.foldl (fun best y ↦ if decide (key best < key y) then y else best) x) := by
  induction xs generalizing x with
  | nil => exact ⟨[], [], rfl, nofun, nofun⟩
  | cons y ys ih =>
    rw [List.foldl_cons]
    split
    · next hlt =>
      have hle := (ih y).le List.mem_cons_self
      exact (ih y).cons (Nat.lt_of_lt_of_le (of_decide_eq_true hlt) hle)
    · next hle =>
      refine (ih x).insert_second (Nat.le_of_not_lt ?_)
      simpa using hle

/-- **By the size of a key, the first of the largest is chosen.** -/
theorem isFirstLargest_of_firstBest {key : α → Nat} {xs : List α} {x : α}
    (h : firstBest (fun a b ↦ decide (key b < key a)) xs = some x) : IsFirstLargest key xs x := by
  cases xs with
  | nil => cases h
  | cons y ys => exact Option.some.inj h ▸ isFirstLargest_foldl key ys y

/-- A search that starts from nothing finds the first of the largest, unless all are of no size. -/
theorem foldl_larger_eq_firstBest (key : α → Nat) (xs : List α) :
    xs.foldl (fun best y ↦ if best.elim 0 key < key y then some y else best) none =
      firstBest (fun a b ↦ decide (key b < key a)) (xs.filter fun y ↦ decide (0 < key y)) := by
  -- once something is found, members of no size do not displace it
  have hfound : ∀ (ys : List α) (x : α),
      ys.foldl (fun best y ↦ if best.elim 0 key < key y then some y else best) (some x) =
        firstBest (fun a b ↦ decide (key b < key a))
          (x :: ys.filter fun y ↦ decide (0 < key y)) := by
    intro ys
    induction ys with
    | nil => exact fun _ ↦ rfl
    | cons y ys ih =>
      intro x
      by_cases hlt : key x < key y
      · have hy : 0 < key y := Nat.zero_lt_of_lt hlt
        simp [firstBest, hlt, hy, ih]
      · by_cases hy : 0 < key y
        · simp [firstBest, hlt, hy, ih]
        · simp [ih, Nat.eq_zero_of_not_pos hy]
  induction xs with
  | nil => rfl
  | cons y ys ih =>
    by_cases hy : 0 < key y
    · simp [hy, hfound]
    · simp [hy, ih]

end

/-! ## The least number with a property -/

/-- The least `j` with `i ≤ j < i + k` that has the property. -/
def firstFrom (p : Nat → Bool) (i : Nat) : Nat → Option Nat
  | 0 => none
  | k + 1 => if p i then some i else firstFrom p (i + 1) k

/-- The least number below the bound that has the property. -/
def firstBelow (p : Nat → Bool) (bound : Nat) : Option Nat := firstFrom p 0 bound

theorem firstFrom_eq_find? (p : Nat → Bool) (i k : Nat) :
    firstFrom p i k = (List.range' i k).find? p := by
  induction k generalizing i with
  | zero => rfl
  | succ k ih =>
    rw [firstFrom, List.range'_succ, List.find?_cons, ih]
    cases p i <;> simp

theorem firstBelow_eq_find? (p : Nat → Bool) (bound : Nat) :
    firstBelow p bound = (List.range bound).find? p := by
  rw [firstBelow, firstFrom_eq_find?, List.range_eq_range']

/-- Nothing is found only where there is nothing to find. -/
theorem firstBelow_eq_none_iff {p : Nat → Bool} {bound : Nat} :
    firstBelow p bound = none ↔ ∀ i, i < bound → p i = false := by
  rw [firstBelow_eq_find?, List.find?_range_eq_none]
  simp only [Bool.not_eq_true']

/-- What is found has the property, and nothing below it does. -/
theorem firstBelow_eq_some_iff {p : Nat → Bool} {bound i : Nat} :
    firstBelow p bound = some i ↔ i < bound ∧ p i = true ∧ ∀ j, j < i → p j = false := by
  rw [firstBelow_eq_find?, List.find?_range_eq_some, List.mem_range, and_left_comm]
  simp only [Bool.not_eq_true']

end TwoLevel
