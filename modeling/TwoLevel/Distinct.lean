import Std.Data.HashSet

/-!
# Lists without repetitions

Two ways to leave out what is there already.

* `firsts` keeps every member where it occurs first, whatever the order of the list.  It remembers
  what it has seen in a hash set, so its cost is that of walking the list.
* `dedupNeighbours` looks at neighbours only.  On a sorted list that is enough: what is left is
  strictly increasing (`pairwise_dedupNeighbours`).
-/

set_option autoImplicit false

namespace TwoLevel

variable {α : Type}

/-! ## First occurrences -/

section

variable [BEq α] [Hashable α]

/-- The members of a list that are not in the set, each where it occurs first. -/
def firstsFrom (seen : Std.HashSet α) : List α → List α
  | [] => []
  | x :: xs =>
    if seen.contains x then firstsFrom seen xs else x :: firstsFrom (seen.insert x) xs

/-- A list with every member kept only where it occurs first. -/
def firsts (xs : List α) : List α := firstsFrom ∅ xs

variable [LawfulBEq α] [LawfulHashable α]

theorem mem_firstsFrom {seen : Std.HashSet α} {xs : List α} {x : α} :
    x ∈ firstsFrom seen xs ↔ x ∈ xs ∧ x ∉ seen := by
  induction xs generalizing seen with
  | nil => simp [firstsFrom]
  | cons y ys ih =>
    rw [firstsFrom]
    split
    · next hy =>
      have hy' : y ∈ seen := Std.HashSet.mem_iff_contains.2 hy
      rw [ih, List.mem_cons]
      constructor
      · rintro ⟨hx, hn⟩
        exact ⟨Or.inr hx, hn⟩
      · rintro ⟨rfl | hx, hn⟩
        · exact absurd hy' hn
        · exact ⟨hx, hn⟩
    · next hy =>
      have hy' : y ∉ seen := fun h ↦ hy (Std.HashSet.mem_iff_contains.1 h)
      rw [List.mem_cons, ih, List.mem_cons, Std.HashSet.mem_insert, beq_iff_eq]
      constructor
      · rintro (rfl | ⟨hx, hn⟩)
        · exact ⟨Or.inl rfl, hy'⟩
        · exact ⟨Or.inr hx, fun h ↦ hn (Or.inr h)⟩
      · rintro ⟨hx, hn⟩
        by_cases hxy : x = y
        · exact Or.inl hxy
        · refine Or.inr ⟨hx.resolve_left hxy, ?_⟩
          rintro (h | h)
          · exact hxy h.symm
          · exact hn h

/-- Nothing is lost. -/
@[simp]
theorem mem_firsts {xs : List α} {x : α} : x ∈ firsts xs ↔ x ∈ xs := by
  simp [firsts, mem_firstsFrom]

theorem nodup_firstsFrom (seen : Std.HashSet α) (xs : List α) : (firstsFrom seen xs).Nodup := by
  induction xs generalizing seen with
  | nil => exact List.nodup_nil
  | cons y ys ih =>
    rw [firstsFrom]
    split
    · exact ih seen
    · exact List.nodup_cons.2 ⟨fun h ↦ (mem_firstsFrom.1 h).2 (by simp), ih _⟩

/-- Nothing is kept twice. -/
theorem nodup_firsts (xs : List α) : (firsts xs).Nodup := nodup_firstsFrom ∅ xs

/-- What comes last is kept if it is new. -/
theorem firstsFrom_concat {seen : Std.HashSet α} {xs : List α} {x : α} (hxs : x ∉ xs)
    (hseen : x ∉ seen) : firstsFrom seen (xs ++ [x]) = firstsFrom seen xs ++ [x] := by
  induction xs generalizing seen with
  | nil => simp [firstsFrom, hseen]
  | cons y ys ih =>
    rw [List.mem_cons, not_or] at hxs
    simp only [List.cons_append, firstsFrom]
    split
    · exact ih hxs.2 hseen
    · refine congrArg (y :: ·) (ih hxs.2 ?_)
      simpa [Std.HashSet.mem_insert, Ne.symm hxs.1] using hseen

theorem firstsFrom_concat_of_mem {seen : Std.HashSet α} {xs : List α} {x : α}
    (h : x ∈ xs ∨ x ∈ seen) : firstsFrom seen (xs ++ [x]) = firstsFrom seen xs := by
  induction xs generalizing seen with
  | nil => simp [firstsFrom, h.resolve_left List.not_mem_nil]
  | cons y ys ih =>
    rw [List.mem_cons] at h
    simp only [List.cons_append, firstsFrom]
    split
    · next hy =>
      rw [← Std.HashSet.mem_iff_contains] at hy
      refine ih ?_
      rcases h with (rfl | hx) | hx
      · exact Or.inr hy
      · exact Or.inl hx
      · exact Or.inr hx
    · refine congrArg (y :: ·) (ih ?_)
      rw [Std.HashSet.mem_insert, beq_iff_eq]
      rcases h with (rfl | hx) | hx
      · exact Or.inr (Or.inl rfl)
      · exact Or.inl hx
      · exact Or.inr (Or.inr hx)

theorem firsts_concat {xs : List α} {x : α} (h : x ∉ xs) : firsts (xs ++ [x]) = firsts xs ++ [x] :=
  firstsFrom_concat h Std.HashSet.not_mem_empty

theorem firsts_concat_of_mem {xs : List α} {x : α} (h : x ∈ xs) :
    firsts (xs ++ [x]) = firsts xs :=
  firstsFrom_concat_of_mem (Or.inl h)

theorem firstsFrom_eq_self {seen : Std.HashSet α} {xs : List α} (h : xs.Nodup)
    (hseen : ∀ x ∈ xs, x ∉ seen) : firstsFrom seen xs = xs := by
  induction xs generalizing seen with
  | nil => rfl
  | cons y ys ih =>
    obtain ⟨hy, hys⟩ := List.nodup_cons.1 h
    have hy' : seen.contains y = false := by
      rw [← Bool.not_eq_true, ← Std.HashSet.mem_iff_contains]
      exact hseen y List.mem_cons_self
    rw [firstsFrom, hy', if_neg (by decide), ih hys]
    intro x hx
    rw [Std.HashSet.mem_insert, beq_iff_eq]
    rintro (rfl | hmem)
    · exact hy hx
    · exact hseen x (List.mem_cons_of_mem _ hx) hmem

/-- What has no repetitions stays as it is. -/
theorem firsts_eq_self {xs : List α} (h : xs.Nodup) : firsts xs = xs :=
  firstsFrom_eq_self h fun _ _ ↦ Std.HashSet.not_mem_empty

end

/-! ## Neighbours -/

section

variable [DecidableEq α]

/-- A list with each run of equal neighbours replaced by one. -/
def dedupNeighbours : List α → List α
  | [] => []
  | [x] => [x]
  | x :: y :: rest =>
    if x = y then dedupNeighbours (y :: rest) else x :: dedupNeighbours (y :: rest)

theorem mem_dedupNeighbours {x : α} {xs : List α} : x ∈ dedupNeighbours xs ↔ x ∈ xs := by
  induction xs using dedupNeighbours.induct with
  | case1 => simp [dedupNeighbours]
  | case2 y => simp [dedupNeighbours]
  | case3 y rest ih => simp [dedupNeighbours, ih]
  | case4 y z rest h ih => simp [dedupNeighbours, h, ih]

/-- Sorting by a key sorts. -/
theorem pairwise_mergeSort_key {β : Type} (key : β → Nat) (xs : List β) :
    (xs.mergeSort fun a b ↦ decide (key a ≤ key b)).Pairwise fun a b ↦ key a ≤ key b := by
  refine (List.pairwise_mergeSort ?_ ?_ xs).imp of_decide_eq_true
  · exact fun _ _ _ hab hbc ↦
      decide_eq_true (Nat.le_trans (of_decide_eq_true hab) (of_decide_eq_true hbc))
  · intro a b
    simpa using Nat.le_total (key a) (key b)

/-- What is left of a sorted list is strictly sorted. -/
theorem pairwise_dedupNeighbours {r : α → α → Prop} (antisymm : ∀ a b, r a b → r b a → a = b)
    {xs : List α} (h : xs.Pairwise r) : (dedupNeighbours xs).Pairwise fun a b ↦ r a b ∧ a ≠ b := by
  induction xs using dedupNeighbours.induct with
  | case1 => exact List.Pairwise.nil
  | case2 y => exact List.pairwise_singleton _ _
  | case3 y rest ih =>
    rw [dedupNeighbours, if_pos rfl]
    exact ih (List.pairwise_cons.1 h).2
  | case4 y z rest hyz ih =>
    obtain ⟨hy, hrest⟩ := List.pairwise_cons.1 h
    rw [dedupNeighbours, if_neg hyz]
    refine List.pairwise_cons.2 ⟨fun w hw ↦ ?_, ih hrest⟩
    have hw' : w ∈ z :: rest := mem_dedupNeighbours.1 hw
    refine ⟨hy w hw', ?_⟩
    rintro rfl
    rcases List.mem_cons.1 hw' with rfl | hmem
    · exact hyz rfl
    · exact hyz (antisymm _ _ (hy z List.mem_cons_self) ((List.pairwise_cons.1 hrest).1 _ hmem))

end

end TwoLevel
