import TwoLevel.Espresso.Working

/-!
# IRREDUNDANT: what the others cover is left out

A cube is covered by others exactly when their cofactor by it covers everything.  With that test the
cubes fall into three kinds.

* *Relatively essential* cubes are not covered by all the others together with the don't cares, so
  they have to stay.
* *Totally redundant* cubes are covered by the relatively essential ones and the don't cares alone,
  so they can all go at once.
* The rest could each go, but not all of them.  They are looked at in turn, and one goes if what is
  left then, those not looked at yet included, covers it.

What stays keeps its order.
-/

set_option autoImplicit false

namespace TwoLevel.Espresso

variable {n : Nat}

/-- Whether a cover covers every point of a cube. -/
def coversCube (f : Cover n) (c : Cube n) : Bool := Cover.isTautology (Cover.cofactor f c)

/-- The cubes with, for each, whether it is relatively essential. -/
def rateFrom (d : Cover n) (seen : List (Marked n)) : List (Marked n) → List (Marked n × Bool)
  | [] => []
  | m :: rest =>
    (m, !coversCube (cubes (seen ++ rest) ++ d) m.cube) :: rateFrom d (seen ++ [m]) rest

/-- The cubes that are relatively essential. -/
def essentials (rated : List (Marked n × Bool)) : List (Marked n) :=
  (rated.filter (·.2)).map (·.1)

/-- The cubes without the totally redundant ones. -/
def dropTotal (d : Cover n) (rated : List (Marked n × Bool)) : List (Marked n × Bool) :=
  let needed := cubes (essentials rated) ++ d
  rated.filter fun r ↦ r.2 || !coversCube needed r.1.cube

/-- The cubes left when those that are not relatively essential are dropped in turn, each if what
is left covers it. -/
def dropPartial (d : Cover n) (kept : List (Marked n)) : List (Marked n × Bool) → List (Marked n)
  | [] => kept
  | (m, essential) :: rest =>
    if !essential && coversCube (cubes (kept ++ rest.map (·.1)) ++ d) m.cube then
      dropPartial d kept rest
    else dropPartial d (kept ++ [m]) rest

/-- Drops cubes that are covered by what stays and the don't cares. -/
def irredundant (f : List (Marked n)) (d : Cover n) : List (Marked n) :=
  dropPartial d [] (dropTotal d (rateFrom d [] f))

/-! ## What stays was there -/

theorem map_fst_rateFrom (d : Cover n) (seen f : List (Marked n)) :
    (rateFrom d seen f).map (·.1) = f := by
  induction f generalizing seen with
  | nil => rfl
  | cons m rest ih => simp [rateFrom, ih]

theorem sublist_dropPartial (d : Cover n) (kept : List (Marked n))
    (rated : List (Marked n × Bool)) :
    (dropPartial d kept rated).Sublist (kept ++ rated.map (·.1)) := by
  induction rated generalizing kept with
  | nil => simp [dropPartial]
  | cons r rest ih =>
    obtain ⟨m, essential⟩ := r
    rw [dropPartial]
    split
    · exact (ih kept).trans (List.Sublist.append_left (List.sublist_cons_self m _) kept)
    · simpa using ih (kept ++ [m])

/-- **What stays keeps its order.** -/
theorem sublist_irredundant (f : List (Marked n)) (d : Cover n) : (irredundant f d).Sublist f := by
  have h := sublist_dropPartial d [] (dropTotal d (rateFrom d [] f))
  refine h.trans ?_
  have hs : (dropTotal d (rateFrom d [] f)).Sublist (rateFrom d [] f) := List.filter_sublist
  simpa [map_fst_rateFrom] using hs.map (·.1)

theorem sublist_cubes {f g : List (Marked n)} (h : f.Sublist g) : (cubes f).Sublist (cubes g) :=
  h.map _

/-- If dropping cubes changes the cost then a cube was dropped. -/
theorem length_irredundant_lt {f : List (Marked n)} {d : Cover n}
    (h : cost (irredundant f d) ≠ cost f) : (irredundant f d).length < f.length := by
  have hs := sublist_irredundant f d
  rcases Nat.lt_or_ge (irredundant f d).length f.length with hlt | hge
  · exact hlt
  · exact absurd (by rw [hs.eq_of_length_le hge]) h

end TwoLevel.Espresso
