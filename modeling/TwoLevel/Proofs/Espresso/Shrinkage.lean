import TwoLevel.Espresso.Shrinkage
import TwoLevel.Proofs.Cover.ComplementCube
import TwoLevel.Proofs.Cover.Cost
import TwoLevel.Proofs.Espresso.Expansion
import TwoLevel.Proofs.Espresso.Redundancy
import Mathlib.Data.List.Forall2

/-!
# Shrinking a cover

A cube is replaced by the hull of those of its points that nothing else covers
(`isHull_reduceCube`).  Exchanging a cube for a smaller one with those points changes nothing about
what is covered (`covers_reduceFrom`) and keeps the invariant of the working cover
(`isSound_reduce`).

The cubes are taken in turn, so a cube is replaced by the hull of what was its own at that time,
when those after it were still as large as before.  When they shrink in their turn it gains points
of its own, but only inside itself, and a hull is still the hull of more points of it.  So the
invariant of the pass is that every treated cube is the hull of what is its own (`Tight`), and it
holds of the whole cover at the end (`tight_reduce`).  In particular every cube is needed then
(`isIrredundant_reduce`).  `isReduction_reduce` puts all this together.

From an irredundant cover no cube vanishes, as each has a point of its own.  So reducing it keeps
the number of cubes and can only cost literals: `cost_reduce` is the reason why a reduced cover is
never cheaper than the irredundant one it came from.
-/

set_option autoImplicit false

namespace TwoLevel

variable {n : Nat}

namespace Cover

/-- Exchanging a cube for a part of it leaves the others what is their own. -/
theorem Own.exchange {d f g : Cover n} {c e k : Cube n} {x : BitVec n}
    (h : Own d (f ++ c :: g) k x) (hce : c.contains e = true) (hk : k ∈ f ++ e :: g) :
    Own d (f ++ e :: g) k x := by
  obtain ⟨hx, hd, hone⟩ := h
  have hle : (f ++ e :: g).countP (·.covers x) ≤ (f ++ c :: g).countP (·.covers x) := by
    rw [List.countP_append, List.countP_append, List.countP_cons, List.countP_cons]
    cases he : e.covers x with
    | false =>
      rw [if_neg (by decide)]
      omega
    | true =>
      exact Nat.le_of_eq (by rw [Cube.contains_iff.1 hce x he])
  have hpos : 0 < (f ++ e :: g).countP (·.covers x) := List.countP_pos_iff.2 ⟨k, hk, hx⟩
  exact ⟨hx, hd, by omega⟩

theorem Sole.exchange {d f g : Cover n} {c e k : Cube n} (h : Sole d (f ++ c :: g) k)
    (hce : c.contains e = true) (hk : k ∈ f ++ e :: g) : Sole d (f ++ e :: g) k := by
  rw [sole_iff_exists_own] at h ⊢
  exact h.imp fun _ hx ↦ hx.exchange hce hk

/-- Exchanging a cube for a part of it that has all its own points keeps every cube needed. -/
theorem IsIrredundant.exchange {d f g : Cover n} {c e : Cube n}
    (h : IsIrredundant d (f ++ c :: g)) (hce : c.contains e = true)
    (hown : ∀ x, c.covers x = true → covers ((f ++ g) ++ d) x = false → e.covers x = true) :
    IsIrredundant d (f ++ e :: g) := by
  intro k hk
  rcases List.mem_append.1 hk with hf | hg
  · exact (h k (List.mem_append_left _ hf)).exchange hce hk
  · rcases List.mem_cons.1 hg with rfl | hg
    · obtain ⟨x, hx, hmiss⟩ :=
        sole_append_cons_iff.1 (h c (List.mem_append_right _ List.mem_cons_self))
      exact sole_append_cons_iff.2 ⟨x, hown x hx hmiss, hmiss⟩
    · exact (h k (List.mem_append_right _ (List.mem_cons_of_mem _ hg))).exchange hce hk

/-! ## Tight cubes -/

open TwoLevel.Cube

/-- A cube is tight among a list of cubes when it is the hull of what is its own. -/
def Tight (d f : Cover n) (c : Cube n) : Prop := IsHull (Own d f c) (some c)

theorem Tight.sole {d f : Cover n} {c : Cube n} (h : Tight d f c) : Sole d f c :=
  sole_iff_exists_own.2 h.1

/-- Having more of its own leaves a cube tight. -/
theorem Tight.mono {d f g : Cover n} {c : Cube n} (h : Tight d f c)
    (hown : ∀ x, Own d f c x → Own d g c x) : Tight d g c :=
  IsHull.mono h hown fun _ hx ↦ hx.1

end Cover

namespace Espresso

open Cover TwoLevel.Cube

/-! ## One cube -/

/-- **A cube is reduced to the hull of what the others do not cover of it.** -/
theorem isHull_reduceCube (others : Cover n) (c : Cube n) :
    IsHull (fun x ↦ others.covers x = false ∧ c.covers x = true) (reduceCube others c) := by
  have hcomm : c.inter = fun d ↦ d.inter c := funext fun d ↦ inter_comm c d
  rw [reduceCube, hcomm]
  exact isHull_inter_of_cofactor (isHull_complementCube _)

theorem isHull_of_reduceCube {others : Cover n} {c : Cube n} {o : Option (Cube n)}
    (h : reduceCube others c = o) :
    IsHull (fun x ↦ others.covers x = false ∧ c.covers x = true) o :=
  h ▸ isHull_reduceCube others c

theorem contains_of_reduceCube {others : Cover n} {c e : Cube n}
    (h : reduceCube others c = some e) : c.contains e = true :=
  (isHull_of_reduceCube h).contains fun _ hx ↦ hx.2

theorem covers_of_reduceCube {others : Cover n} {c e : Cube n} (h : reduceCube others c = some e)
    {x : BitVec n} (hc : c.covers x = true) (ho : others.covers x = false) : e.covers x = true :=
  (isHull_of_reduceCube h).2.1 x ⟨ho, hc⟩

theorem covered_of_reduceCube_eq_none {others : Cover n} {c : Cube n}
    (h : reduceCube others c = none) {x : BitVec n} (hc : c.covers x = true) :
    others.covers x = true := by
  rw [← Bool.not_eq_false]
  exact fun ho ↦ isHull_of_reduceCube h x ⟨ho, hc⟩

/-- With all else, a cube covers as much after its reduction as before. -/
theorem covers_or_of_reduceCube {others : Cover n} {c e : Cube n}
    (h : reduceCube others c = some e) (x : BitVec n) :
    (others.covers x || e.covers x) = (others.covers x || c.covers x) := by
  cases ho : others.covers x with
  | true => rfl
  | false =>
    rw [Bool.false_or, Bool.false_or, Bool.eq_iff_iff]
    exact ⟨contains_iff.1 (contains_of_reduceCube h) x, fun hc ↦ covers_of_reduceCube h hc ho⟩

/-- Whether its mark is kept or lost, a cube is replaced by its reduction. -/
theorem cube_reduced (m : Marked n) (c : Cube n) :
    (if c = m.cube then m else ⟨c, false⟩ : Marked n).cube = c := by
  split
  · next h => exact h.symm
  · rfl

/-! ## A cover -/

theorem covers_reduceFrom (d : Cover n) (treated todo : List (Marked n)) (x : BitVec n) :
    covers (cubes (reduceFrom d treated todo) ++ d) x =
      covers (cubes (treated ++ todo) ++ d) x := by
  induction todo generalizing treated with
  | nil => rw [reduceFrom, List.append_nil]
  | cons m rest ih =>
    rw [reduceFrom]
    split
    · next h =>
      rw [cubes_append] at h
      rw [ih, cubes_append, cubes_append, cubes_cons]
      exact (covers_append_cons_of_covered (covered_of_reduceCube_eq_none h)).symm
    · next c h =>
      rw [cubes_append] at h
      rw [ih, List.append_assoc, List.singleton_append, cubes_append, cubes_append, cubes_cons,
        cubes_cons, cube_reduced, covers_append_cons, covers_append_cons]
      exact covers_or_of_reduceCube h x

/-- **No point is lost to the cover and the don't cares together.** -/
theorem covers_reduce (f : List (Marked n)) (d : Cover n) (x : BitVec n) :
    covers (cubes (reduce f d) ++ d) x = covers (cubes f ++ d) x := by
  rw [reduce, covers_reduceFrom, List.nil_append, covers_append, covers_append]
  congr 1
  rw [Bool.eq_iff_iff, Cover.covers_iff, Cover.covers_iff]
  refine exists_congr fun c ↦ and_congr_left fun _ ↦ ?_
  exact ((largestFirst_perm f).map Marked.cube).mem_iff

theorem isSound_reduceFrom {off d : Cover n} {treated todo : List (Marked n)}
    (htreated : ∀ m ∈ treated, m.IsSound off) (htodo : ∀ m ∈ todo, m.IsSound off) :
    ∀ m ∈ reduceFrom d treated todo, m.IsSound off := by
  induction todo generalizing treated with
  | nil => rwa [reduceFrom]
  | cons m rest ih =>
    have hm := htodo m List.mem_cons_self
    have hrest : ∀ k ∈ rest, k.IsSound off := fun k hk ↦ htodo k (List.mem_cons_of_mem _ hk)
    rw [reduceFrom]
    split
    · exact ih htreated hrest
    · next c h =>
      refine ih ?_ hrest
      rw [List.forall_mem_append, List.forall_mem_singleton]
      refine ⟨htreated, ?_⟩
      split
      · exact hm
      · exact ⟨hm.avoids.of_contains (contains_of_reduceCube h), fun hp ↦ Bool.noConfusion hp⟩

/-- **Reduction keeps the invariant of the working cover.** -/
theorem isSound_reduce {off : Cover n} {f : List (Marked n)} (hf : ∀ m ∈ f, m.IsSound off)
    (d : Cover n) : ∀ m ∈ reduce f d, m.IsSound off :=
  isSound_reduceFrom (fun _ hm ↦ absurd hm List.not_mem_nil) fun m hm ↦
    hf m ((largestFirst_perm f).mem_iff.1 hm)

/-! ## Every cube that is left is needed -/

/-- The reduction of a cube is tight where the cube was. -/
theorem tight_of_reduceCube {d f g : Cover n} {c e : Cube n}
    (h : reduceCube ((f ++ g) ++ d) c = some e) : Tight d (f ++ e :: g) e := by
  refine (isHull_of_reduceCube h).mono (fun x hx ↦ ?_) fun x hx ↦ hx.1
  exact own_append_cons_iff.2 ⟨covers_of_reduceCube h hx.2 hx.1, hx.1⟩

/-- **A cube stays tight while others are reduced**: they only give up points, so it only gains
points of its own. -/
theorem tight_reduceFrom {d : Cover n} {treated todo : List (Marked n)}
    (h : ∀ m ∈ treated, Tight d (cubes (treated ++ todo)) m.cube) :
    ∀ m ∈ reduceFrom d treated todo, Tight d (cubes (reduceFrom d treated todo)) m.cube := by
  induction todo generalizing treated with
  | nil =>
    rw [List.append_nil] at h
    rwa [reduceFrom]
  | cons m rest ih =>
    rw [reduceFrom]
    split
    · refine ih fun k hk ↦ (h k hk).mono fun x hx ↦ hx.of_sublist ?_ ?_
      · exact sublist_cubes ((List.sublist_cons_self m rest).append_left treated)
      · exact List.mem_map_of_mem (List.mem_append_left _ hk)
    · next c hc =>
      refine ih ?_
      rw [List.append_assoc, List.singleton_append, cubes_append, cubes_cons, cube_reduced,
        List.forall_mem_append, List.forall_mem_singleton, cube_reduced]
      constructor
      · intro k hk
        have htight := h k hk
        rw [cubes_append, cubes_cons] at htight
        exact htight.mono fun x hx ↦ hx.exchange (contains_of_reduceCube hc)
          (List.mem_append_left _ (List.mem_map_of_mem hk))
      · rw [cubes_append] at hc
        exact tight_of_reduceCube hc

/-- **After reduction every cube is tight**, whatever the cover was before. -/
theorem tight_reduce (f : List (Marked n)) (d : Cover n) :
    ∀ m ∈ reduce f d, Tight d (cubes (reduce f d)) m.cube :=
  tight_reduceFrom fun _ hm ↦ absurd hm List.not_mem_nil

/-- So every cube is needed. -/
theorem isIrredundant_reduce (f : List (Marked n)) (d : Cover n) :
    IsIrredundant d (cubes (reduce f d)) := by
  rw [IsIrredundant, cubes, List.forall_mem_map]
  exact fun m hm ↦ (tight_reduce f d m hm).sole

/-! ## An irredundant cover -/

/-- A cube that is needed does not vanish. -/
theorem reduceCube_ne_none {d f g : Cover n} {c : Cube n} (h : Sole d (f ++ c :: g) c) :
    reduceCube ((f ++ g) ++ d) c ≠ none := by
  obtain ⟨x, hx, hmiss⟩ := sole_append_cons_iff.1 h
  intro hnone
  rw [covered_of_reduceCube_eq_none hnone hx] at hmiss
  cases hmiss

/-- Reducing cubes that are all needed keeps their number, and no cube gets larger. -/
theorem length_and_missing_reduceFrom {d : Cover n} {treated todo : List (Marked n)}
    (h : IsIrredundant d (cubes (treated ++ todo))) :
    (reduceFrom d treated todo).length = (treated ++ todo).length ∧
      (cost (reduceFrom d treated todo)).missing ≤ (cost (treated ++ todo)).missing := by
  induction todo generalizing treated with
  | nil =>
    rw [reduceFrom, List.append_nil]
    exact ⟨rfl, Nat.le_refl _⟩
  | cons m rest ih =>
    rw [cubes_append, cubes_cons] at h
    have hm := reduceCube_ne_none (h m.cube (List.mem_append_right _ List.mem_cons_self))
    rw [← cubes_append] at hm
    rw [reduceFrom]
    split
    · next hnone => exact absurd hnone hm
    · next c hc =>
      have hce := contains_of_reduceCube hc
      have hnext : IsIrredundant d
          (cubes ((treated ++ [if c = m.cube then m else ⟨c, false⟩]) ++ rest)) := by
        rw [List.append_assoc, List.singleton_append, cubes_append, cubes_cons, cube_reduced]
        refine h.exchange hce fun x hx hmiss ↦ covers_of_reduceCube hc hx ?_
        rwa [cubes_append]
      obtain ⟨hlen, hmissing⟩ := ih hnext
      refine ⟨by rw [hlen]; simp, Nat.le_trans hmissing ?_⟩
      have hle := count_missing_le_of_contains hce
      simp only [cost, cubes_append, cubes_cons, cubes_nil, Cost.missing_ofCover_append,
        Cost.missing_ofCover_cons, Cost.missing_ofCover_nil, cube_reduced]
      omega

/-- An irredundant cover in another order. -/
theorem isIrredundant_largestFirst {f : List (Marked n)} {d : Cover n}
    (h : IsIrredundant d (cubes f)) : IsIrredundant d (cubes ([] ++ largestFirst f)) :=
  h.of_perm ((largestFirst_perm f).map Marked.cube).symm

/-- An irredundant cover has as many cubes after reduction. -/
theorem length_reduce {f : List (Marked n)} {d : Cover n} (h : IsIrredundant d (cubes f)) :
    (reduce f d).length = f.length := by
  rw [reduce, (length_and_missing_reduceFrom (isIrredundant_largestFirst h)).1, List.nil_append,
    length_largestFirst]

/-- **A reduced cover is no cheaper than the irredundant one it came from.** -/
theorem cost_reduce {f : List (Marked n)} {d : Cover n} (h : IsIrredundant d (cubes f)) :
    (cost f).noMoreThan (cost (reduce f d)) = true := by
  have hlen : (cubes (reduce f d)).length = (cubes f).length := by
    rw [length_cubes, length_cubes, length_reduce h]
  have hmissing : (cost (largestFirst f)).missing = (cost f).missing :=
    Cost.missing_ofCover_of_perm ((largestFirst_perm f).map Marked.cube)
  rw [Cost.noMoreThan_iff]
  refine Or.inr ⟨hlen.symm, ?_⟩
  rw [← hmissing]
  exact (length_and_missing_reduceFrom (isIrredundant_largestFirst h)).2

/-! ## What reduction comes to -/

/-- A cube is what another one was reduced to. -/
structure Marked.IsPart (k m : Marked n) : Prop where
  /-- It lies in the other. -/
  contained : m.cube.contains k.cube = true
  /-- It is the other with its mark, or it has become another cube and is not marked. -/
  unchanged : k = m ∨ k.cube ≠ m.cube ∧ k.prime = false

theorem isPart_reduced {others : Cover n} {m : Marked n} {c : Cube n}
    (h : reduceCube others m.cube = some c) :
    Marked.IsPart (if c = m.cube then m else ⟨c, false⟩) m where
  contained := by
    rw [cube_reduced]
    exact contains_of_reduceCube h
  unchanged := by
    split
    · exact Or.inl rfl
    · next hne => exact Or.inr ⟨hne, rfl⟩

/-- What is still to be treated ends as parts of it, in its order; some of it may vanish. -/
theorem exists_reduceFrom_eq_append (d : Cover n) (treated todo : List (Marked n)) :
    ∃ parts, reduceFrom d treated todo = treated ++ parts ∧
      List.SublistForall₂ Marked.IsPart parts todo := by
  induction todo generalizing treated with
  | nil => exact ⟨[], by rw [reduceFrom, List.append_nil], .nil⟩
  | cons m rest ih =>
    rw [reduceFrom]
    split
    · obtain ⟨parts, heq, hparts⟩ := ih treated
      exact ⟨parts, heq, hparts.cons_right⟩
    · next c hc =>
      obtain ⟨parts, heq, hparts⟩ := ih (treated ++ [if c = m.cube then m else ⟨c, false⟩])
      refine ⟨_, ?_, .cons (isPart_reduced hc) hparts⟩
      rw [heq, List.append_assoc, List.singleton_append]

/-- One cover is what another is reduced to, beside don't cares. -/
structure IsReduction (d : Cover n) (f g : List (Marked n)) : Prop where
  /-- With the don't cares the cubes cover what they covered. -/
  covers_eq : ∀ x, covers (cubes g ++ d) x = covers (cubes f ++ d) x
  /-- The cubes are, one by one and larger ones first, parts of cubes that were there. -/
  parts : List.SublistForall₂ Marked.IsPart g (largestFirst f)
  /-- Each cube covers points that neither the cubes around it nor the don't cares cover. -/
  needed : ∀ before m after, g = before ++ m :: after →
    ∃ x, m.cube.covers x = true ∧ covers ((cubes before ++ cubes after) ++ d) x = false
  /-- Each cube is the least around those points. -/
  least : ∀ before m after, g = before ++ m :: after →
    IsLeastAround (fun x ↦ m.cube.covers x = true ∧
      covers ((cubes before ++ cubes after) ++ d) x = false) m.cube

/-- What a tight cube is the hull of, said by what is around it. -/
theorem isHull_of_tight {d : Cover n} {before after : List (Marked n)} {m : Marked n}
    (h : Tight d (cubes (before ++ m :: after)) m.cube) :
    IsHull (fun x ↦ m.cube.covers x = true ∧
      covers ((cubes before ++ cubes after) ++ d) x = false) (some m.cube) := by
  rw [cubes_append, cubes_cons] at h
  exact IsHull.congr h fun x ↦ own_append_cons_iff

/-- **Reduction keeps what is covered and shrinks every cube as far as it goes**: though the cubes
are taken one after the other, each ends as the least cube around what only it covers at the end. -/
theorem isReduction_reduce (f : List (Marked n)) (d : Cover n) :
    IsReduction d f (reduce f d) := by
  have hull : ∀ before m after, reduce f d = before ++ m :: after →
      IsHull (fun x ↦ m.cube.covers x = true ∧
        covers ((cubes before ++ cubes after) ++ d) x = false) (some m.cube) := by
    intro before m after h
    have htight := tight_reduce f d m
    rw [h] at htight
    exact isHull_of_tight (htight (List.mem_append_right _ List.mem_cons_self))
  obtain ⟨parts, heq, hparts⟩ := exists_reduceFrom_eq_append d [] (largestFirst f)
  exact
    { covers_eq := covers_reduce f d
      parts := by
        rw [reduce, heq]
        exact hparts
      needed := fun before m after h ↦ (hull before m after h).1
      least := fun before m after h ↦ (hull before m after h).isLeastAround }

/-- Two half spaces overlap in an edge, which the first gives up and the second has to keep. -/
example : reduce [⟨Cube.halfSpace 2 false, true⟩, ⟨Cube.halfSpace 1 false, true⟩] ([] : Cover 3) =
    [⟨Cube.ofMasks 2#3 1#3, false⟩, ⟨Cube.halfSpace 1 false, true⟩] := by cbv

end Espresso

end TwoLevel
