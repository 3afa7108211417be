import TwoLevel.Espresso.Redundancy
import TwoLevel.Proofs.Cover.Tautology
import Mathlib.Data.List.Nodup

/-!
# What stays is needed

A cube of a cover is needed when it covers a point that nothing else does, neither another cube of
the cover nor the don't cares.  As a cover is a list and may hold a cube twice, "no other" is said
by counting: of the cubes of the list just one covers the point (`Cover.Sole`).

Put this way what is a cube's own stays so when others are dropped (`Own.of_sublist`), and that is
the invariant of the pass that drops one cube after the other.  No point is lost
(`covers_irredundant`), every cube left is needed (`isIrredundant_irredundant`), and
`isPruning_irredundant` says both of the list, with "no other" meaning what is around a cube.
-/

set_option autoImplicit false

namespace TwoLevel

variable {n : Nat}

namespace Cover

/-! ## Needed cubes -/

/-- A cube covers a point that no other cube of the list covers, and no don't care. -/
def Sole (d f : Cover n) (c : Cube n) : Prop :=
  ∃ x, c.covers x = true ∧ d.covers x = false ∧ f.countP (·.covers x) = 1

/-- Every cube of the list is needed. -/
def IsIrredundant (d f : Cover n) : Prop := ∀ c ∈ f, Sole d f c

/-- A point is a cube's own if the cube covers it and no other cube of the list does, and no don't
care. -/
def Own (d f : Cover n) (c : Cube n) (x : BitVec n) : Prop :=
  c.covers x = true ∧ d.covers x = false ∧ f.countP (·.covers x) = 1

theorem sole_iff_exists_own {d f : Cover n} {c : Cube n} : Sole d f c ↔ ∃ x, Own d f c x := Iff.rfl

/-- What is a cube's own stays so when others are dropped. -/
theorem Own.of_sublist {d f g : Cover n} {c : Cube n} {x : BitVec n} (h : Own d f c x)
    (hs : g.Sublist f) (hc : c ∈ g) : Own d g c x := by
  obtain ⟨hx, hd, hone⟩ := h
  have hle : g.countP (·.covers x) ≤ f.countP (·.covers x) := hs.countP_le
  have hpos : 0 < g.countP (·.covers x) := List.countP_pos_iff.2 ⟨c, hc, hx⟩
  exact ⟨hx, hd, by omega⟩

theorem Sole.of_sublist {d f g : Cover n} {c : Cube n} (h : Sole d f c) (hs : g.Sublist f)
    (hc : c ∈ g) : Sole d g c := by
  rw [sole_iff_exists_own] at h ⊢
  exact h.imp fun _ hx ↦ hx.of_sublist hs hc

/-- The order of the cubes does not matter. -/
theorem IsIrredundant.of_perm {d f g : Cover n} (h : IsIrredundant d f) (hp : f.Perm g) :
    IsIrredundant d g := by
  intro c hc
  obtain ⟨x, hx, hd, hone⟩ := h c (hp.mem_iff.2 hc)
  exact ⟨x, hx, hd, by rw [← hp.countP_eq, hone]⟩

/-- What is there twice is not needed. -/
theorem IsIrredundant.nodup {d f : Cover n} (h : IsIrredundant d f) : f.Nodup := by
  rw [List.nodup_iff_count_le_one]
  intro c
  by_cases hc : c ∈ f
  · obtain ⟨x, hx, _, hone⟩ := h c hc
    rw [← hone, List.count_eq_countP]
    refine List.countP_mono_left fun e _ he ↦ ?_
    rwa [beq_iff_eq.1 he]
  · rw [List.count_eq_zero_of_not_mem hc]
    exact Nat.zero_le 1

/-- A cube of a list covers what it covers beside what the others do. -/
theorem covers_append_cons (d f g : Cover n) (c : Cube n) (x : BitVec n) :
    covers ((f ++ c :: g) ++ d) x = (covers ((f ++ g) ++ d) x || c.covers x) := by
  simp only [covers_append, covers_cons]
  cases c.covers x <;> simp

/-- A cube can go from a list without loss where the others cover what it does. -/
theorem covers_append_cons_of_covered {d f g : Cover n} {c : Cube n} {x : BitVec n}
    (h : c.covers x = true → covers ((f ++ g) ++ d) x = true) :
    covers ((f ++ c :: g) ++ d) x = covers ((f ++ g) ++ d) x := by
  rw [covers_append_cons, Bool.or_eq_left_iff_imp]
  exact h

/-- Part of a list covers as much as the whole of it, beside don't cares, when it covers every cube
of it. -/
theorem covers_append_of_subset {d f g : Cover n} (hsub : g ⊆ f)
    (hcov : ∀ c ∈ f, ∀ x, c.covers x = true → covers (g ++ d) x = true) (x : BitVec n) :
    covers (g ++ d) x = covers (f ++ d) x := by
  rw [Bool.eq_iff_iff, covers_append f, Bool.or_eq_true]
  refine ⟨fun h ↦ ?_, ?_⟩
  · rw [covers_append, Bool.or_eq_true] at h
    refine h.imp_left fun hg ↦ ?_
    obtain ⟨c, hc, hx⟩ := covers_iff.1 hg
    exact covers_iff.2 ⟨c, hsub hc, hx⟩
  · rintro (h | h)
    · obtain ⟨c, hc, hx⟩ := covers_iff.1 h
      exact hcov c hc x hx
    · rw [covers_append, h, Bool.or_true]

theorem countP_covers_eq_zero_iff {f : Cover n} {x : BitVec n} :
    f.countP (·.covers x) = 0 ↔ f.covers x = false := by
  rw [List.countP_eq_zero, covers_eq_false_iff]
  simp only [Bool.not_eq_true]

theorem countP_append_cons_eq_one_iff {f g : Cover n} {c : Cube n} {x : BitVec n}
    (hx : c.covers x = true) :
    (f ++ c :: g).countP (·.covers x) = 1 ↔ (f ++ g).covers x = false := by
  rw [← countP_covers_eq_zero_iff, List.countP_append, List.countP_cons, List.countP_append,
    if_pos hx]
  omega

/-- A cube's own points, where it stands, are those that what is around it does not cover. -/
theorem own_append_cons_iff {d f g : Cover n} {c : Cube n} {x : BitVec n} :
    Own d (f ++ c :: g) c x ↔ c.covers x = true ∧ covers ((f ++ g) ++ d) x = false := by
  refine and_congr_right fun hx ↦ ?_
  rw [countP_append_cons_eq_one_iff hx, covers_append (f ++ g), Bool.or_eq_false_iff, and_comm]

/-- A cube is needed where it stands exactly when what is around it does not cover it. -/
theorem sole_append_cons_iff {d f g : Cover n} {c : Cube n} :
    Sole d (f ++ c :: g) c ↔ ∃ x, c.covers x = true ∧ covers ((f ++ g) ++ d) x = false :=
  exists_congr fun _ ↦ own_append_cons_iff

/-- The point of a needed cube is covered by no different cube of the list. -/
theorem eq_of_countP_covers_eq_one {f : Cover n} {c e : Cube n} {x : BitVec n}
    (h : f.countP (·.covers x) = 1) (hc : c ∈ f) (hcx : c.covers x = true) (he : e ∈ f)
    (hex : e.covers x = true) : e = c := by
  rw [List.countP_eq_length_filter, List.length_eq_one_iff] at h
  obtain ⟨a, ha⟩ := h
  have hcmem : c ∈ f.filter (·.covers x) := List.mem_filter.2 ⟨hc, hcx⟩
  have hemem : e ∈ f.filter (·.covers x) := List.mem_filter.2 ⟨he, hex⟩
  rw [ha, List.mem_singleton] at hcmem hemem
  rw [hcmem, hemem]

end Cover

namespace Espresso

open Cover

@[simp]
theorem cubes_append (f g : List (Marked n)) : cubes (f ++ g) = cubes f ++ cubes g :=
  List.map_append

@[simp]
theorem cubes_cons (m : Marked n) (f : List (Marked n)) : cubes (m :: f) = m.cube :: cubes f := rfl

@[simp]
theorem cubes_nil : cubes ([] : List (Marked n)) = [] := rfl

/-! ## Rating -/

/-- The test of a cube against a cover asks whether each of its points is covered. -/
theorem coversCube_iff {f : Cover n} {c : Cube n} :
    coversCube f c = true ↔ ∀ x, c.covers x = true → f.covers x = true :=
  isTautology_cofactor_iff

/-- A cube that what is around it does not cover is needed. -/
theorem coversCube_eq_false_iff {d f g : Cover n} {c : Cube n} :
    coversCube ((f ++ g) ++ d) c = false ↔ Sole d (f ++ c :: g) c := by
  rw [sole_append_cons_iff, ← Bool.not_eq_true, coversCube_iff]
  simp only [not_forall, exists_prop, Bool.not_eq_true]

/-- The cubes rated as relatively essential are needed. -/
theorem sole_of_mem_rateFrom {d : Cover n} {seen f : List (Marked n)} {r : Marked n × Bool}
    (hr : r ∈ rateFrom d seen f) (hessential : r.2 = true) :
    Sole d (cubes (seen ++ f)) r.1.cube := by
  induction f generalizing seen with
  | nil => cases hr
  | cons m rest ih =>
    rw [rateFrom] at hr
    rcases List.mem_cons.1 hr with rfl | hr
    · rw [cubes_append, cubes_cons, ← coversCube_eq_false_iff, ← cubes_append]
      simpa using hessential
    · have h := ih hr
      rwa [List.append_assoc, List.singleton_append] at h

/-! ## Dropping the totally redundant cubes -/

theorem mem_essentials {rated : List (Marked n × Bool)} {m : Marked n} :
    m ∈ essentials rated ↔ (m, true) ∈ rated := by
  rw [essentials, List.mem_map]
  refine ⟨?_, fun h ↦ ?_⟩
  · rintro ⟨⟨k, b⟩, hk, rfl⟩
    obtain ⟨hk, hb⟩ := List.mem_filter.1 hk
    have hb' : b = true := hb
    rwa [hb'] at hk
  · exact ⟨(m, true), List.mem_filter.2 ⟨h, rfl⟩, rfl⟩

theorem dropTotal_sublist (d : Cover n) (rated : List (Marked n × Bool)) :
    (dropTotal d rated).Sublist rated :=
  List.filter_sublist

theorem mem_dropTotal {d : Cover n} {rated : List (Marked n × Bool)} {m : Marked n}
    {essential : Bool} : (m, essential) ∈ dropTotal d rated ↔ (m, essential) ∈ rated ∧
      (essential = true ∨ coversCube (cubes (essentials rated) ++ d) m.cube = false) := by
  rw [dropTotal, List.mem_filter, Bool.or_eq_true, Bool.not_eq_true']

/-- The relatively essential cubes stay. -/
theorem essentials_subset_dropTotal (d : Cover n) (rated : List (Marked n × Bool)) :
    essentials rated ⊆ (dropTotal d rated).map (·.1) := by
  intro m hm
  exact List.mem_map_of_mem (mem_dropTotal.2 ⟨mem_essentials.1 hm, Or.inl rfl⟩)

/-- What is dropped is covered by the relatively essential cubes, which stay. -/
theorem covers_dropTotal (d : Cover n) (rated : List (Marked n × Bool)) (x : BitVec n) :
    covers (cubes ((dropTotal d rated).map (·.1)) ++ d) x
      = covers (cubes (rated.map (·.1)) ++ d) x := by
  refine covers_append_of_subset (sublist_cubes ((dropTotal_sublist d rated).map (·.1))).subset
    (fun c hc y hy ↦ ?_) x
  obtain ⟨m, hm, rfl⟩ := List.mem_map.1 hc
  obtain ⟨⟨m, essential⟩, hr, rfl⟩ := List.mem_map.1 hm
  rw [covers_append, Bool.or_eq_true]
  by_cases hkeep : (m, essential) ∈ dropTotal d rated
  · exact Or.inl (covers_iff.2 ⟨m.cube, List.mem_map_of_mem (List.mem_map_of_mem hkeep), hy⟩)
  · rw [mem_dropTotal, not_and, not_or, Bool.not_eq_false] at hkeep
    have hcov := coversCube_iff.1 (hkeep hr).2 y hy
    rw [covers_append, Bool.or_eq_true] at hcov
    refine hcov.imp_left fun hess ↦ ?_
    obtain ⟨e, he, hey⟩ := covers_iff.1 hess
    obtain ⟨k, hk, rfl⟩ := List.mem_map.1 he
    exact covers_iff.2 ⟨k.cube, List.mem_map_of_mem (essentials_subset_dropTotal d rated hk), hey⟩

/-! ## Dropping in turn -/

/-- What is dropped is covered by what is left. -/
theorem covers_dropPartial (d : Cover n) (kept : List (Marked n)) (rated : List (Marked n × Bool))
    (x : BitVec n) :
    covers (cubes (dropPartial d kept rated) ++ d) x
      = covers (cubes (kept ++ rated.map (·.1)) ++ d) x := by
  induction rated generalizing kept with
  | nil => rw [dropPartial, List.map_nil, List.append_nil]
  | cons r rest ih =>
    obtain ⟨m, essential⟩ := r
    rw [dropPartial]
    split
    · next h =>
      rw [Bool.and_eq_true, cubes_append] at h
      rw [ih, List.map_cons, cubes_append, cubes_append, cubes_cons]
      exact (covers_append_cons_of_covered (coversCube_iff.1 h.2 x)).symm
    · rw [ih, List.append_assoc, List.singleton_append, List.map_cons]

/-- **Dropping in turn leaves only needed cubes**, if all those are that were kept before and all
that are rated as relatively essential. -/
theorem isIrredundant_dropPartial {d : Cover n} {kept : List (Marked n)}
    {rated : List (Marked n × Bool)}
    (hkept : ∀ m ∈ kept, Sole d (cubes (kept ++ rated.map (·.1))) m.cube)
    (hrated : ∀ r ∈ rated, r.2 = true → Sole d (cubes (kept ++ rated.map (·.1))) r.1.cube) :
    IsIrredundant d (cubes (dropPartial d kept rated)) := by
  induction rated generalizing kept with
  | nil =>
    rw [List.map_nil, List.append_nil] at hkept
    rw [dropPartial, IsIrredundant, cubes, List.forall_mem_map]
    exact hkept
  | cons r rest ih =>
    obtain ⟨m, essential⟩ := r
    rw [List.map_cons] at hkept hrated
    rw [dropPartial]
    split
    · have hs : (cubes (kept ++ rest.map (·.1))).Sublist
          (cubes (kept ++ m :: rest.map (·.1))) :=
        sublist_cubes ((List.sublist_cons_self m _).append_left kept)
      refine ih (fun k hk ↦ (hkept k hk).of_sublist hs ?_) fun k hk hess ↦
        (hrated k (List.mem_cons_of_mem _ hk) hess).of_sublist hs ?_
      · exact List.mem_map_of_mem (List.mem_append_left _ hk)
      · exact List.mem_map_of_mem (List.mem_append_right _ (List.mem_map_of_mem hk))
    · next h =>
      have hm : Sole d (cubes (kept ++ m :: rest.map (·.1))) m.cube := by
        cases essential with
        | true => exact hrated (m, true) List.mem_cons_self rfl
        | false =>
          rw [Bool.not_false, Bool.true_and, Bool.not_eq_true, cubes_append,
            coversCube_eq_false_iff] at h
          rwa [cubes_append, cubes_cons]
      refine ih ?_ ?_
      · rw [List.append_assoc, List.singleton_append, List.forall_mem_append,
          List.forall_mem_singleton]
        exact ⟨hkept, hm⟩
      · rw [List.append_assoc, List.singleton_append]
        exact fun k hk ↦ hrated k (List.mem_cons_of_mem _ hk)

/-! ## Both together -/

/-- **No point is lost to the cover and the don't cares together.** -/
theorem covers_irredundant (f : List (Marked n)) (d : Cover n) (x : BitVec n) :
    covers (cubes (irredundant f d) ++ d) x = covers (cubes f ++ d) x := by
  rw [irredundant, covers_dropPartial, List.nil_append, covers_dropTotal, map_fst_rateFrom]

/-- **Every cube that stays is needed.** -/
theorem isIrredundant_irredundant (f : List (Marked n)) (d : Cover n) :
    IsIrredundant d (cubes (irredundant f d)) := by
  refine isIrredundant_dropPartial (fun m hm ↦ absurd hm List.not_mem_nil) fun r hr hess ↦ ?_
  have hmem : r ∈ rateFrom d [] f := (dropTotal_sublist d _).subset hr
  have hs : (cubes ((dropTotal d (rateFrom d [] f)).map (·.1))).Sublist (cubes f) := by
    have h := sublist_cubes ((dropTotal_sublist d (rateFrom d [] f)).map (·.1))
    rwa [map_fst_rateFrom] at h
  exact (sole_of_mem_rateFrom hmem hess).of_sublist hs
    (List.mem_map_of_mem (List.mem_map_of_mem hr))

/-! ## What dropping comes to -/

/-- One cover is what another comes to when cubes are dropped, beside don't cares, until none can
be. -/
structure IsPruning (d : Cover n) (f g : List (Marked n)) : Prop where
  /-- Cubes are only dropped; those that stay keep their marks and their order. -/
  sublist : g.Sublist f
  /-- With the don't cares the cubes cover what they covered. -/
  covers_eq : ∀ x, covers (cubes g ++ d) x = covers (cubes f ++ d) x
  /-- Each cube covers a point that neither the cubes around it nor the don't cares cover. -/
  needed : ∀ before m after, g = before ++ m :: after →
    ∃ x, m.cube.covers x = true ∧ covers ((cubes before ++ cubes after) ++ d) x = false

/-- **Dropping redundant cubes keeps what is covered and leaves no redundant cube**, however the
cubes repeat, overlap or cover each other. -/
theorem isPruning_irredundant (f : List (Marked n)) (d : Cover n) :
    IsPruning d f (irredundant f d) where
  sublist := sublist_irredundant f d
  covers_eq := covers_irredundant f d
  needed before m after h := by
    have hneeded := isIrredundant_irredundant f d m.cube
    rw [h, cubes_append, cubes_cons] at hneeded
    exact sole_append_cons_iff.1 (hneeded (List.mem_append_right _ List.mem_cons_self))

/-- Six edges in a ring, each covered by its two neighbours: when one has gone its neighbours are
needed, so every other one goes. -/
example :
    cubes (irredundant ([Cube.ofMasks 0#3 1#3, Cube.ofMasks 0#3 2#3, Cube.ofMasks 1#3 4#3,
      Cube.ofMasks 2#3 4#3, Cube.ofMasks 5#3 2#3, Cube.ofMasks 6#3 1#3].map fun c ↦ ⟨c, true⟩) []) =
      [Cube.ofMasks 0#3 2#3, Cube.ofMasks 1#3 4#3, Cube.ofMasks 6#3 1#3] := by decide +kernel

end Espresso

end TwoLevel
