import TwoLevel.Store
import TwoLevel.Proofs.Cube.Without
import Mathlib.Data.List.Nodup

/-!
# A cover less one point

`Store.splitOff` goes through a cover and puts in the place of each cube what is left of it without
the point.  So what is left of a cover are the cubes that are left of its cubes (`mem_splitOff`),
and they cover what the cover covered apart from the point (`covers_splitOff`).  Of minterms there
is only one to lose, and the others stay as they are (`splitOff_eq_filter`).

The order of the cover stays too.  What is left falls into blocks, one after the other for each cube
of the cover: a cube that does not cover the point is a block by itself, and the block of any other
are those of its parts that were not there already (`exists_blocks_splitOff`).  A cover of one cube
comes apart into all parts of it (`splitOff_singleton`).

**Repetitions.**  A part is left out where the same cube has been put down before.  A cube that is
kept whole is not looked for, and it may be what a part of an earlier cube already is.  That is the
only way in which a cover without repetitions comes to have one (`nodup_splitOff_iff`).
-/

set_option autoImplicit false

namespace TwoLevel

variable {n : Nat} {x : BitVec n}

namespace Store

/-! ## One cube -/

/-- Parts put down after the cubes already treated, except those that are there. -/
def addNew (treated parts : Cover n) : Cover n :=
  parts.foldl (fun out part ↦ if out.contains part then out else out ++ [part]) treated

theorem addNew_cons (treated : Cover n) (part : Cube n) (parts : Cover n) :
    addNew treated (part :: parts) =
      addNew (if treated.contains part then treated else treated ++ [part]) parts :=
  rfl

theorem mem_addNew {treated parts : Cover n} {d : Cube n} :
    d ∈ addNew treated parts ↔ d ∈ treated ∨ d ∈ parts := by
  induction parts generalizing treated with
  | nil => exact (or_iff_left List.not_mem_nil).symm
  | cons part parts ih =>
    rw [addNew_cons, ih, List.mem_cons]
    split
    · next hmem =>
      rw [List.contains_iff_mem] at hmem
      refine ⟨Or.imp_right Or.inr, ?_⟩
      rintro (hd | rfl | hd)
      · exact Or.inl hd
      · exact Or.inl hmem
      · exact Or.inr hd
    · rw [List.mem_append, List.mem_singleton, or_assoc]

theorem nodup_addNew_iff {treated parts : Cover n} :
    (addNew treated parts).Nodup ↔ treated.Nodup := by
  induction parts generalizing treated with
  | nil => exact Iff.rfl
  | cons part parts ih =>
    rw [addNew_cons, ih]
    split
    · exact Iff.rfl
    · next hmem =>
      rw [List.contains_iff_mem] at hmem
      rw [← List.concat_eq_append, List.nodup_concat]
      exact and_iff_right hmem

/-- What is put down comes after the cubes already treated, in its order. -/
theorem exists_addNew_eq_append (treated parts : Cover n) :
    ∃ new : Cover n, new.Sublist parts ∧ addNew treated parts = treated ++ new := by
  induction parts generalizing treated with
  | nil => exact ⟨[], List.Sublist.refl _, (List.append_nil _).symm⟩
  | cons part parts ih =>
    rw [addNew_cons]
    split
    · obtain ⟨new, hnew, heq⟩ := ih treated
      exact ⟨new, hnew.cons part, heq⟩
    · obtain ⟨new, hnew, heq⟩ := ih (treated ++ [part])
      exact ⟨part :: new, hnew.cons_cons part, heq.trans (List.append_assoc _ _ _)⟩

/-- Different parts that are all new are all put down. -/
theorem addNew_eq_append {treated parts : Cover n} (hnodup : parts.Nodup)
    (hnew : ∀ part ∈ parts, part ∉ treated) : addNew treated parts = treated ++ parts := by
  induction parts generalizing treated with
  | nil => exact (List.append_nil _).symm
  | cons part parts ih =>
    obtain ⟨hpart, hnodup⟩ := List.nodup_cons.1 hnodup
    have hmem : ¬ treated.contains part = true := by
      rw [List.contains_iff_mem]
      exact hnew part List.mem_cons_self
    have hrest : ∀ d ∈ parts, d ∉ treated ++ [part] := by
      intro d hd
      rw [List.mem_append, List.mem_singleton, not_or]
      exact ⟨hnew d (List.mem_cons_of_mem part hd), fun heq ↦ hpart (heq ▸ hd)⟩
    rw [addNew_cons, if_neg hmem, ih hnodup hrest, List.append_assoc, List.singleton_append]

theorem splitInto_of_covers {treated : Cover n} {c : Cube n} (h : c.covers x = true) :
    splitInto x treated c = addNew treated (c.without x) :=
  if_pos h

theorem splitInto_of_not_covers {treated : Cover n} {c : Cube n} (h : c.covers x = false) :
    splitInto x treated c = treated ++ [c] :=
  if_neg (Bool.eq_false_iff.1 h)

theorem mem_splitInto {treated : Cover n} {c d : Cube n} :
    d ∈ splitInto x treated c ↔ d ∈ treated ∨ d ∈ c.outside x := by
  cases h : c.covers x with
  | true => rw [splitInto_of_covers h, mem_addNew, Cube.outside_of_covers h]
  | false => rw [splitInto_of_not_covers h, List.mem_append, Cube.outside_of_not_covers h]

/-! ## A whole cover -/

/-- Where a cube around the point is its minterm, it is dropped and every other cube is kept. -/
theorem foldl_splitInto_eq_append_filter {f : Cover n} (treated : Cover n)
    (h : ∀ c ∈ f, c.covers x = true → c.missing = 0#n) :
    f.foldl (splitInto x) treated = treated ++ f.filter fun c ↦ !c.covers x := by
  induction f generalizing treated with
  | nil => rw [List.foldl_nil, List.filter_nil, List.append_nil]
  | cons c f ih =>
    have hrest : ∀ d ∈ f, d.covers x = true → d.missing = 0#n :=
      fun d hd ↦ h d (List.mem_cons_of_mem c hd)
    rw [List.foldl_cons, ih _ hrest]
    cases hc : c.covers x with
    | true =>
      rw [splitInto_of_covers hc,
        Cube.without_of_missing_eq_zero (h c List.mem_cons_self hc),
        List.filter_cons_of_neg (by rw [hc]; decide)]
      rfl
    | false =>
      rw [splitInto_of_not_covers hc, List.filter_cons_of_pos (by rw [hc]; rfl),
        List.append_assoc, List.singleton_append]

/-- Going through a cover that does not cover the point would change nothing. -/
theorem splitOff_eq_foldl (x : BitVec n) (f : Cover n) :
    splitOff x f = f.foldl (splitInto x) [] := by
  rw [splitOff]
  split
  · rfl
  · next h =>
    rw [Bool.not_eq_true, Cover.covers_eq_false_iff] at h
    have hkept : f.filter (fun c ↦ !c.covers x) = f :=
      List.filter_eq_self.2 fun c hc ↦ by rw [h c hc]; rfl
    have hsplit : ∀ c ∈ f, c.covers x = true → c.missing = 0#n :=
      fun c hc hx ↦ absurd ((h c hc).symm.trans hx) Bool.false_ne_true
    rw [foldl_splitInto_eq_append_filter [] hsplit, hkept, List.nil_append]

/-- A cover of minterms loses that of the point. -/
theorem splitOff_eq_filter {f : Cover n} (h : ∀ c ∈ f, c.missing = 0#n) (x : BitVec n) :
    splitOff x f = f.filter fun c ↦ !c.covers x := by
  rw [splitOff_eq_foldl, foldl_splitInto_eq_append_filter [] fun c hc _ ↦ h c hc, List.nil_append]

/-- A cube around the point comes apart into its parts. -/
theorem splitOff_singleton {c : Cube n} (h : c.covers x = true) : splitOff x [c] = c.without x := by
  have hnew : ∀ part ∈ c.without x, part ∉ ([] : Cover n) := fun _ _ ↦ List.not_mem_nil
  rw [splitOff_eq_foldl, List.foldl_cons, List.foldl_nil, splitInto_of_covers h,
    addNew_eq_append (Cube.nodup_without c x) hnew, List.nil_append]

/-- What may take the place of a cube when the point is taken out of a cover: the cube itself if it
does not cover the point, and otherwise some of its parts, in their order. -/
def IsBlock (x : BitVec n) (c : Cube n) (block : Cover n) : Prop :=
  if c.covers x then block.Sublist (c.without x) else block = [c]

theorem exists_blocks_foldl_splitInto (x : BitVec n) (f treated : Cover n) :
    ∃ blocks : List (Cover n), List.Forall₂ (IsBlock x) f blocks ∧
      f.foldl (splitInto x) treated = treated ++ blocks.flatten := by
  induction f generalizing treated with
  | nil => exact ⟨[], List.Forall₂.nil, (List.append_nil _).symm⟩
  | cons c f ih =>
    have hblock : ∃ block, IsBlock x c block ∧ splitInto x treated c = treated ++ block := by
      cases hc : c.covers x with
      | true =>
        obtain ⟨block, hblock, heq⟩ := exists_addNew_eq_append treated (c.without x)
        refine ⟨block, ?_, (splitInto_of_covers hc).trans heq⟩
        rwa [IsBlock, if_pos hc]
      | false =>
        refine ⟨[c], ?_, splitInto_of_not_covers hc⟩
        rw [IsBlock, if_neg (Bool.eq_false_iff.1 hc)]
    obtain ⟨block, hblock, heq⟩ := hblock
    obtain ⟨blocks, hblocks, hfold⟩ := ih (treated ++ block)
    refine ⟨block :: blocks, List.Forall₂.cons hblock hblocks, ?_⟩
    rw [List.foldl_cons, heq, hfold, List.flatten_cons, List.append_assoc]

/-- **What is left of a cover falls into blocks**, one for each of its cubes. -/
theorem exists_blocks_splitOff (x : BitVec n) (f : Cover n) :
    ∃ blocks : List (Cover n), List.Forall₂ (IsBlock x) f blocks ∧
      splitOff x f = blocks.flatten := by
  rw [splitOff_eq_foldl]
  exact exists_blocks_foldl_splitInto x f []

/-- Cubes that do not cover the point are blocks by themselves. -/
theorem filter_sublist_flatten {f : Cover n} {blocks : List (Cover n)}
    (h : List.Forall₂ (IsBlock x) f blocks) :
    (f.filter fun c ↦ !c.covers x).Sublist blocks.flatten := by
  induction h with
  | nil => exact List.Sublist.refl _
  | @cons c block f blocks hblock _ ih =>
    rw [List.flatten_cons]
    cases hc : c.covers x with
    | true =>
      rw [List.filter_cons_of_neg (by rw [hc]; decide)]
      exact ih.trans (List.sublist_append_right _ _)
    | false =>
      rw [IsBlock, if_neg (Bool.eq_false_iff.1 hc)] at hblock
      rw [List.filter_cons_of_pos (by rw [hc]; rfl), hblock]
      exact ih.cons_cons c

theorem mem_foldl_splitInto {f treated : Cover n} {d : Cube n} :
    d ∈ f.foldl (splitInto x) treated ↔ d ∈ treated ∨ ∃ c ∈ f, d ∈ c.outside x := by
  induction f generalizing treated with
  | nil =>
    refine (or_iff_left ?_).symm
    rintro ⟨c, hc, _⟩
    exact List.not_mem_nil hc
  | cons c f ih =>
    rw [List.foldl_cons, ih, mem_splitInto, or_assoc]
    simp only [List.mem_cons, exists_eq_or_imp]

/-- **What is left of a cover are the cubes that are left of its cubes.** -/
theorem mem_splitOff {f : Cover n} {d : Cube n} :
    d ∈ splitOff x f ↔ ∃ c ∈ f, d ∈ c.outside x := by
  rw [splitOff_eq_foldl, mem_foldl_splitInto]
  exact or_iff_right List.not_mem_nil

/-- **A cover loses the point and no other.** -/
theorem covers_splitOff {f : Cover n} {y : BitVec n} :
    (splitOff x f).covers y = true ↔ f.covers y = true ∧ y ≠ x := by
  rw [Cover.covers_iff, Cover.covers_iff]
  refine ⟨?_, ?_⟩
  · rintro ⟨d, hd, hy⟩
    obtain ⟨c, hc, hdc⟩ := mem_splitOff.1 hd
    obtain ⟨hcy, hne⟩ := Cube.covers_outside.1 (Cover.covers_iff.2 ⟨d, hdc, hy⟩)
    exact ⟨⟨c, hc, hcy⟩, hne⟩
  · rintro ⟨⟨c, hc, hy⟩, hne⟩
    obtain ⟨d, hd, hdy⟩ := Cover.covers_iff.1 (Cube.covers_outside.2 ⟨hy, hne⟩)
    exact ⟨d, mem_splitOff.2 ⟨c, hc, hd⟩, hdy⟩

/-! ## Taking a point out -/

/-- Some cubes are a cube less one of its points, divided among them. -/
structure Divides (c : Cube n) (x : BitVec n) (parts : Cover n) : Prop where
  /-- There is one for each missing position. -/
  length_eq : parts.length = c.count .missing
  /-- In the order of the positions, each turns away from the point at its own position, agrees with
  it at the missing positions before, and is as the cube was everywhere else. -/
  isPartAround : List.Forall₂ (c.IsPartAround x) (Mask.positions c.missing) parts
  /-- No point is in two of them. -/
  disjoint : parts.Pairwise fun a b ↦ ∀ y, ¬(a.covers y = true ∧ b.covers y = true)
  /-- Together they cover the points of the cube but the one. -/
  covers_iff : ∀ y, parts.covers y = true ↔ c.covers y = true ∧ y ≠ x

/-- A cover is another one less a point. -/
structure Loses (f : Cover n) (x : BitVec n) (g : Cover n) : Prop where
  /-- It covers what the other covers but the point. -/
  covers_iff : ∀ y, g.covers y = true ↔ f.covers y = true ∧ y ≠ x
  /-- The cubes that do not cover the point are there, in their order. -/
  kept : (f.filter fun c ↦ !c.covers x).Sublist g
  /-- Cube by cube, each of them stays where it was, and any other has given way to parts of it. -/
  blocks : ∃ blocks : List (Cover n), List.Forall₂ (IsBlock x) f blocks ∧ g = blocks.flatten

/-- **Taking a point out is exact.**  A cube around the point is divided into disjoint cubes, as
many as it has missing positions, that cover its other points; and a cover of any cubes, overlapping
or repeated, loses the point and no other, and keeps the cubes that do not cover it as they are and
in their order. -/
theorem splitOff_takesOut (x : BitVec n) :
    (∀ c : Cube n, c.covers x = true → Divides c x (splitOff x [c])) ∧
      ∀ f : Cover n, Loses f x (splitOff x f) := by
  refine ⟨fun c hc ↦ ?_, fun f ↦ ?_⟩
  · rw [splitOff_singleton hc]
    exact {
      length_eq := c.length_without x
      isPartAround := Cube.isPartAround_without c x
      disjoint := Cube.disjoint_without c x
      covers_iff := fun y ↦ Cube.covers_without hc }
  · obtain ⟨blocks, hblocks, heq⟩ := exists_blocks_splitOff x f
    exact {
      covers_iff := fun y ↦ covers_splitOff
      kept := heq ▸ filter_sublist_flatten hblocks
      blocks := ⟨blocks, hblocks, heq⟩ }

/-- `--1` less `101` has two parts. -/
theorem splitOff_takesOut_twoParts :
    (Cube.ofMasks 1#3 6#3).covers 5#3 = true ∧
      Divides (Cube.ofMasks 1#3 6#3) 5#3 (splitOff 5#3 [Cube.ofMasks 1#3 6#3]) := by
  have hcovers : (Cube.ofMasks 1#3 6#3).covers 5#3 = true := by decide
  exact ⟨hcovers, (splitOff_takesOut 5#3).1 _ hcovers⟩

end Store

/-! ## Covers of minterms -/

/-- The cubes are minterms, no two of them the same. -/
structure Cover.IsMinterms (f : Cover n) : Prop where
  /-- No cube has a missing position. -/
  missing_eq_zero : ∀ c ∈ f, c.missing = 0#n
  /-- No cube is there twice. -/
  nodup : f.Nodup

namespace Cover

theorem isMinterms_nil : IsMinterms ([] : Cover n) where
  missing_eq_zero _ hc := absurd hc List.not_mem_nil
  nodup := List.nodup_nil

theorem isMinterms_map_minterm {xs : List (BitVec n)} (h : xs.Nodup) :
    IsMinterms (xs.map Cube.minterm) where
  missing_eq_zero c hc := by
    obtain ⟨x, _, rfl⟩ := List.mem_map.1 hc
    rfl
  nodup := nodup_map_minterm h

variable {f : Cover n}

theorem IsMinterms.splitOff (h : f.IsMinterms) (x : BitVec n) :
    (Store.splitOff x f).IsMinterms := by
  rw [Store.splitOff_eq_filter h.missing_eq_zero]
  exact ⟨fun c hc ↦ h.missing_eq_zero c (List.mem_filter.1 hc).1, h.nodup.filter _⟩

theorem IsMinterms.append_minterm (h : f.IsMinterms) (hx : f.covers x = false) :
    (f ++ [Cube.minterm x]).IsMinterms where
  missing_eq_zero c hc := by
    rcases List.mem_append.1 hc with hc | hc
    · exact h.missing_eq_zero c hc
    · rw [List.mem_singleton.1 hc]
      rfl
  nodup := by
    rw [← List.concat_eq_append, List.nodup_concat]
    refine ⟨fun hmem ↦ ?_, h.nodup⟩
    have hcovers := Cube.covers_minterm.2 (rfl : x = x)
    exact Bool.false_ne_true ((covers_eq_false_iff.1 hx _ hmem).symm.trans hcovers)

end Cover

namespace Store

/-! ## Repetitions -/

/-- A cube that is kept whole must not be there already, neither from the beginning nor as a part of
a cube before it. -/
theorem nodup_foldl_splitInto_iff {f : Cover n} (treated : Cover n) (hf : f.Nodup) :
    (f.foldl (splitInto x) treated).Nodup ↔
      treated.Nodup ∧ (∀ d ∈ f, d.covers x = false → d ∉ treated) ∧
        f.Pairwise fun c d ↦ c.covers x = true → d.covers x = false → d ∉ c.without x := by
  induction f generalizing treated with
  | nil =>
    refine (and_iff_left ⟨?_, List.Pairwise.nil⟩).symm
    exact fun d hd ↦ absurd hd List.not_mem_nil
  | cons c f ih =>
    obtain ⟨hcf, hf⟩ := List.nodup_cons.1 hf
    rw [List.foldl_cons, ih _ hf, List.pairwise_cons]
    simp only [List.forall_mem_cons]
    cases hc : c.covers x with
    | true =>
      rw [splitInto_of_covers hc, nodup_addNew_iff]
      simp only [mem_addNew, not_or, imp_and, forall_and, reduceCtorEq, false_imp_iff, true_and,
        forall_const, and_assoc]
    | false =>
      rw [splitInto_of_not_covers hc, ← List.concat_eq_append, List.nodup_concat]
      have hne : ∀ d ∈ f, d ≠ c := by
        rintro d hd rfl
        exact hcf hd
      simp only [List.concat_eq_append, List.mem_append, List.mem_singleton, not_or, imp_and,
        forall_and, reduceCtorEq, false_imp_iff, true_and, forall_const, implies_true]
      refine ⟨?_, ?_⟩
      · rintro ⟨⟨hct, ht⟩, ⟨hd, _⟩, hpair⟩
        exact ⟨ht, ⟨hct, hd⟩, hpair⟩
      · rintro ⟨ht, ⟨hct, hd⟩, hpair⟩
        exact ⟨⟨hct, ht⟩, ⟨hd, fun d hdf _ ↦ hne d hdf⟩, hpair⟩

/-- **A repetition comes about exactly where a cube that is kept is a part of one before it.** -/
theorem nodup_splitOff_iff {f : Cover n} (hf : f.Nodup) :
    (splitOff x f).Nodup ↔
      f.Pairwise fun c d ↦ c.covers x = true → d.covers x = false → d ∉ c.without x := by
  rw [splitOff_eq_foldl, nodup_foldl_splitInto_iff [] hf]
  refine ⟨fun h ↦ h.2.2, fun h ↦ ⟨List.nodup_nil, ?_, h⟩⟩
  exact fun d _ _ ↦ List.not_mem_nil

end Store

end TwoLevel
