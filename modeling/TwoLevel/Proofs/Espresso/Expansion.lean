import TwoLevel.Proofs.Espresso.Growth
import Mathlib.Data.List.Nodup

/-!
# Expanding a cover

The invariant of the working cover is `Marked.IsSound`: no cube meets the off-set, and the cubes
marked as prime are prime.  Expansion turns a cover of such cubes into one of marked, prime cubes
(`isExpanded_expand`) and loses no point, since every cube ends inside one of the result
(`exists_contains_expand`).  A cube that has grown swallows its equals, so no cube is there twice
unless it was marked and there twice before (`nodup_expand`).

Put together that is `IsExpansion`, which speaks of the cubes alone: prime cubes, each grown from
one of the given ones, none of which lies inside another.  For the last it is enough that they are
prime and different (`pairwise_incomparable`).
-/

set_option autoImplicit false

namespace TwoLevel.Espresso

variable {n : Nat}

/-- A cube of a working cover that avoids the off-set, and whose mark can be believed. -/
structure Marked.IsSound (off : Cover n) (m : Marked n) : Prop where
  /-- The cube meets no cube of the off-set. -/
  avoids : Avoids off m.cube
  /-- If it is marked as prime, it is. -/
  prime : m.prime = true → IsPrimeAgainst off m.cube

/-- A cube of a working cover that is marked as prime and is. -/
structure Marked.IsExpanded (off : Cover n) (m : Marked n) : Prop where
  /-- The cube is marked. -/
  marked : m.prime = true
  /-- The cube is prime. -/
  isPrime : IsPrimeAgainst off m.cube

theorem Marked.IsExpanded.isSound {off : Cover n} {m : Marked n} (h : m.IsExpanded off) :
    m.IsSound off :=
  ⟨h.isPrime.implicant, fun _ ↦ h.isPrime⟩

theorem mem_notIn {c : Cube n} {f : List (Marked n)} {m : Marked n} :
    m ∈ notIn c f ↔ m ∈ f ∧ c.contains m.cube = false := by
  rw [notIn, List.mem_filter, Bool.not_eq_true']

/-! ## The cubes are prime -/

theorem isExpanded_expandFrom {off : Cover n} {treated todo : List (Marked n)}
    (htreated : ∀ m ∈ treated, m.IsExpanded off) (htodo : ∀ m ∈ todo, m.IsSound off) :
    ∀ m ∈ expandFrom off treated todo, m.IsExpanded off := by
  fun_induction expandFrom off treated todo with
  | case1 treated => exact htreated
  | case2 treated m rest hm ih =>
    refine ih ?_ fun k hk ↦ htodo k (List.mem_cons_of_mem _ hk)
    rw [List.forall_mem_append, List.forall_mem_singleton]
    exact ⟨htreated, hm, (htodo m List.mem_cons_self).prime hm⟩
  | case3 treated m rest _ grown ih =>
    refine ih ?_ fun k hk ↦ htodo k (List.mem_cons_of_mem _ (mem_notIn.1 hk).1)
    rw [List.forall_mem_append, List.forall_mem_singleton]
    exact ⟨fun k hk ↦ htreated k (mem_notIn.1 hk).1, rfl,
      isPrime_expandCube (htodo m List.mem_cons_self).avoids⟩

/-- With nothing to avoid the full cube is prime. -/
theorem isPrimeAgainst_nil_full : IsPrimeAgainst [] (Cube.full n) where
  implicant _ _ := rfl
  maximal i hi hv := absurd (by simp [Cube.value, Cube.full, hi]) hv

/-- **Expansion leaves marked, prime cubes.** -/
theorem isExpanded_expand {off : Cover n} {f : List (Marked n)} (hf : ∀ m ∈ f, m.IsSound off) :
    ∀ m ∈ expand f off, m.IsExpanded off := by
  rw [expand]
  split
  · next hoff =>
    rw [List.isEmpty_iff.1 hoff, List.forall_mem_singleton]
    exact ⟨rfl, isPrimeAgainst_nil_full⟩
  · refine isExpanded_expandFrom (fun m hm ↦ absurd hm List.not_mem_nil) fun m hm ↦ ?_
    exact hf m ((largestFirst_perm f).mem_iff.1 hm)

/-! ## No point is lost -/

theorem exists_contains_expandFrom (off : Cover n) (treated todo : List (Marked n)) :
    ∀ m ∈ treated ++ todo, ∃ k ∈ expandFrom off treated todo, k.cube.contains m.cube = true := by
  fun_induction expandFrom off treated todo with
  | case1 treated =>
    intro m hm
    rw [List.append_nil] at hm
    exact ⟨m, hm, Cube.contains_refl _⟩
  | case2 treated m rest _ ih =>
    intro k hk
    refine ih k ?_
    rwa [List.append_assoc, List.singleton_append]
  | case3 treated m rest _ grown ih =>
    intro k hk
    by_cases hin : grown.contains k.cube = true
    · -- swallowed by the grown cube, which ends inside a cube of the result itself
      obtain ⟨l, hl, hlg⟩ := ih ⟨grown, true⟩ (by simp)
      exact ⟨l, hl, Cube.contains_trans hlg hin⟩
    · rw [Bool.not_eq_true] at hin
      refine ih k ?_
      rw [List.mem_append, List.mem_append]
      rcases List.mem_append.1 hk with hk | hk
      · exact Or.inl (Or.inl (mem_notIn.2 ⟨hk, hin⟩))
      · rcases List.mem_cons.1 hk with rfl | hk
        · rw [expandCube_contains] at hin
          cases hin
        · exact Or.inr (mem_notIn.2 ⟨hk, hin⟩)

/-- **Every cube ends inside an expanded one.** -/
theorem exists_contains_expand (f : List (Marked n)) (off : Cover n) :
    ∀ m ∈ f, ∃ k ∈ expand f off, k.cube.contains m.cube = true := by
  intro m hm
  rw [expand]
  split
  · exact ⟨⟨Cube.full n, true⟩, List.mem_singleton_self _, Cube.contains_full _⟩
  · exact exists_contains_expandFrom off [] (largestFirst f) m ((largestFirst_perm f).mem_iff.2 hm)

theorem mem_cubes {f : List (Marked n)} {c : Cube n} :
    c ∈ cubes f ↔ ∃ m ∈ f, m.cube = c :=
  List.mem_map

/-- **Expansion loses no point.** -/
theorem covers_expand {f : List (Marked n)} {x : BitVec n} (off : Cover n)
    (h : Cover.covers (cubes f) x = true) : Cover.covers (cubes (expand f off)) x = true := by
  obtain ⟨c, hc, hx⟩ := Cover.covers_iff.1 h
  obtain ⟨m, hm, rfl⟩ := mem_cubes.1 hc
  obtain ⟨k, hk, hkm⟩ := exists_contains_expand f off m hm
  exact Cover.covers_iff.2 ⟨k.cube, mem_cubes.2 ⟨k, hk, rfl⟩, Cube.contains_iff.1 hkm x hx⟩

/-! ## No cube is there twice -/

theorem nodup_expandFrom {off : Cover n} {treated todo : List (Marked n)}
    (h : (cubes (treated ++ todo.filter (·.prime))).Nodup) :
    (cubes (expandFrom off treated todo)).Nodup := by
  fun_induction expandFrom off treated todo with
  | case1 treated =>
    rwa [List.filter_nil, List.append_nil] at h
  | case2 treated m rest hm ih =>
    refine ih ?_
    rw [List.filter_cons_of_pos hm] at h
    rwa [List.append_assoc, List.singleton_append]
  | case3 treated m rest hm grown ih =>
    refine ih ?_
    rw [List.filter_cons_of_neg hm] at h
    have hsub : (notIn grown treated ++ (notIn grown rest).filter (·.prime)).Sublist
        (treated ++ rest.filter (·.prime)) :=
      List.filter_sublist.append (List.filter_sublist.filter _)
    have hnew : grown ∉ cubes (notIn grown treated ++ (notIn grown rest).filter (·.prime)) := by
      intro hmem
      obtain ⟨k, hk, heq⟩ := mem_cubes.1 hmem
      have hk' : grown.contains k.cube = false := by
        rcases List.mem_append.1 hk with hk | hk
        · exact (mem_notIn.1 hk).2
        · exact (mem_notIn.1 (List.mem_filter.1 hk).1).2
      rw [heq, Cube.contains_refl] at hk'
      cases hk'
    rw [List.append_assoc, List.singleton_append, cubes, List.map_append, List.map_cons,
      List.nodup_middle, ← List.map_append, List.nodup_cons]
    exact ⟨hnew, h.sublist (hsub.map _)⟩

/-- **An expanded cover holds no cube twice**, if no cube was marked as prime twice. -/
theorem nodup_expand {f : List (Marked n)} (h : (cubes (f.filter (·.prime))).Nodup)
    (off : Cover n) : (cubes (expand f off)).Nodup := by
  rw [expand]
  split
  · exact List.nodup_singleton _
  · refine nodup_expandFrom ?_
    rw [List.nil_append]
    exact (((largestFirst_perm f).filter _).map _).nodup_iff.2 h

/-! ## What expansion comes to -/

/-- A cube avoids the off-set when it has no point in common with any cube of it. -/
theorem avoids_iff_inter_eq_none {off : Cover n} {c : Cube n} :
    Avoids off c ↔ ∀ r ∈ off, c.inter r = none := by
  rw [avoids_iff]
  exact forall₂_congr fun r _ ↦ Cube.inter_eq_none_iff_conflicts.symm

/-- A cube that does not avoid the off-set meets a cube of it. -/
theorem exists_inter_of_not_avoids {off : Cover n} {c : Cube n} (h : ¬ Avoids off c) :
    ∃ r ∈ off, c.inter r ≠ none := by
  rw [avoids_iff_inter_eq_none] at h
  by_contra hno
  exact h fun r hr ↦ by_contra fun hne ↦ hno ⟨r, hr, hne⟩

/-- Different prime cubes do not lie one inside the other. -/
theorem contains_eq_false_of_ne {off : Cover n} {c d : Cube n} (hc : IsPrimeAgainst off c)
    (hd : IsPrimeAgainst off d) (hne : c ≠ d) : c.contains d = false := by
  rw [← Bool.not_eq_true]
  exact fun h ↦ hne (hd.eq_of_contains hc.implicant h)

theorem pairwise_incomparable {off f : Cover n} (hprime : ∀ c ∈ f, IsPrimeAgainst off c)
    (hnodup : f.Nodup) :
    f.Pairwise fun c d ↦ c.contains d = false ∧ d.contains c = false := by
  refine List.Pairwise.imp_of_mem ?_ hnodup
  intro c d hc hd hne
  have hpc := hprime c hc
  have hpd := hprime d hd
  exact ⟨contains_eq_false_of_ne hpc hpd hne, contains_eq_false_of_ne hpd hpc hne.symm⟩

/-- One cover is what the other expands to against an off-set. -/
structure IsExpansion (off f g : Cover n) : Prop where
  /-- No cube meets the off-set. -/
  avoids : ∀ c ∈ g, ∀ r ∈ off, c.inter r = none
  /-- With any explicit position made missing a cube would meet it. -/
  maximal : ∀ c ∈ g, ∀ i, i < n → c.value i ≠ .missing → ∃ r ∈ off, (c.free i).inter r ≠ none
  /-- Every cube there was has ended inside a cube. -/
  exists_contains : ∀ c ∈ f, ∃ d ∈ g, d.contains c = true
  /-- No cube lies inside another. -/
  incomparable : g.Pairwise fun c d ↦ c.contains d = false ∧ d.contains c = false
  /-- There are no more cubes than there were. -/
  length_le : g.length ≤ f.length
  /-- With nothing to avoid there is one cube, the full one. -/
  eq_full : off = [] → g = [Cube.full n]

/-- **Expansion makes cubes prime, loses nothing and leaves nothing superfluous.**  The cover must
not be empty, for with nothing to avoid even an empty one expands to the full cube. -/
theorem isExpansion_expand {off : Cover n} {f : List (Marked n)} (hne : f ≠ [])
    (havoids : ∀ m ∈ f, ∀ r ∈ off, m.cube.inter r = none)
    (hprime : ∀ m ∈ f, m.prime = true → IsPrimeAgainst off m.cube)
    (hnodup : (cubes (f.filter (·.prime))).Nodup) :
    IsExpansion off (cubes f) (cubes (expand f off)) := by
  have hsound : ∀ m ∈ f, m.IsSound off :=
    fun m hm ↦ ⟨avoids_iff_inter_eq_none.2 (havoids m hm), hprime m hm⟩
  have hexpanded : ∀ c ∈ cubes (expand f off), IsPrimeAgainst off c := by
    intro c hc
    obtain ⟨m, hm, rfl⟩ := mem_cubes.1 hc
    exact (isExpanded_expand hsound m hm).isPrime
  refine
    { avoids := fun c hc ↦ avoids_iff_inter_eq_none.1 (hexpanded c hc).implicant
      maximal := fun c hc i hi hv ↦ exists_inter_of_not_avoids ((hexpanded c hc).maximal i hi hv)
      exists_contains := ?_
      incomparable := pairwise_incomparable hexpanded (nodup_expand hnodup off)
      length_le := ?_
      eq_full := ?_ }
  · intro c hc
    obtain ⟨m, hm, rfl⟩ := mem_cubes.1 hc
    obtain ⟨k, hk, hkm⟩ := exists_contains_expand f off m hm
    exact ⟨k.cube, mem_cubes.2 ⟨k, hk, rfl⟩, hkm⟩
  · have hle := length_expand_le f off
    have hpos := List.length_pos_of_ne_nil hne
    rw [length_cubes, length_cubes]
    omega
  · rintro rfl
    rfl

/-- A prime edge, marked as prime, and two points of the other half space. -/
def markedEdge : List (Marked 3) :=
  [⟨Cube.ofMasks 1#3 2#3, true⟩, ⟨Cube.minterm 6#3, false⟩, ⟨Cube.minterm 7#3, false⟩]

/-- The points that the cubes of `markedEdge` leave out. -/
def offEdge : Cover 3 := [0#3, 2#3, 4#3, 5#3].map Cube.minterm

theorem isExpansion_expand_markedEdge :
    markedEdge ≠ [] ∧ (∀ m ∈ markedEdge, ∀ r ∈ offEdge, m.cube.inter r = none) ∧
    (∀ m ∈ markedEdge, m.prime = true → IsPrimeAgainst offEdge m.cube) ∧
    (cubes (markedEdge.filter (·.prime))).Nodup ∧
    IsExpansion offEdge (cubes markedEdge) (cubes (expand markedEdge offEdge)) := by
  have hne : markedEdge ≠ [] := by decide
  have havoids : ∀ m ∈ markedEdge, ∀ r ∈ offEdge, m.cube.inter r = none := by decide
  have hprime : ∀ m ∈ markedEdge, m.prime = true → IsPrimeAgainst offEdge m.cube := by decide
  have hnodup : (cubes (markedEdge.filter (·.prime))).Nodup := by decide
  exact ⟨hne, havoids, hprime, hnodup, isExpansion_expand hne havoids hprime hnodup⟩

end TwoLevel.Espresso
