import TwoLevel.Espresso
import TwoLevel.Proofs.Espresso.Shrinkage
import Mathlib.Data.List.Perm.Subperm

/-!
# What the rounds answer with

A **partition** says of every point what a cover has to do about it.  Two things are shown of the
cover that a run answers with.

* It is a cover of the partition (`isCover_ofPartition`), for the invariant `IsWorking` of the
  working cover survives each phase, so that every snapshot is one, and the answer is among them.
* Unless no round is allowed it is an irredundant cover of primes (`isAnswer_ofPartition`).  Only
  what the second phase leaves is known to be that, while the answer is the cheapest of all but the
  reduced covers.  The invariant that decides it relates costs: after a full round the best cover so
  far is strictly cheaper than the reduced one that the next round starts from.  So an expanded
  cover that ends the run, being as dear as the reduced one, is never the best; and one that does
  not end it is followed by an irredundant cover that is no dearer.

The one expanded cover that can be the answer is that of a first round which changes nothing, and
then it is the explicit points themselves (`isAnswer_expand_ofPoints`).
-/

set_option autoImplicit false

namespace TwoLevel

variable {n : Nat}

namespace Partition

/-- Every point is of exactly one kind, and the explicit ones are listed once. -/
structure IsValid (p : Partition n) : Prop where
  /-- The explicit points are listed once. -/
  nodup_on : p.on.Nodup
  /-- No explicit point is a don't care. -/
  not_dontCare : ∀ x ∈ p.on, x ∉ p.dontCare
  /-- The rest is what is neither. -/
  mem_off_iff : ∀ x, x ∈ p.off ↔ x ∉ p.on ∧ x ∉ p.dontCare

/-- The minterms of the points whose output does not matter. -/
def dontCareCover (p : Partition n) : Cover n := p.dontCare.map Cube.minterm

/-- The minterms of the points with the implicit output. -/
def offCover (p : Partition n) : Cover n := p.off.map Cube.minterm

/-- A cover of the explicit points that stays clear of the implicit ones. -/
structure IsCover (p : Partition n) (f : Cover n) : Prop where
  /-- Every explicit point is covered. -/
  covers_on : ∀ x ∈ p.on, f.covers x = true
  /-- No implicit point is covered. -/
  avoids_off : ∀ x ∈ p.off, f.covers x = false

/-- A cover of the explicit points by prime implicants, each of which covers an explicit point that
no other one covers. -/
structure IsAnswer (p : Partition n) (f : Cover n) : Prop where
  /-- Every explicit point is covered. -/
  covers_on : ∀ x ∈ p.on, f.covers x = true
  /-- Every cube is prime. -/
  isPrime : ∀ c ∈ f, Espresso.IsPrimeAgainst p.offCover c
  /-- Every cube is needed. -/
  isIrredundant : Cover.IsIrredundant p.dontCareCover f

variable {p : Partition n}

theorem covers_offCover_eq_false_iff {x : BitVec n} :
    p.offCover.covers x = false ↔ x ∉ p.off := by
  rw [← Bool.not_eq_true, offCover, Cover.covers_map_minterm]

theorem covers_dontCareCover_eq_false_iff {x : BitVec n} :
    p.dontCareCover.covers x = false ↔ x ∉ p.dontCare := by
  rw [← Bool.not_eq_true, dontCareCover, Cover.covers_map_minterm]

end Partition

namespace Espresso

open Cover TwoLevel.Partition

variable {p : Partition n}

/-! ## The working cover -/

/-- The invariant of the working cover. -/
structure IsWorking (p : Partition n) (f : List (Marked n)) : Prop where
  /-- No cube meets the off-set, and the marks can be believed. -/
  isSound : ∀ m ∈ f, m.IsSound p.offCover
  /-- Every explicit point is covered. -/
  covers_on : ∀ x ∈ p.on, covers (cubes f) x = true

theorem IsWorking.isCover {f : List (Marked n)} (h : IsWorking p f) : p.IsCover (cubes f) where
  covers_on := h.covers_on
  avoids_off x hx := by
    rw [← Bool.not_eq_true]
    intro hcov
    obtain ⟨c, hc, hcx⟩ := covers_iff.1 hcov
    obtain ⟨m, hm, rfl⟩ := mem_cubes.1 hc
    exact covers_offCover_eq_false_iff.1 ((h.isSound m hm).avoids x hcx) hx

/-- What covers as much together with the don't cares covers the explicit points, too. -/
theorem covers_on_of_covers_eq (hp : p.IsValid) {f g : List (Marked n)}
    (h : ∀ x, covers (cubes g ++ p.dontCareCover) x = covers (cubes f ++ p.dontCareCover) x)
    (hf : ∀ x ∈ p.on, covers (cubes f) x = true) : ∀ x ∈ p.on, covers (cubes g) x = true := by
  intro x hx
  have hfg := h x
  have hdc : p.dontCareCover.covers x = false :=
    covers_dontCareCover_eq_false_iff.2 (hp.not_dontCare x hx)
  rwa [covers_append, covers_append, hdc, Bool.or_false, Bool.or_false, hf x hx] at hfg

theorem cubes_ofPoints (xs : List (BitVec n)) : cubes (ofPoints xs) = xs.map Cube.minterm := by
  rw [cubes, ofPoints, List.map_map]
  rfl

theorem isWorking_ofPoints (hp : p.IsValid) : IsWorking p (ofPoints p.on) where
  isSound m hm := by
    obtain ⟨x, hx, rfl⟩ := List.mem_map.1 hm
    refine ⟨Cube.isImplicant_minterm_iff.2 (covers_offCover_eq_false_iff.2 fun hoff ↦ ?_),
      fun h ↦ Bool.noConfusion h⟩
    exact ((hp.mem_off_iff x).1 hoff).1 hx
  covers_on x hx := by
    rwa [cubes_ofPoints, covers_map_minterm]

theorem IsWorking.expand {f : List (Marked n)} (h : IsWorking p f) :
    IsWorking p (expand f p.offCover) where
  isSound m hm := (isExpanded_expand h.isSound m hm).isSound
  covers_on x hx := covers_expand _ (h.covers_on x hx)

theorem IsWorking.irredundant (hp : p.IsValid) {f : List (Marked n)} (h : IsWorking p f) :
    IsWorking p (irredundant f p.dontCareCover) where
  isSound m hm := h.isSound m ((sublist_irredundant f _).subset hm)
  covers_on := covers_on_of_covers_eq hp (covers_irredundant f _) h.covers_on

theorem IsWorking.reduce (hp : p.IsValid) {f : List (Marked n)} (h : IsWorking p f) :
    IsWorking p (reduce f p.dontCareCover) where
  isSound := isSound_reduce h.isSound _
  covers_on := covers_on_of_covers_eq hp (covers_reduce f _) h.covers_on

/-! ## How rounds end

`rounds` makes a list, and `Trail` says for each of the five ways in which a round can go what it
adds to the list and which costs were compared. -/

/-- The snapshots that the rounds leave, by the phase after which they end. -/
inductive Trail (d off : Cover n) : Option Nat → List (Marked n) → List (Snapshot n) → Prop
  /-- No round is allowed. -/
  | stop (f : List (Marked n)) : Trail d off (some 0) f []
  /-- Expanding does not change the cost. -/
  | expanded {cap : Option Nat} {f : List (Marked n)} (hcap : cap ≠ some 0)
      (he : cost (expand f off) = cost f) :
      Trail d off cap f [⟨.expanded, cubes (expand f off)⟩]
  /-- Dropping cubes does not change the cost. -/
  | irredundant {cap : Option Nat} {f e : List (Marked n)} (hcap : cap ≠ some 0)
      (hexp : expand f off = e) (he : cost e ≠ cost f) (hk : cost (irredundant e d) = cost e) :
      Trail d off cap f [⟨.expanded, cubes e⟩, ⟨.irredundant, cubes (irredundant e d)⟩]
  /-- Reducing does not change the cost. -/
  | reduced {cap : Option Nat} {f e k : List (Marked n)} (hcap : cap ≠ some 0)
      (hexp : expand f off = e) (hirr : irredundant e d = k) (he : cost e ≠ cost f)
      (hk : cost k ≠ cost e) (hr : cost (reduce k d) = cost k) :
      Trail d off cap f
        [⟨.expanded, cubes e⟩, ⟨.irredundant, cubes k⟩, ⟨.reduced, cubes (reduce k d)⟩]
  /-- Every phase changes the cost, and another round follows. -/
  | round {cap : Option Nat} {f e k r : List (Marked n)} {rest : List (Snapshot n)}
      (hcap : cap ≠ some 0) (hexp : expand f off = e) (hirr : irredundant e d = k)
      (hred : reduce k d = r) (he : cost e ≠ cost f) (hk : cost k ≠ cost e) (hr : cost r ≠ cost k)
      (tail : Trail d off (cap.map (· - 1)) r rest) :
      Trail d off cap f
        (⟨.expanded, cubes e⟩ :: ⟨.irredundant, cubes k⟩ :: ⟨.reduced, cubes r⟩ :: rest)

theorem trail_rounds (d off : Cover n) (cap : Option Nat) (f : List (Marked n)) :
    Trail d off cap f (rounds d off cap f) := by
  fun_induction rounds d off cap f with
  | case1 f => exact Trail.stop f
  | case2 cap f hcap e ih =>
    split
    · next he => exact Trail.expanded hcap he
    · next he =>
      simp only
      split
      · next hk => exact Trail.irredundant hcap rfl he hk
      · next hk =>
        split
        · next hr => exact Trail.reduced hcap rfl rfl he hk hr
        · next hr => exact Trail.round hcap rfl rfl rfl he hk hr (ih hk hr)

/-! ## Every snapshot is a cover -/

theorem isCover_of_mem_trail (hp : p.IsValid) {cap : Option Nat} {f : List (Marked n)}
    {snapshots : List (Snapshot n)} (h : Trail p.dontCareCover p.offCover cap f snapshots)
    (hf : IsWorking p f) : ∀ s ∈ snapshots, p.IsCover s.cover := by
  induction h with
  | stop f => exact fun s hs ↦ absurd hs List.not_mem_nil
  | expanded hcap he =>
    rw [List.forall_mem_singleton]
    exact hf.expand.isCover
  | irredundant hcap hexp he hk =>
    subst hexp
    rw [List.forall_mem_cons, List.forall_mem_singleton]
    exact ⟨hf.expand.isCover, (hf.expand.irredundant hp).isCover⟩
  | reduced hcap hexp hirr he hk hr =>
    subst hexp hirr
    rw [List.forall_mem_cons, List.forall_mem_cons, List.forall_mem_singleton]
    exact ⟨hf.expand.isCover, (hf.expand.irredundant hp).isCover,
      ((hf.expand.irredundant hp).reduce hp).isCover⟩
  | round hcap hexp hirr hred he hk hr tail ih =>
    subst hexp hirr hred
    rw [List.forall_mem_cons, List.forall_mem_cons, List.forall_mem_cons]
    exact ⟨hf.expand.isCover, (hf.expand.irredundant hp).isCover,
      ((hf.expand.irredundant hp).reduce hp).isCover, ih ((hf.expand.irredundant hp).reduce hp)⟩

theorem better_eq_or (b : Cover n) (s : Snapshot n) : better b s = b ∨ better b s = s.cover := by
  rw [better]
  split
  · exact Or.inr rfl
  · exact Or.inl rfl

/-- What the initial cover and all snapshots have in common the best of them has, too. -/
theorem best_of_forall {q : Cover n → Prop} {b : Cover n} {snapshots : List (Snapshot n)} (hb : q b)
    (hs : ∀ s ∈ snapshots, q s.cover) : q (best b snapshots) := by
  rw [best]
  induction snapshots generalizing b with
  | nil => exact hb
  | cons s snapshots ih =>
    rw [List.forall_mem_cons] at hs
    refine ih ?_ hs.2
    rcases better_eq_or b s with h | h
    · rwa [h]
    · rw [h]
      exact hs.1

/-- **A run answers with a cover.** -/
theorem isCover_ofPartition (hp : p.IsValid) (cap : Option Nat) :
    p.IsCover (Run.ofPartition cap p).cover := by
  rw [Run.ofPartition]
  split
  · next hon =>
    rw [List.isEmpty_iff] at hon
    refine ⟨fun x hx ↦ ?_, fun _ _ ↦ rfl⟩
    rw [hon] at hx
    cases hx
  · exact best_of_forall (isWorking_ofPoints hp).isCover
      (isCover_of_mem_trail hp (trail_rounds _ _ cap _) (isWorking_ofPoints hp))

/-! ## The answer is irredundant and prime -/

/-- What IRREDUNDANT leaves of an expanded cover can be the answer. -/
theorem isAnswer_irredundant (hp : p.IsValid) {f : List (Marked n)} (hf : IsWorking p f) :
    p.IsAnswer (cubes (irredundant (expand f p.offCover) p.dontCareCover)) where
  covers_on := (hf.expand.irredundant hp).covers_on
  isPrime c hc := by
    obtain ⟨m, hm, rfl⟩ := mem_cubes.1 hc
    exact (isExpanded_expand hf.isSound m ((sublist_irredundant _ _).subset hm)).isPrime
  isIrredundant := isIrredundant_irredundant _ _

/-- Distinct points need all their minterms. -/
theorem isIrredundant_map_minterm (hp : p.IsValid) :
    IsIrredundant p.dontCareCover (p.on.map Cube.minterm) := by
  rw [IsIrredundant, List.forall_mem_map]
  intro x hx
  refine ⟨x, Cube.covers_minterm.2 rfl,
    covers_dontCareCover_eq_false_iff.2 (hp.not_dontCare x hx), ?_⟩
  have hcount : p.on.countP (fun y ↦ (Cube.minterm y).covers x) = p.on.count x := by
    rw [List.count_eq_countP]
    refine List.countP_congr fun y _ ↦ ?_
    rw [Cube.covers_minterm, beq_iff_eq]
  rw [List.countP_map]
  exact hcount.trans (hp.nodup_on.count.trans (if_pos hx))

/-- Where nothing has grown the cubes are the minterms of the explicit points. -/
theorem perm_of_cost_eq (hp : p.IsValid) {f : List (Marked n)} (hf : IsWorking p f)
    (h : cost f = cost (ofPoints p.on)) : (p.on.map Cube.minterm).Perm (cubes f) := by
  have hcost : Cost.ofCover (cubes f) = Cost.ofCover (p.on.map Cube.minterm) := by
    rw [← cubes_ofPoints]
    exact h
  have hmissing : (Cost.ofCover (cubes f)).missing = 0 := by
    rw [hcost, Cost.missing_ofCover_map_minterm]
  have hlen : (cubes f).length = (p.on.map Cube.minterm).length := congrArg Cost.cubes hcost
  have hnodup : (p.on.map Cube.minterm).Nodup := nodup_map_minterm hp.nodup_on
  refine (List.subperm_of_subset hnodup fun c hc ↦ ?_).perm_of_length_le (Nat.le_of_eq hlen)
  obtain ⟨x, hx, rfl⟩ := List.mem_map.1 hc
  obtain ⟨c, hc, hcx⟩ := covers_iff.1 (hf.covers_on x hx)
  obtain ⟨y, rfl⟩ := Cost.exists_eq_minterm_of_missing_eq_zero hmissing hc
  rwa [← Cube.covers_minterm.1 hcx]

/-- **A first round that changes no cost leaves the explicit points**, and they are all primes. -/
theorem isAnswer_expand_ofPoints (hp : p.IsValid)
    (h : cost (expand (ofPoints p.on) p.offCover) = cost (ofPoints p.on)) :
    p.IsAnswer (cubes (expand (ofPoints p.on) p.offCover)) where
  covers_on := (isWorking_ofPoints hp).expand.covers_on
  isPrime c hc := by
    obtain ⟨m, hm, rfl⟩ := mem_cubes.1 hc
    exact (isExpanded_expand (isWorking_ofPoints hp).isSound m hm).isPrime
  isIrredundant :=
    (isIrredundant_map_minterm hp).of_perm (perm_of_cost_eq hp (isWorking_ofPoints hp).expand h)

theorem better_eq_self {b f : Cover n} {phase : Phase}
    (h : (Cost.ofCover f).noMoreThan (Cost.ofCover b) = false) : better b ⟨phase, f⟩ = b := by
  rw [better, if_neg]
  rintro ⟨_, hle⟩
  rw [h] at hle
  cases hle

theorem better_eq_cover {b f : Cover n} {phase : Phase} (hphase : phase ≠ .reduced)
    (h : (Cost.ofCover f).noMoreThan (Cost.ofCover b) = true) : better b ⟨phase, f⟩ = f := by
  rw [better, if_pos ⟨hphase, h⟩]

theorem better_reduced (b f : Cover n) : better b ⟨.reduced, f⟩ = b := by
  rw [better, if_neg]
  exact fun h ↦ h.1 rfl

/-- **After the second phase the best cover can be the answer**, and it is no dearer than what that
phase left. -/
theorem isAnswer_second_phase (hp : p.IsValid) {f : List (Marked n)} {b : Cover n}
    (hf : IsWorking p f)
    (hb : (cost (expand f p.offCover)).noMoreThan (Cost.ofCover b) = false → p.IsAnswer b) :
    p.IsAnswer (better (better b ⟨.expanded, cubes (expand f p.offCover)⟩)
        ⟨.irredundant, cubes (irredundant (expand f p.offCover) p.dontCareCover)⟩) ∧
      (Cost.ofCover (better (better b ⟨.expanded, cubes (expand f p.offCover)⟩)
        ⟨.irredundant, cubes (irredundant (expand f p.offCover) p.dontCareCover)⟩)).noMoreThan
          (cost (irredundant (expand f p.offCover) p.dontCareCover)) = true := by
  have hk := isAnswer_irredundant hp hf
  have hke := Cost.ofCover_noMoreThan_of_sublist
    (sublist_cubes (sublist_irredundant (expand f p.offCover) p.dontCareCover))
  cases he : (cost (expand f p.offCover)).noMoreThan (Cost.ofCover b) with
  | true =>
    rw [better_eq_cover (b := b) (by decide) he, better_eq_cover (by decide) hke]
    exact ⟨hk, Cost.noMoreThan_refl _⟩
  | false =>
    rw [better_eq_self (b := b) he]
    cases hle : (cost (irredundant (expand f p.offCover) p.dontCareCover)).noMoreThan
        (Cost.ofCover b) with
    | true =>
      rw [better_eq_cover (by decide) hle]
      exact ⟨hk, Cost.noMoreThan_refl _⟩
    | false =>
      rw [better_eq_self hle]
      exact ⟨hb he, Cost.noMoreThan_total hle⟩

/-- **The best cover of a run of rounds can be the answer**, if it could be before, or else the
first round makes it so: where expanding ends the run, or where the expanded cover is the cheaper
one. -/
theorem isAnswer_foldl_trail (hp : p.IsValid) {cap : Option Nat} {f : List (Marked n)}
    {snapshots : List (Snapshot n)} (h : Trail p.dontCareCover p.offCover cap f snapshots)
    {b : Cover n} (hf : IsWorking p f) (hstop : cap = some 0 → p.IsAnswer b)
    (hsame : cost (expand f p.offCover) = cost f →
      p.IsAnswer (better b ⟨.expanded, cubes (expand f p.offCover)⟩))
    (hdearer : (cost (expand f p.offCover)).noMoreThan (Cost.ofCover b) = false → p.IsAnswer b) :
    p.IsAnswer (snapshots.foldl better b) := by
  induction h generalizing b with
  | stop f => exact hstop rfl
  | expanded hcap he => exact hsame he
  | irredundant hcap hexp he hk =>
    subst hexp
    exact (isAnswer_second_phase hp hf hdearer).1
  | reduced hcap hexp hirr he hk hr =>
    subst hexp hirr
    rw [List.foldl_cons, List.foldl_cons, List.foldl_cons, better_reduced]
    exact (isAnswer_second_phase hp hf hdearer).1
  | round hcap hexp hirr hred he hk hr tail ih =>
    subst hexp hirr hred
    rw [List.foldl_cons, List.foldl_cons, List.foldl_cons, better_reduced]
    obtain ⟨hbest, hle⟩ := isAnswer_second_phase hp hf hdearer
    -- the reduced cover is dearer than the best one, and so is an expanded one of the same cost
    refine ih ((hf.expand.irredundant hp).reduce hp) (fun _ ↦ hbest) (fun hsame' ↦ ?_) fun _ ↦ hbest
    rw [better_eq_self]
    · exact hbest
    · rw [← cost, hsame', ← Bool.not_eq_true]
      intro hcheap
      exact hr (Cost.noMoreThan_antisymm (Cost.noMoreThan_trans hcheap hle)
        (cost_reduce (isIrredundant_irredundant _ _)))

/-- The explicit points are no cheaper than what they are expanded to. -/
theorem cost_expand_ofPoints (hon : p.on ≠ []) :
    (cost (expand (ofPoints p.on) p.offCover)).noMoreThan
      (Cost.ofCover (cubes (ofPoints p.on))) = true := by
  have hlen := length_expand_le (ofPoints p.on) p.offCover
  have hpos : 0 < (ofPoints p.on).length := by
    rw [ofPoints, List.length_map]
    exact List.length_pos_iff.2 hon
  have hmissing : (Cost.ofCover (cubes (ofPoints p.on))).missing = 0 := by
    rw [cubes_ofPoints, Cost.missing_ofCover_map_minterm]
  rw [Cost.noMoreThan_iff, hmissing, cost, Cost.cubes_ofCover, Cost.cubes_ofCover, length_cubes,
    length_cubes]
  omega

/-- **Unless no round is allowed, a run answers with an irredundant cover of primes.** -/
theorem isAnswer_ofPartition (hp : p.IsValid) {cap : Option Nat} (hcap : cap ≠ some 0) :
    p.IsAnswer (Run.ofPartition cap p).cover := by
  rw [Run.ofPartition]
  split
  · next hon =>
    rw [List.isEmpty_iff] at hon
    refine ⟨fun x hx ↦ ?_, fun c hc ↦ absurd hc List.not_mem_nil,
      fun c hc ↦ absurd hc List.not_mem_nil⟩
    rw [hon] at hx
    cases hx
  · next hon =>
    have hle := cost_expand_ofPoints (p := p) fun h ↦ hon (List.isEmpty_iff.2 h)
    refine isAnswer_foldl_trail hp (trail_rounds _ _ cap _) (isWorking_ofPoints hp)
      (fun h ↦ absurd h hcap) (fun hsame ↦ ?_) fun hdear ↦ ?_
    · rw [better_eq_cover (by decide) hle]
      exact isAnswer_expand_ofPoints hp hsame
    · rw [hle] at hdear
      cases hdear

end Espresso

end TwoLevel
