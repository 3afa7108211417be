import TwoLevel.Proofs.Session.Demand
import Mathlib.Data.List.Induction

/-!
# What observers hear

An operation tells all observers the same events, each of them to everybody before the next one, so
that what an observer hears is what is told while it is registered.  Two questions are answered here
for every run.

**Who hears?**  An observer is in the list from its registration to its removal.  The numbers given
out grow (`Session.IsOrdered`), which is why the list is in the order of registration, holds nobody
twice, and never again holds a number that was taken out of it.

**What do they know?**  An observer that takes the formula to be the last one it heard of is right,
but for the mark: an engine sets that one and a change of engine takes it away, and neither is told
as a change of the formula.  `Informs` says so of one operation, and it composes.  Whoever
registered while there was no formula has missed nothing, and knows the formula from then on.

Only `register` and `unregister` change who listens, and they tell nothing; of all others
`Session.Tells` says what is told and what it is worth.
-/

set_option autoImplicit false

namespace TwoLevel

/-- The formula with its mark set: what there is to a formula apart from the mark. -/
def AnyFormula.mark (f : AnyFormula) : AnyFormula := ⟨f.1, f.2.mark⟩

/-! ## What events tell of the formula -/

/-- The formula that is told to be the one worked on. -/
def Event.formula? : Event → Option AnyFormula
  | .changed f => some f
  | .minimized .. => none
  | .failed .. => none

/-- The formula that was last told to be the one worked on. -/
def lastFormula? (es : List Event) : Option AnyFormula := (es.filterMap Event.formula?).getLast?

theorem lastFormula?_append (es fs : List Event) :
    lastFormula? (es ++ fs) = (lastFormula? fs).or (lastFormula? es) := by
  rw [lastFormula?, List.filterMap_append, List.getLast?_append]
  rfl

/-- Whoever knew the formula before, and hears the events, knows the formula afterwards. -/
def Informs (es : List Event) (before after : Option AnyFormula) : Prop :=
  ∀ f, after = some f → ∃ g, (lastFormula? es).or before = some g ∧ g.mark = f.mark

namespace Informs

variable {es fs : List Event} {a b c : Option AnyFormula}

/-- Nothing has to be told where nothing changes. -/
theorem refl (h : lastFormula? es = none) (a : Option AnyFormula) : Informs es a a := by
  intro f hf
  rw [h, Option.none_or]
  exact ⟨f, hf, rfl⟩

theorem changed (f : AnyFormula) (a : Option AnyFormula) : Informs [.changed f] a (some f) :=
  fun _ hg ↦ ⟨f, rfl, congrArg _ (Option.some.inj hg)⟩

/-- **Who is informed at every step is informed at the end.** -/
theorem append (h : Informs es a b) (h' : Informs fs b c) : Informs (es ++ fs) a c := by
  intro f hf
  obtain ⟨g, hg, hmark⟩ := h' f hf
  rw [lastFormula?_append, Option.or_assoc]
  cases hlast : lastFormula? fs with
  | some k =>
    rw [hlast, Option.some_or] at hg
    exact ⟨g, hg, hmark⟩
  | none =>
    rw [hlast, Option.none_or] at hg
    obtain ⟨k, hk, hmark'⟩ := h g hg
    exact ⟨k, hk, hmark'.trans hmark⟩

end Informs

/-! ## What one observer hears -/

/-- The events that are delivered to an observer. -/
def heardBy (o : Nat) (ds : List Delivery) : List Event :=
  (ds.filter (·.observer = o)).map (·.event)

theorem heardBy_append (o : Nat) (ds ds' : List Delivery) :
    heardBy o (ds ++ ds') = heardBy o ds ++ heardBy o ds' := by
  rw [heardBy, List.filter_append, List.map_append]
  rfl

namespace Session

variable {s : Session} {o : Nat}

theorem heardBy_tell (h : s.observers.Nodup) (o : Nat) (e : Event) :
    heardBy o (s.tell e) = if o ∈ s.observers then [e] else [] := by
  rw [heardBy, tell, List.filter_map, List.map_map]
  show (s.observers.filter (· = o)).map (fun _ ↦ e) = _
  rw [List.filter_eq, List.map_replicate, h.count]
  split <;> rfl

/-- **Each observer hears every event once, and nobody else hears any.** -/
theorem heardBy_flatMap_tell (h : s.observers.Nodup) (o : Nat) (es : List Event) :
    heardBy o (es.flatMap s.tell) = if o ∈ s.observers then es else [] := by
  induction es with
  | nil =>
    rw [ite_self]
    rfl
  | cons e es ih =>
    rw [List.flatMap_cons, heardBy_append, heardBy_tell h, ih]
    split <;> rfl

/-! ## What an operation tells -/

/-- The events are what an operation tells that leaves the observers as they are. -/
structure Tells {α : Type} (s : Session) (r : Reply α) (es : List Event) : Prop where
  /-- Each event goes to all observers before the next one goes to any. -/
  deliveries_eq : r.deliveries = es.flatMap s.tell
  /-- Together they are enough to know the formula. -/
  informs : Informs es s.formula? r.session.formula?
  /-- The observers stay. -/
  observers_eq : r.session.observers = s.observers
  /-- No number is given out. -/
  nextObserver_eq : r.session.nextObserver = s.nextObserver

theorem Tells.forget {α : Type} {r : Reply α} {es : List Event} (h : s.Tells r es) :
    s.Tells r.forget es :=
  ⟨h.deliveries_eq, h.informs, h.observers_eq, h.nextObserver_eq⟩

/-- Where nothing changes there may be nothing to tell. -/
theorem tells_nothing {α : Type} (s : Session) (a : α) : s.Tells ⟨a, s, []⟩ [] :=
  ⟨rfl, .refl rfl _, rfl, rfl⟩

/-- Or there is something else to tell than a formula. -/
theorem tells_event {α : Type} (s : Session) (a : α) {e : Event} (h : e.formula? = none) :
    s.Tells ⟨a, s, s.tell e⟩ [e] := by
  refine ⟨(List.flatMap_singleton s.tell e).symm, .refl ?_ _, rfl, rfl⟩
  rw [lastFormula?, List.filterMap_cons_none h]
  rfl

/-- Where the formula changes it is enough to tell that. -/
theorem tells_changed {α : Type} (s : Session) (a : α) (w : Subject) :
    s.Tells ⟨a, { s with subject := some w }, s.tell (.changed ⟨w.size, w.formula⟩)⟩
      [.changed ⟨w.size, w.formula⟩] :=
  ⟨(List.flatMap_singleton s.tell _).symm, .changed _ _, rfl, rfl⟩

theorem nextObserver_run (s : Session) (w : Subject) (debug : Bool) :
    (s.run w debug).nextObserver = s.nextObserver := by
  rw [run]
  split <;> rfl

/-- A run marks the formula, and that is nothing to tell. -/
theorem tells_run {α : Type} {w : Subject} (hs : s.subject = some w) (debug : Bool) (a : α)
    {e : Event} (h : e.formula? = none) :
    s.Tells ⟨a, s.run w debug, (s.run w debug).tell e⟩ [e] := by
  have htell : (s.run w debug).tell e = s.tell e := by rw [tell, tell, observers_run]
  have hevent := s.tells_event a h
  refine ⟨htell.trans hevent.deliveries_eq, fun f hf ↦ ?_, observers_run s w debug,
    nextObserver_run s w debug⟩
  rw [formula?, subject_run] at hf
  obtain rfl := Option.some.inj hf
  obtain ⟨g, hg, hmark⟩ := hevent.informs _ (formula?_of_some hs)
  exact ⟨g, hg, hmark⟩

theorem tells_minimize (s : Session) (debug : Bool) : ∃ es, s.Tells (s.minimize debug) es := by
  cases hs : s.subject with
  | none =>
    rw [minimize, hs]
    exact ⟨_, s.tells_event none rfl⟩
  | some w =>
    rw [minimize, hs]
    simp only
    split
    · exact ⟨_, tells_run hs debug _ rfl⟩
    · exact ⟨_, s.tells_event _ rfl⟩

theorem tells_setValue (s : Session) (index : Nat) (output : Output) :
    ∃ es, s.Tells (s.setValue index output) es := by
  rcases s.setValue_cases index output with ⟨_, h⟩ | ⟨_, e, _, _, h⟩ | ⟨w, formula, _, _, h⟩
  · exact h ▸ ⟨[], s.tells_nothing _⟩
  · exact h ▸ ⟨_, s.tells_event _ rfl⟩
  · exact h ▸ ⟨_, s.tells_changed _ { w with formula }⟩

theorem tells_setVars (s : Session) (vars : List Char) : ∃ es, s.Tells (s.setVars vars) es := by
  rcases s.setVars_cases vars with ⟨_, h⟩ | ⟨_, e, _, _, h⟩ | ⟨w, formula, _, _, h⟩
  · exact h ▸ ⟨[], s.tells_nothing _⟩
  · exact h ▸ ⟨_, s.tells_event _ rfl⟩
  · exact h ▸ ⟨_, s.tells_changed _ ⟨w.size, formula, _⟩⟩

theorem tells_setForm (s : Session) (form : Form) : ∃ es, s.Tells (s.setForm form) es := by
  rcases s.setForm_cases form with h | ⟨w, formula, _, _, h⟩
  · exact h ▸ ⟨[], rfl, .refl rfl _, rfl, rfl⟩
  · let t : Session := { s with form, subject := some { w with formula } }
    have hchanged : Informs [.changed ⟨w.size, formula⟩] s.formula? t.formula? := .changed _ _
    rcases h with h | h
    · exact h ▸ ⟨_, (List.flatMap_singleton s.tell _).symm, hchanged, rfl, rfl⟩
    · -- the request to minimize comes after the change, and is told after it
      obtain ⟨es, hminimize⟩ := t.tells_minimize t.traced
      rw [h]
      refine ⟨.changed ⟨w.size, formula⟩ :: es, ?_, hchanged.append hminimize.informs,
        hminimize.observers_eq, hminimize.nextObserver_eq⟩
      rw [List.flatMap_cons]
      exact congrArg _ hminimize.deliveries_eq

theorem tells_setAlgorithm (s : Session) (algorithm : Algorithm) :
    ∃ es, s.Tells (s.setAlgorithm algorithm) es := by
  rw [setAlgorithm]
  split
  · exact ⟨[], s.tells_nothing _⟩
  · refine ⟨[], rfl, ?_, rfl, rfl⟩
    rw [formula?, formula?]
    cases s.subject with
    | none => exact .refl rfl _
    | some w =>
      intro f hf
      obtain rfl := Option.some.inj hf
      exact ⟨_, rfl, rfl⟩

/-- **A command that does not change who listens tells enough to know the formula.** -/
theorem tells_perform (s : Session) {c : Command} (hregister : c ≠ .register)
    (hunregister : ∀ o, c ≠ .unregister o) : ∃ es, s.Tells (s.perform c) es := by
  cases c with
  | setFormula f => exact ⟨_, s.tells_changed () ⟨f.1, _, none⟩⟩
  | removeFormula => exact ⟨[], rfl, nofun, rfl, rfl⟩
  | minimize debug => exact (s.tells_minimize debug).imp fun _ h ↦ h.forget
  | setValue index output => exact (s.tells_setValue index output).imp fun _ h ↦ h.forget
  | setVars vars => exact (s.tells_setVars vars).imp fun _ h ↦ h.forget
  | setForm form => exact s.tells_setForm form
  | setAlgorithm algorithm => exact s.tells_setAlgorithm algorithm
  | install => exact ⟨[], rfl, .refl rfl _, rfl, rfl⟩
  | register => exact absurd rfl hregister
  | unregister o => exact absurd rfl (hunregister o)
  | report e => exact ⟨_, s.tells_event () rfl⟩

/-- The two commands that change who listens, and the others. -/
theorem perform_cases (s : Session) (c : Command) :
    c = .register ∨ (∃ o, c = .unregister o) ∨
      c ≠ .register ∧ (∀ o, c ≠ .unregister o) ∧ ∃ es, s.Tells (s.perform c) es := by
  by_cases hregister : c = .register
  · exact Or.inl hregister
  · by_cases hunregister : ∃ o, c = .unregister o
    · exact Or.inr (Or.inl hunregister)
    · have hne : ∀ o, c ≠ .unregister o := not_exists.1 hunregister
      exact Or.inr (Or.inr ⟨hregister, hne, s.tells_perform hregister hne⟩)

/-- **Every command tells its events to those who listen when it is given**, and they are enough to
know the formula. -/
theorem exists_deliveries_perform (s : Session) (c : Command) :
    ∃ es, (s.perform c).deliveries = es.flatMap s.tell ∧
      Informs es s.formula? (s.perform c).session.formula? := by
  rcases s.perform_cases c with rfl | ⟨o, rfl⟩ | ⟨_, _, es, htells⟩
  · exact ⟨[], rfl, .refl rfl _⟩
  · exact ⟨[], rfl, .refl rfl _⟩
  · exact ⟨es, htells.deliveries_eq, htells.informs⟩

/-! ## Who listens -/

/-- The observers are in the order of their numbers, and the next number is above them all. -/
structure IsOrdered (s : Session) : Prop where
  /-- They are one after the other, and nobody is there twice. -/
  increasing : s.observers.Pairwise (· < ·)
  /-- All are below the number that is given out next. -/
  lt_nextObserver : ∀ o ∈ s.observers, o < s.nextObserver

theorem IsOrdered.nodup (h : s.IsOrdered) : s.observers.Nodup := h.increasing.imp Nat.ne_of_lt

theorem isOrdered_register (h : s.IsOrdered) : s.register.session.IsOrdered := by
  constructor
  · refine List.pairwise_append.2 ⟨h.increasing, List.pairwise_singleton _ _, fun o ho p hp ↦ ?_⟩
    rw [List.mem_singleton.1 hp]
    exact h.lt_nextObserver o ho
  · intro o ho
    rcases List.mem_append.1 ho with ho | ho
    · exact Nat.lt_succ_of_lt (h.lt_nextObserver o ho)
    · exact List.mem_singleton.1 ho ▸ Nat.lt_succ_self s.nextObserver

theorem IsOrdered.perform (h : s.IsOrdered) (c : Command) : (s.perform c).session.IsOrdered := by
  rcases s.perform_cases c with rfl | ⟨o, rfl⟩ | ⟨_, _, es, htells⟩
  · exact isOrdered_register h
  · exact ⟨h.increasing.filter _, fun p hp ↦ h.lt_nextObserver p (List.mem_of_mem_filter hp)⟩
  · constructor
    · rw [htells.observers_eq]
      exact h.increasing
    · rw [htells.observers_eq, htells.nextObserver_eq]
      exact h.lt_nextObserver

/-- **The observers are in order after every run.** -/
theorem isOrdered_after (cs : List Command) : (new.after cs).IsOrdered :=
  after_invariant (fun _ c h ↦ h.perform c) ⟨List.Pairwise.nil, nofun⟩ cs

/-- **Who listens after a command** did so before and is not removed by it, or is registered by
it. -/
theorem mem_observers_perform {c : Command} :
    o ∈ (s.perform c).session.observers ↔
      o ∈ s.observers ∧ c ≠ .unregister o ∨ c = .register ∧ s.register.value = o := by
  rcases s.perform_cases c with rfl | ⟨p, rfl⟩ | ⟨hregister, hunregister, es, htells⟩
  · show o ∈ s.observers ++ [s.nextObserver] ↔ _
    rw [List.mem_append, List.mem_singleton, eq_comm]
    simp [register]
  · show o ∈ s.observers.filter (· != p) ↔ _
    rw [List.mem_filter, bne_iff_ne]
    simp [eq_comm]
  · rw [htells.observers_eq]
    simp [hregister, hunregister]

theorem nextObserver_perform (s : Session) (c : Command) :
    (s.perform c).session.nextObserver = s.nextObserver + if c.isRegister then 1 else 0 := by
  rcases s.perform_cases c with rfl | ⟨o, rfl⟩ | ⟨hregister, _, es, htells⟩
  · rfl
  · rfl
  · have hc : c.isRegister = false := by
      cases c with
      | register => exact absurd rfl hregister
      | _ => rfl
    rw [htells.nextObserver_eq, hc]
    rfl

/-- **Numbers are given out one after the other.** -/
theorem nextObserver_after (s : Session) (cs : List Command) :
    (s.after cs).nextObserver = s.nextObserver + cs.countP Command.isRegister := by
  induction cs generalizing s with
  | nil => rfl
  | cons c cs ih =>
    rw [after_cons, ih, nextObserver_perform, List.countP_cons]
    omega

/-- **A number that was given out and is not in the list never gets into it.** -/
theorem not_mem_observers_after (hlt : o < s.nextObserver) (ho : o ∉ s.observers)
    (cs : List Command) : o ∉ (s.after cs).observers := by
  refine (after_invariant (q := fun t ↦ o < t.nextObserver ∧ o ∉ t.observers)
    (fun t c ⟨hlt, ho⟩ ↦ ⟨?_, fun hmem ↦ ?_⟩) ⟨hlt, ho⟩ cs).2
  · rw [nextObserver_perform]
    exact Nat.lt_add_right _ hlt
  · rcases mem_observers_perform.1 hmem with ⟨hmem, _⟩ | ⟨_, hvalue⟩
    · exact ho hmem
    · exact absurd hvalue (Nat.ne_of_gt hlt)

/-- **Who listens after a run** was registered and has not been removed since. -/
theorem mem_observers_after {cs : List Command} :
    o ∈ (new.after cs).observers ↔
      ∃ as bs, cs = as ++ .register :: bs ∧ (new.after as).register.value = o ∧
        .unregister o ∉ bs := by
  induction cs using List.reverseRecOn with
  | nil => simp [after, new]
  | append_singleton cs c ih =>
    rw [after_concat, mem_observers_perform, ih]
    constructor
    · rintro (⟨⟨as, bs, rfl, hvalue, hbs⟩, hc⟩ | ⟨rfl, hvalue⟩)
      · refine ⟨as, bs ++ [c], by rw [List.append_assoc, List.cons_append], hvalue, ?_⟩
        rw [List.mem_append, List.mem_singleton, not_or]
        exact ⟨hbs, hc.symm⟩
      · exact ⟨cs, [], rfl, hvalue, List.not_mem_nil⟩
    · rintro ⟨as, bs, hcs, hvalue, hbs⟩
      -- the registration is the last command, or that comes after it
      rcases bs.eq_nil_or_concat' with rfl | ⟨bs, d, rfl⟩
      · obtain ⟨rfl, hc⟩ := List.append_inj' hcs rfl
        exact Or.inr ⟨List.head_eq_of_cons_eq hc, hvalue⟩
      · rw [← List.cons_append, ← List.append_assoc] at hcs
        obtain ⟨rfl, hc⟩ := List.append_inj' hcs rfl
        obtain rfl := List.head_eq_of_cons_eq hc
        rw [List.mem_append, List.mem_singleton, not_or] at hbs
        exact Or.inl ⟨⟨as, bs, rfl, hvalue, hbs.1⟩, Ne.symm hbs.2⟩

/-! ## What an observer knows -/

/-- What is delivered in the course of some commands. -/
def deliveriesDuring (s : Session) : List Command → List Delivery
  | [] => []
  | c :: cs => (s.perform c).deliveries ++ (s.perform c).session.deliveriesDuring cs

/-- **An observer that listens all the time is informed all the time.** -/
theorem informs_deliveriesDuring (hs : s.IsOrdered) (ho : o ∈ s.observers) {cs : List Command}
    (hcs : .unregister o ∉ cs) :
    Informs (heardBy o (s.deliveriesDuring cs)) s.formula? (s.after cs).formula? := by
  induction cs generalizing s with
  | nil => exact .refl rfl _
  | cons c cs ih =>
    rw [List.mem_cons, not_or] at hcs
    obtain ⟨es, hdeliveries, hinforms⟩ := s.exists_deliveries_perform c
    have hmem : o ∈ (s.perform c).session.observers :=
      mem_observers_perform.2 (Or.inl ⟨ho, Ne.symm hcs.1⟩)
    rw [deliveriesDuring, heardBy_append, hdeliveries, heardBy_flatMap_tell hs.nodup, if_pos ho,
      after_cons]
    exact hinforms.append (ih (hs.perform c) hmem hcs.2)

/-- The observers miss nothing in a run. -/
structure MissNothing (cs : List Command) : Prop where
  /-- Whatever is asked next, each of its events is delivered to all who are registered, in their
  order, before the next event is; each of them hears every event once, and nobody else any. -/
  delivers : ∀ c, ∃ es,
    ((new.after cs).perform c).deliveries =
      (es.flatMap fun e ↦ (new.after cs).observers.map fun o ↦ ⟨o, e⟩) ∧
    ∀ o, heardBy o ((new.after cs).perform c).deliveries =
      if o ∈ (new.after cs).observers then es else []
  /-- The order of observers is that of their numbers. -/
  ordered : (new.after cs).observers.Pairwise (· < ·)
  /-- An observer is registered if it got its number from a registration and has not been removed
  since. -/
  mem_iff : ∀ o, o ∈ (new.after cs).observers ↔
    ∃ as bs, cs = as ++ .register :: bs ∧ (new.after as).register.value = o ∧ .unregister o ∉ bs
  /-- The number of an observer is that of the registrations before it. -/
  numbered : (new.after cs).register.value = cs.countP Command.isRegister
  /-- So the next registration gets a greater number than every one before. -/
  fresh : ∀ as bs, cs = as ++ .register :: bs →
    (new.after as).register.value < (new.after cs).register.value
  /-- A number that had been given out when it was removed is not among the observers. -/
  removed : ∀ as o bs, cs = as ++ .unregister o :: bs → o < (new.after as).register.value →
    o ∉ (new.after cs).observers
  /-- Whoever was registered at a time when there was no formula, and was not removed since, has
  heard of the formula there is now, and of no other after it: the last one it was told of is the
  same but for the mark. -/
  current : ∀ as bs o, cs = as ++ bs → (new.after as).formula? = none →
    o ∈ (new.after as).observers → .unregister o ∉ bs → ∀ f, (new.after cs).formula? = some f →
      ∃ g, lastFormula? (heardBy o ((new.after as).deliveriesDuring bs)) = some g ∧
        g.mark = f.mark

/-- **Observers miss no change of the formula**, whatever is done. -/
theorem missNothing_after (cs : List Command) : MissNothing cs := by
  have hordered := isOrdered_after cs
  have hnumbered : ∀ ds, (new.after ds).register.value = ds.countP Command.isRegister :=
    fun ds ↦ (new.nextObserver_after ds).trans (Nat.zero_add _)
  constructor
  · intro c
    obtain ⟨es, hdeliveries, _⟩ := (new.after cs).exists_deliveries_perform c
    refine ⟨es, hdeliveries, fun o ↦ ?_⟩
    rw [hdeliveries, heardBy_flatMap_tell hordered.nodup]
  · exact hordered.increasing
  · exact fun o ↦ mem_observers_after
  · exact hnumbered cs
  · rintro as bs rfl
    rw [hnumbered, hnumbered, List.countP_append, List.countP_cons_of_pos rfl]
    omega
  · rintro as o bs rfl hlt
    rw [after_append, after_cons]
    refine not_mem_observers_after (s := ((new.after as).perform (.unregister o)).session) hlt
      (fun hmem ↦ ?_) bs
    rcases mem_observers_perform.1 hmem with ⟨_, hne⟩ | ⟨hregister, _⟩
    · exact hne rfl
    · cases hregister
  · rintro as bs o rfl hnone ho hbs f hf
    rw [after_append] at hf
    obtain ⟨g, hg, hmark⟩ := informs_deliveriesDuring (isOrdered_after as) ho hbs f hf
    rw [hnone, Option.or_none] at hg
    exact ⟨g, hg, hmark⟩

end Session

end TwoLevel
