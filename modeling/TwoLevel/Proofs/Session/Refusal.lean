import TwoLevel.Proofs.Session.Observers

/-!
# Refusals

Two things that can be asked of a session may be refused: an output at an index that the formula
does not have, and names that its variables cannot have.  A refusal leaves the session as it was,
and every observer hears of it, and of nothing else, with the error that is answered.

A rename has two steps, the formula and then what it was minimized to, with a check in each; and a
refusal in the second step would leave the first one done and tell nobody.  It does not come to
that.  The check looks at the names and at the number of variables, and a formula has as many as
its result (`Subject.renamedResult_of_setVars`), so that only the first step is ever refused.
-/

set_option autoImplicit false

namespace TwoLevel.Session

variable {s : Session}

/-- The operation was refused: nothing has changed, and each observer has been told, in its turn,
of this error and of nothing else. -/
structure IsRefusal {α : Type} (s : Session) (r : Reply (Except Error α)) (e : Error) : Prop where
  /-- The session is what it was. -/
  session_eq : r.session = s
  /-- The error goes to the observers one after the other. -/
  deliveries_eq : r.deliveries = s.observers.map fun o ↦ ⟨o, .failed e⟩
  /-- Each of them hears it once, and nobody else does. -/
  heard : ∀ o, heardBy o r.deliveries = if o ∈ s.observers then [.failed e] else []

theorem isRefusal_fail {α : Type} (h : s.IsOrdered) (e : Error) :
    s.IsRefusal (s.fail e : Reply (Except Error α)) e :=
  ⟨rfl, rfl, fun o ↦ heardBy_tell h.nodup o _⟩

/-! ## What is refused -/

/-- Where there is a value or a refusal for an answer, an error comes of a refusal. -/
theorem eq_fail {α : Type} {r : Reply (Except Error α)} {e : Error}
    (h : r.value.isOk = true ∨ ∃ e', r = s.fail e') (herror : r.value = .error e) :
    r = s.fail e := by
  rcases h with hok | ⟨e', rfl⟩
  · rw [herror] at hok
    cases hok
  · obtain rfl := Except.error.inj herror
    rfl

/-- **An output is refused where the formula refuses it.** -/
theorem value_setValue_eq_error_iff {index : Nat} {output : Output} {e : Error} :
    (s.setValue index output).value = .error e ↔
      ∃ w, s.subject = some w ∧ w.formula.setAt index output = .error e := by
  rcases s.setValue_cases index output with
    ⟨hset, h⟩ | ⟨w, e', hs, hset, h⟩ | ⟨w, formula, hs, hset, h⟩
  · rw [h]
    refine ⟨nofun, ?_⟩
    rintro ⟨w, hs, herror⟩
    cases (hset w hs).symm.trans herror
  · simp [h, fail, hs, hset]
  · simp [h, hs, hset]

theorem eq_fail_of_setValue {index : Nat} {output : Output} {e : Error}
    (herror : (s.setValue index output).value = .error e) :
    s.setValue index output = s.fail e := by
  refine eq_fail ?_ herror
  rcases s.setValue_cases index output with ⟨_, h⟩ | ⟨_, e', _, _, h⟩ | ⟨_, _, _, _, h⟩
  · exact Or.inl (h ▸ rfl)
  · exact Or.inr ⟨e', h⟩
  · exact Or.inl (h ▸ rfl)

/-- **Names are refused where the formula refuses them**, and never later. -/
theorem value_setVars_eq_error_iff {vars : List Char} {e : Error} :
    (s.setVars vars).value = .error e ↔
      ∃ w, s.subject = some w ∧ w.formula.setVars vars = .error e := by
  rcases s.setVars_cases vars with ⟨hs, h⟩ | ⟨w, e', hs, hset, h⟩ | ⟨w, formula, hs, hset, h⟩
  · simp [h, hs]
  · simp [h, fail, hs, hset]
  · simp [h, hs, hset]

theorem eq_fail_of_setVars {vars : List Char} {e : Error}
    (herror : (s.setVars vars).value = .error e) : s.setVars vars = s.fail e := by
  refine eq_fail ?_ herror
  rcases s.setVars_cases vars with ⟨_, h⟩ | ⟨_, e', _, _, h⟩ | ⟨_, _, _, _, h⟩
  · exact Or.inl (h ▸ rfl)
  · exact Or.inr ⟨e', h⟩
  · exact Or.inl (h ▸ rfl)

/-! ## All or nothing -/

/-- What a session may refuse is done as a whole or not at all. -/
structure IsAllOrNothing (s : Session) : Prop where
  /-- The order in which the observers are told is that of their numbers. -/
  ordered : s.observers.Pairwise (· < ·)
  /-- An output is refused where the formula refuses it, and a refusal is all that happens. -/
  setValue : ∀ index output e,
    ((s.setValue index output).value = .error e ↔
      ∃ w, s.subject = some w ∧ w.formula.setAt index output = .error e) ∧
    ((s.setValue index output).value = .error e → s.IsRefusal (s.setValue index output) e)
  /-- Names are refused where the formula refuses them, and a refusal is all that happens. -/
  setVars : ∀ vars e,
    ((s.setVars vars).value = .error e ↔
      ∃ w, s.subject = some w ∧ w.formula.setVars vars = .error e) ∧
    ((s.setVars vars).value = .error e → s.IsRefusal (s.setVars vars) e)
  /-- Names that the formula accepts are given to it and to its result, and nothing else changes;
  the answer is not an error, and each observer is told of the new formula. -/
  renames : ∀ w, s.subject = some w → ∀ vars formula, w.formula.setVars vars = .ok formula →
    formula = { w.formula with vars } ∧
    s.setVars vars =
      ⟨.ok (),
        { s with
          subject := some { w with formula, result := w.result.map fun r ↦ { r with vars } } },
        s.observers.map fun o ↦ ⟨o, .changed ⟨w.size, formula⟩⟩⟩

/-- **What is refused changes nothing, and what is renamed is renamed as a whole**, in every state
that commands lead to. -/
theorem isAllOrNothing_after (cs : List Command) : (new.after cs).IsAllOrNothing := by
  have hordered := isOrdered_after cs
  constructor
  · exact hordered.increasing
  · refine fun index output e ↦ ⟨value_setValue_eq_error_iff, fun h ↦ ?_⟩
    rw [eq_fail_of_setValue h]
    exact isRefusal_fail hordered e
  · refine fun vars e ↦ ⟨value_setVars_eq_error_iff, fun h ↦ ?_⟩
    rw [eq_fail_of_setVars h]
    exact isRefusal_fail hordered e
  · exact fun w hs vars formula hset ↦ ⟨Formula.eq_of_setVars hset, setVars_of_ok hs hset⟩

end TwoLevel.Session
