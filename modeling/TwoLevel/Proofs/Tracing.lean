import TwoLevel.Proofs.QuineMcCluskey.Table
import TwoLevel.Proofs.Session.Demand
import Mathlib.Data.List.Induction

/-!
# A trace changes no answer

An engine that is asked for a trace answers what it answers without one.  There are two reasons why
that could fail.

* **Another way.**  Without a trace the Quine–McCluskey engine passes over the tables where there is
  at most one point; with one it fills them and chooses from them.  The tables of a lone point leave
  no choice (`QuineMcCluskey.minimized_minimize`).
* **Writing things down.**  An engine that is to leave a trace writes it down in the course of its
  work: the levels as they are found, and the covers as the phases leave them.  That is how both
  would be programmed.  The trace so far, if one is kept at all, is carried along with the primes
  so far in the one case (`QuineMcCluskey.recordLevels`) and with the cheapest cover so far in the
  other (`Espresso.recordRounds`).  Here an engine is a function that has done its work before its
  trace is made, and the two come to the same (`QuineMcCluskey.recordedMinimize_eq`,
  `Espresso.recordedMinimize_eq`).

The answer of a run without a trace can be read off the trace of a run with one (`IsTraceBlind`).

What an engine keeps is the trace of its last run, or nothing if that was not traced, whatever was
kept before and whatever the other engine has done since (`Session.keeps_foldl_serve`).
-/

set_option autoImplicit false

namespace TwoLevel

variable {n : Nat}

/-! ## Writing down levels -/

namespace QuineMcCluskey

/-- The trace in which nothing is written yet. -/
def Trace.blank (form : Form) : Trace n := ⟨form, [], [], [], Thunk.pure #[]⟩

/-- What is carried along from level to level. -/
structure Recorder (n : Nat) where
  /-- The primes so far. -/
  primes : List (Cube n)
  /-- The trace so far, if one is kept. -/
  trace : Option (Trace n)

/-- Takes note of a level. -/
def Recorder.record (r : Recorder n) (level : Level n) : Recorder n where
  primes := r.primes ++ level.primes
  trace := r.trace.map fun t ↦ { t with levels := t.levels ++ [level] }

/-- Takes note of the covering table, which has a row for each prime. -/
def Recorder.table (r : Recorder n) (on : List (BitVec n)) : Option (Trace n) :=
  r.trace.map fun t ↦
    { t with primes := r.primes, columns := on, marks := Thunk.mk fun _ ↦ marks r.primes on }

/-- Forms the levels from a given one upwards and takes note of each. -/
def recordLevels (counted : Literal) : Nat → List (Cube n) → Recorder n → Recorder n
  | 0, cubes, r => r.record (Level.ofCubes counted cubes)
  | k + 1, cubes, r =>
    let level := Level.ofCubes counted cubes
    let r := r.record level
    match level.next with
    | [] => r
    | next => recordLevels counted k next r

/-- Minimizes a formula and, if a trace is asked for, writes it down meanwhile. -/
def recordedMinimize (f : Formula n) (debug : Bool) : Outcome n (Trace n) :=
  let on := f.store.expandedTerms
  let dontCare := f.store.expandedDontCares
  if debug && on.isEmpty then ⟨f.mark, f.minimizedTo [], some (Trace.blank f.form)⟩
  else if !debug && isTrivial on dontCare then
    ⟨f.mark, f.minimizedTo (on.map Cube.minterm), none⟩
  else
    let r := recordLevels f.form.countedLiteral n
      ((sortPoints (on ++ dontCare)).map Cube.minterm)
      ⟨[], if debug then some (Trace.blank f.form) else none⟩
    ⟨f.mark, f.minimizedTo (Chart.cover r.primes on), r.table on⟩

/-- **Recording is harmless**: the primes are collected with or without a trace, and the trace gets
each of the levels. -/
theorem foldl_record (levels : List (Level n)) (r : Recorder n) :
    levels.foldl Recorder.record r =
      ⟨r.primes ++ primesOf levels,
        r.trace.map fun t ↦ { t with levels := t.levels ++ levels }⟩ := by
  induction levels generalizing r with
  | nil =>
    obtain ⟨primes, trace⟩ := r
    simp [primesOf]
  | cons level levels ih =>
    rw [List.foldl_cons, ih]
    simp [Recorder.record, primesOf, Function.comp_def]

theorem recordLevels_eq (counted : Literal) (k : Nat) (cubes : List (Cube n)) (r : Recorder n) :
    recordLevels counted k cubes r = (levelsFrom counted k cubes).foldl Recorder.record r := by
  induction k generalizing cubes r with
  | zero => rfl
  | succ k ih =>
    rw [recordLevels, levelsFrom]
    rcases (Level.ofCubes counted cubes).next with _ | ⟨c, next⟩
    · rfl
    · simp only [ih]
      rfl

/-- What is carried through all levels of a formula. -/
theorem recordLevels_points (f : Formula n) (trace : Option (Trace n)) :
    recordLevels f.form.countedLiteral n
      ((sortPoints (f.store.expandedTerms ++ f.store.expandedDontCares)).map Cube.minterm)
      ⟨[], trace⟩ =
      ⟨primes f, trace.map fun t ↦ { t with levels := t.levels ++ levels f }⟩ := by
  rw [recordLevels_eq, foldl_record, List.nil_append]
  rfl

/-- **To write down while minimizing is to minimize and then write down**, and a run that is not to
be traced does the same. -/
theorem recordedMinimize_eq (f : Formula n) (debug : Bool) :
    recordedMinimize f debug = minimize f debug := by
  -- without a trace the cases are the same; with one, no point means no table on either side
  simp only [recordedMinimize, minimize, recordLevels_points, cover_ofPoints]
  cases debug with
  | false => rfl
  | true =>
    simp only [Trace.ofPoints, Bool.true_and]
    split
    · next hon =>
      rw [List.isEmpty_iff.1 hon, Chart.cover_nil]
      rfl
    · rfl

end QuineMcCluskey

/-! ## Writing down covers -/

namespace Espresso

/-- Adds a step to a trace. -/
def Trace.push (t : Trace n) (phase : Phase) (g : Formula n) : Trace n :=
  { t with steps := t.steps ++ [⟨phase, { g with phase }⟩] }

/-- What is carried through the rounds beside the working cover. -/
structure Recorder (n : Nat) where
  /-- The cheapest cover so far. -/
  best : Cover n
  /-- The trace so far, if one is kept. -/
  trace : Option (Trace n)

/-- Takes note of what a phase left. -/
def Recorder.record (f : Formula n) (r : Recorder n) (s : Snapshot n) : Recorder n where
  best := better r.best s
  trace := r.trace.map fun t ↦ t.push s.phase (f.derive s.cover)

/-- Works on a cover in rounds, of which so many have been done, and takes note after each phase. -/
def recordRounds (f : Formula n) (d off : Cover n) (cap : Option Nat) (done : Nat)
    (w : List (Marked n)) (r : Recorder n) : Recorder n :=
  if cap = some done then r
  else
    let expanded := expand w off
    let r := r.record f ⟨.expanded, cubes expanded⟩
    if cost expanded = cost w then r
    else
      let kept := irredundant expanded d
      let r := r.record f ⟨.irredundant, cubes kept⟩
      if _hi : cost kept = cost expanded then r
      else
        let reduced := reduce kept d
        let r := r.record f ⟨.reduced, cubes reduced⟩
        if _hr : cost reduced = cost kept then r
        else recordRounds f d off cap (done + 1) reduced r
termination_by w.length
decreasing_by exact length_fullRound_lt _hi _hr

/-- What is carried through a run over a formula, which has nothing to work on without explicit
points. -/
def recordRun (cap : Option Nat) (f : Formula n) (trace : Option (Trace n)) : Recorder n :=
  let p := f.partition
  if p.on.isEmpty then ⟨[], trace⟩
  else
    let initial := ofPoints p.on
    recordRounds f (p.dontCare.map Cube.minterm) (p.off.map Cube.minterm) cap 0 initial
      ⟨cubes initial, trace⟩

/-- Minimizes a formula and, if a trace is asked for, writes it down meanwhile. -/
def recordedMinimize (cap : Option Nat) (f : Formula n) (debug : Bool) : Outcome n (Trace n) :=
  let r := recordRun cap f (if debug then some ⟨f, []⟩ else none)
  let minimized := f.minimizedTo r.best
  ⟨f.mark, minimized, r.trace.map fun t ↦ t.push .minimized minimized⟩

/-- The steps that some snapshots are recorded as. -/
def stepsOf (f : Formula n) (ss : List (Snapshot n)) : List (Step n) :=
  ss.map fun s ↦ ⟨s.phase, { f.derive s.cover with phase := s.phase }⟩

/-- **Recording is harmless**: the best cover is found among the snapshots with or without a trace,
and the trace gets a step for each of them. -/
theorem foldl_record (f : Formula n) (ss : List (Snapshot n)) (r : Recorder n) :
    ss.foldl (Recorder.record f) r =
      ⟨best r.best ss, r.trace.map fun t ↦ ⟨t.given, t.steps ++ stepsOf f ss⟩⟩ := by
  induction ss generalizing r with
  | nil => simp [best, stepsOf]
  | cons s ss ih =>
    rw [List.foldl_cons, ih]
    simp [Recorder.record, best, stepsOf, Trace.push, Function.comp_def]

/-- The rounds that are left are those to be counted down. -/
theorem map_sub_eq_some_zero {cap : Option Nat} {done : Nat} (h : ∀ k, cap = some k → done ≤ k) :
    cap.map (· - done) = some 0 ↔ cap = some done := by
  rw [Option.map_eq_some_iff]
  constructor
  · rintro ⟨k, rfl, hk⟩
    have hle := h k rfl
    exact congrArg some (by omega)
  · rintro rfl
    exact ⟨done, rfl, Nat.sub_self done⟩

/-- **The loop takes note of the snapshots of the rounds**, one after another.  It counts the rounds
up to the cap where `rounds` counts them down. -/
theorem recordRounds_eq (f : Formula n) (d off : Cover n) {cap : Option Nat} {done : Nat}
    (h : ∀ k, cap = some k → done ≤ k) (w : List (Marked n)) (r : Recorder n) :
    recordRounds f d off cap done w r =
      (rounds d off (cap.map (· - done)) w).foldl (Recorder.record f) r := by
  -- a case for each of the four ways in which a round can be the last, and one for going on
  fun_induction recordRounds f d off cap done w r with
  | case1 done w r hcap =>
    rw [rounds, if_pos ((map_sub_eq_some_zero h).2 hcap)]
    rfl
  | case2 done w r hcap expanded r₁ he =>
    rw [rounds, if_neg (mt (map_sub_eq_some_zero h).1 hcap)]
    simp only
    rw [if_pos he]
    rfl
  | case3 done w r hcap expanded r₁ he kept r₂ hk =>
    rw [rounds, if_neg (mt (map_sub_eq_some_zero h).1 hcap)]
    simp only
    rw [if_neg he, dif_pos hk]
    rfl
  | case4 done w r hcap expanded r₁ he kept r₂ hk reduced r₃ hr =>
    rw [rounds, if_neg (mt (map_sub_eq_some_zero h).1 hcap)]
    simp only
    rw [if_neg he, dif_neg hk, dif_pos hr]
    rfl
  | case5 done w r hcap expanded r₁ he kept r₂ hk reduced r₃ hr ih =>
    have hnext : ∀ k, cap = some k → done + 1 ≤ k := fun k hk ↦
      Nat.lt_of_le_of_ne (h k hk) fun heq ↦ hcap (heq ▸ hk)
    have hleft : (cap.map (· - done)).map (· - 1) = cap.map (· - (done + 1)) := by
      rw [Option.map_map]
      rfl
    rw [rounds, if_neg (mt (map_sub_eq_some_zero h).1 hcap), ih hnext, ← hleft]
    simp only
    rw [if_neg he, dif_neg hk, dif_neg hr]
    rfl

/-- What a run carries is the answer and, if one is kept, the trace but for its last step. -/
theorem recordRun_eq (cap : Option Nat) (f : Formula n) (trace : Option (Trace n)) :
    recordRun cap f trace =
      ⟨(Run.ofPartition cap f.partition).cover, trace.map fun t ↦
        ⟨t.given, t.steps ++ stepsOf f (Run.ofPartition cap f.partition).snapshots⟩⟩ := by
  rw [recordRun, Run.ofPartition]
  simp only
  split
  · simp [stepsOf]
  · rw [recordRounds_eq f _ _ (fun k _ ↦ Nat.zero_le k), foldl_record]
    simp

/-- **To write down while minimizing is to minimize and then write down**, and a run that is not to
be traced does the same. -/
theorem recordedMinimize_eq (cap : Option Nat) (f : Formula n) (debug : Bool) :
    recordedMinimize cap f debug = minimize cap f debug := by
  rw [recordedMinimize, recordRun_eq]
  cases debug with
  | false => rfl
  | true => rfl

end Espresso

/-! ## Answers with a trace and without -/

/-- The runs of an engine over a formula do not depend on whether they are traced, but for the trace
itself, and from that what the engine answers without it can be read off. -/
structure IsTraceBlind {T : Type} (f : Formula n) (run : Bool → Outcome n T)
    (answer : T → Option (Formula n)) : Prop where
  /-- The answer is the same, so it has the same cubes in the same order. -/
  minimized_eq : (run true).minimized = (run false).minimized
  /-- The formula is marked and otherwise left as it is. -/
  given_eq : ∀ debug, (run debug).given = f.mark
  /-- There is a trace if one was asked for. -/
  isSome_trace : ∀ debug, (run debug).trace.isSome = debug
  /-- The trace shows the answer that is given without one. -/
  answer_eq : ∀ t, (run true).trace = some t → answer t = some (run false).minimized

/-- **The table method answers the same with tables to show and without**, and it is what is chosen
from the tables. -/
theorem QuineMcCluskey.isTraceBlind (f : Formula n) :
    IsTraceBlind f (minimize f) fun t ↦ some (f.minimizedTo t.cover) where
  minimized_eq := (minimized_minimize f true).trans (minimized_minimize f false).symm
  given_eq := given_minimize f
  isSome_trace := isSome_trace_minimize f
  answer_eq t ht := by
    obtain rfl : Trace.ofPoints f.form f.store.expandedTerms f.store.expandedDontCares = t :=
      Option.some.inj ht
    rw [minimized_minimize]

/-- Where there is at most one point, the long way leads to it as well. -/
theorem QuineMcCluskey.minimized_minimize_of_isTrivial {f : Formula n}
    (h : isTrivial f.store.expandedTerms f.store.expandedDontCares = true) (debug : Bool) :
    (minimize f debug).minimized = f.minimizedTo (f.store.expandedTerms.map Cube.minterm) := by
  rw [minimized_minimize, (taken_iff_of_isTrivial h).1 taken_cover_ofPoints]

/-- **The rounds lead to the same answer with a trace and without**, and it is the last step. -/
theorem Espresso.isTraceBlind (cap : Option Nat) (f : Formula n) :
    IsTraceBlind f (minimize cap f) fun t ↦ t.steps.getLast?.map Step.formula where
  minimized_eq := rfl
  given_eq _ := rfl
  isSome_trace := isSome_trace_minimize cap f
  answer_eq t ht := by
    obtain rfl : Trace.ofRun f (Run.ofPartition cap f.partition) = t := Option.some.inj ht
    rw [Trace.ofRun, List.getLast?_concat]
    rfl

/-! ## What an engine keeps -/

/-- A run that is asked of one of the engines. -/
structure Request where
  /-- The engine. -/
  algorithm : Algorithm
  /-- The most rounds it may take, if it is the Espresso engine and there is a limit. -/
  cap : Option Nat
  /-- The formula to run over. -/
  subject : Subject
  /-- Whether the run is to be traced. -/
  debug : Bool

namespace Session

/-- Runs the engine. -/
def serve (s : Session) (q : Request) : Session :=
  { s with algorithm := q.algorithm, cap := q.cap }.run q.subject q.debug

/-- Whether an engine keeps a trace. -/
def keeps (s : Session) : Algorithm → Bool
  | .quineMcCluskey => s.quineMcCluskeyTrace.isSome
  | .espresso => s.espressoTrace.isSome

theorem traced_eq_keeps (s : Session) : s.traced = s.keeps s.algorithm := by
  rw [traced]
  cases s.algorithm with
  | quineMcCluskey => rfl
  | espresso => rfl

/-- The other engine keeps what it keeps. -/
theorem keeps_run_of_ne {s : Session} {a : Algorithm} (h : s.algorithm ≠ a) (w : Subject)
    (debug : Bool) : (s.run w debug).keeps a = s.keeps a := by
  rw [run]
  split
  · next halgorithm =>
    cases a with
    | quineMcCluskey => exact absurd halgorithm h
    | espresso => rfl
  · next halgorithm =>
    cases a with
    | quineMcCluskey => rfl
    | espresso => exact absurd halgorithm h

/-- **One run** decides what its engine keeps, and only that. -/
theorem keeps_serve (s : Session) (q : Request) (a : Algorithm) :
    (s.serve q).keeps a = if q.algorithm = a then q.debug else s.keeps a := by
  split
  · next h =>
    have htraced : (s.serve q).traced = q.debug := traced_run _ q.subject q.debug
    rw [traced_eq_keeps, serve, algorithm_run] at htraced
    rw [← h]
    exact htraced
  · next h => exact keeps_run_of_ne (s := { s with algorithm := q.algorithm, cap := q.cap }) h _ _

/-- **After any runs** an engine keeps a trace if its last run was traced, and what it kept before
if it was not run. -/
theorem keeps_foldl_serve (s : Session) (qs : List Request) (a : Algorithm) :
    (qs.foldl serve s).keeps a =
      ((qs.filter fun q ↦ decide (q.algorithm = a)).getLast?.map Request.debug).getD
        (s.keeps a) := by
  induction qs using List.reverseRecOn with
  | nil => rfl
  | append_singleton qs q ih =>
    rw [List.foldl_append, List.foldl_cons, List.foldl_nil, keeps_serve, List.filter_append]
    by_cases h : q.algorithm = a
    · simp [h]
    · simp [h, ih]

end Session

/-! ## What can be relied on -/

/-- Runs that are traced and runs that are not differ in nothing but the traces they leave. -/
structure TracingIsHarmless (f : Formula n) : Prop where
  /-- The Quine–McCluskey engine answers the same either way, and what it answers is chosen from the
  tables that its trace shows. -/
  quineMcCluskey : IsTraceBlind f (QuineMcCluskey.minimize f) fun t ↦ some (f.minimizedTo t.cover)
  /-- That is so for a lone point and for no point, too, although the tables are passed over where
  no trace is asked for: there is nothing else in them to choose. -/
  shortcut : QuineMcCluskey.isTrivial f.store.expandedTerms f.store.expandedDontCares = true →
    ∀ debug, (QuineMcCluskey.minimize f debug).minimized =
      f.minimizedTo (f.store.expandedTerms.map Cube.minterm)
  /-- The Espresso engine answers the same either way, whatever its cap, and what it answers is the
  last step that its trace shows. -/
  espresso : ∀ cap, IsTraceBlind f (Espresso.minimize cap f) fun t ↦
    t.steps.getLast?.map Espresso.Step.formula
  /-- To the first engine it makes no difference whether a trace is written down level by level. -/
  recorded_levels : ∀ debug,
    QuineMcCluskey.recordedMinimize f debug = QuineMcCluskey.minimize f debug
  /-- To the second it makes no difference whether a trace is written down round by round. -/
  recorded_rounds : ∀ cap debug,
    Espresso.recordedMinimize cap f debug = Espresso.minimize cap f debug

/-- **Tracing changes no answer**, of either engine, for any formula and any cap; and after any runs
of the two engines, an engine that was new keeps a trace exactly if its own last run was traced. -/
theorem tracingIsHarmless_and_keeps_iff (f : Formula n) :
    TracingIsHarmless f ∧ ∀ (qs : List Request) (a : Algorithm),
      (qs.foldl Session.serve Session.new).keeps a = true ↔
        ∃ q, (qs.filter fun q ↦ decide (q.algorithm = a)).getLast? = some q ∧ q.debug = true := by
  refine ⟨?_, fun qs a ↦ ?_⟩
  · exact
      { quineMcCluskey := QuineMcCluskey.isTraceBlind f
        shortcut := fun h ↦ QuineMcCluskey.minimized_minimize_of_isTrivial h
        espresso := fun cap ↦ Espresso.isTraceBlind cap f
        recorded_levels := fun debug ↦ QuineMcCluskey.recordedMinimize_eq f debug
        recorded_rounds := fun cap debug ↦ Espresso.recordedMinimize_eq cap f debug }
  · have hnew : Session.new.keeps a = false := by cases a <;> rfl
    rw [Session.keeps_foldl_serve, hnew]
    cases (qs.filter fun q ↦ decide (q.algorithm = a)).getLast? <;> simp

-- A run of one engine neither makes nor drops the trace of the other.
example :
    let w : Subject :=
      ⟨1, .ofStore (.empty .sumOfProducts) Formula.defaultName (Names.default 1), none⟩
    let qs : List Request :=
      [⟨.espresso, none, w, true⟩, ⟨.quineMcCluskey, none, w, true⟩, ⟨.espresso, some 2, w, false⟩]
    (qs.foldl Session.serve Session.new).keeps .quineMcCluskey = true ∧
      (qs.foldl Session.serve Session.new).keeps .espresso = false := by
  decide

end TwoLevel
