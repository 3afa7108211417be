import TwoLevel.QuineMcCluskey
import TwoLevel.Proofs.Implicant.Level
import TwoLevel.Proofs.Implicant.Chart
import TwoLevel.Proofs.Formula.Cover

/-!
# The Quine–McCluskey engine is correct

There are three ways through the engine: the short one for at most one point, the one without tables
for a traced formula without explicit points, and the long one.  They come to the same thing: a
choice from the chart of all prime implicants of the formula (`exists_taken`).  With what is known
of the table (`mem_primes_iff`) and of the chart that gives a cover.

Which way is gone depends on whether the run is traced, and the answer does not
(`minimized_minimize`): from the chart of a lone point nothing but the point can be chosen.  What a
trace has beyond the answer are the tables, and the rows of the one are the prime implicants
(`exists_trace_mem_primes_iff`).

No formula is left out here, for only the stored cubes are read.
-/

set_option autoImplicit false

namespace TwoLevel

variable {n : Nat}

theorem Form.countedLiteral_ne_missing (form : Form) : form.countedLiteral ≠ .missing := by
  cases form <;> decide

namespace QuineMcCluskey

open Chart

/-! ## Prime implicants -/

/-- The prime implicants of a formula, in the order of the table. -/
def primes (f : Formula n) : List (Cube n) :=
  primesOf (implicantLevels f.form.countedLiteral
    (f.store.expandedTerms ++ f.store.expandedDontCares))

variable {f : Formula n}

/-- The table starts from all points that are not implicit. -/
theorem mem_expanded_iff {x : BitVec n} :
    x ∈ f.store.expandedTerms ++ f.store.expandedDontCares ↔
      f.store.value x ≠ f.form.implicit := by
  rw [List.mem_append, Store.mem_expandedTerms, Store.mem_expandedDontCares]
  refine ⟨?_, fun h ↦ ?_⟩
  · rintro (h | h)
    · exact Formula.ne_implicit_of_explicit h
    · rw [h]
      exact f.form.implicit_ne_dontCare.symm
  · by_cases hdc : f.store.value x = .dontCare
    · exact Or.inr hdc
    · exact Or.inl (Formula.value_eq_explicit_of_ne hdc h)

theorem mem_primes_iff {c : Cube n} : c ∈ primes f ↔ f.IsPrime c := by
  rw [primes, mem_primesOf_implicantLevels_iff f.form.countedLiteral_ne_missing]
  constructor
  · exact Cube.IsPrime.congr fun _ ↦ mem_expanded_iff
  · exact Cube.IsPrime.congr fun _ ↦ mem_expanded_iff.symm

theorem nodup_primes : (primes f).Nodup :=
  nodup_primesOf_implicantLevels f.form.countedLiteral_ne_missing

/-- An explicit point is covered by some prime implicant. -/
theorem exists_mem_primes {x : BitVec n} (hx : x ∈ f.store.expandedTerms) :
    ∃ d ∈ primes f, d.covers x = true := by
  rw [Store.mem_expandedTerms] at hx
  obtain ⟨d, hd, hdx⟩ := Cube.exists_isPrime_covers (p := fun x ↦ f.store.value x ≠ f.form.implicit)
    (Formula.ne_implicit_of_explicit hx)
  exact ⟨d, mem_primes_iff.2 hd, hdx⟩

/-! ## Every way is a choice from the chart -/

/-- The chart of a lone point has one row. -/
theorem isOnlyRow_minterm {x : BitVec n} (hon : f.store.expandedTerms = [x])
    (hdc : f.store.expandedDontCares = []) : IsOnlyRow (primes f) x (Cube.minterm x) := by
  have hvalue : ∀ y, f.store.value y ≠ f.form.implicit ↔ y = x := by
    intro y
    rw [← mem_expanded_iff, hon, hdc, List.append_nil, List.mem_singleton]
  have heq : ∀ d ∈ primes f, d = Cube.minterm x :=
    fun d hd ↦ (mem_primes_iff.1 hd).eq_minterm hvalue
  have hx : x ∈ f.store.expandedTerms := by
    rw [hon]
    exact List.mem_cons_self
  obtain ⟨d, hd, hdx⟩ := exists_mem_primes hx
  obtain rfl := heq d hd
  exact ⟨hd, hdx, fun e he _ ↦ heq e he⟩

/-- **Where there is at most one point, that point is all that can be chosen.** -/
theorem taken_iff_of_isTrivial
    (h : isTrivial f.store.expandedTerms f.store.expandedDontCares = true) {cs : List (Cube n)} :
    Taken (primes f) f.store.expandedTerms cs ↔ cs = f.store.expandedTerms.map Cube.minterm := by
  rw [isTrivial, Bool.or_eq_true, Bool.and_eq_true, List.isEmpty_iff, beq_iff_eq,
    List.length_eq_one_iff, List.isEmpty_iff] at h
  rcases h with hon | ⟨⟨x, hon⟩, hdc⟩
  · rw [hon]
    exact taken_nil_iff
  · rw [hon]
    exact taken_singleton_iff (isOnlyRow_minterm hon hdc)

/-- The tables are only made where there is a point to cover, but that makes no difference. -/
theorem cover_ofPoints (f : Formula n) :
    (Trace.ofPoints f.form f.store.expandedTerms f.store.expandedDontCares).cover =
      Chart.cover (primes f) f.store.expandedTerms := by
  rw [Trace.ofPoints]
  split
  · next hon => rw [List.isEmpty_iff.1 hon, Trace.cover, cover_nil, cover_nil]
  · rfl

theorem taken_cover_ofPoints :
    Taken (primes f) f.store.expandedTerms
      (Trace.ofPoints f.form f.store.expandedTerms f.store.expandedDontCares).cover := by
  rw [cover_ofPoints]
  exact taken_cover nodup_primes _

/-- **Whichever way is gone, the answer is a choice from the chart of all prime implicants.** -/
theorem exists_taken (f : Formula n) (debug : Bool) :
    ∃ cs trace, minimize f debug = ⟨f.mark, f.minimizedTo cs, trace⟩ ∧
      Taken (primes f) f.store.expandedTerms cs := by
  rw [minimize]
  simp only
  split
  · next h =>
    rw [Bool.and_eq_true] at h
    exact ⟨_, _, rfl, (taken_iff_of_isTrivial h.2).2 rfl⟩
  · exact ⟨_, _, rfl, taken_cover_ofPoints⟩

/-- **The short way leads where the long one does**, so a trace changes nothing about the answer. -/
theorem minimized_minimize (f : Formula n) (debug : Bool) :
    (minimize f debug).minimized = f.minimizedTo
      (Trace.ofPoints f.form f.store.expandedTerms f.store.expandedDontCares).cover := by
  rw [minimize]
  simp only
  split
  · next h =>
    rw [Bool.and_eq_true] at h
    rw [(taken_iff_of_isTrivial h.2).1 taken_cover_ofPoints]
  · rfl

theorem minimized_minimize_eq_cover (f : Formula n) (debug : Bool) :
    (minimize f debug).minimized =
      f.minimizedTo (Chart.cover (primes f) f.store.expandedTerms) := by
  rw [minimized_minimize, cover_ofPoints]

/-! ## The answer -/

/-- What is chosen covers the explicit points, and being prime nothing that is implicit. -/
theorem isCover_of_taken {cs : List (Cube n)} (h : Taken (primes f) f.store.expandedTerms cs) :
    f.IsCover cs where
  covers_explicit x hx := by
    have hmem : x ∈ f.store.expandedTerms := Store.mem_expandedTerms.2 hx
    obtain ⟨d, hd, hdx⟩ := exists_mem_primes hmem
    exact Cover.covers_iff.2 (h.exists_covers hmem hd hdx)
  avoids_implicit x hx := by
    refine Cover.covers_eq_false_iff.2 fun c hc ↦ ?_
    rw [← Bool.not_eq_true]
    exact fun hcx ↦ (mem_primes_iff.1 (h.mem_primes hc)).implicant x hcx hx

/-- **The Quine–McCluskey engine answers with a cover of the formula**, with its names and form and
without don't cares, and leaves the formula as it was but for the mark. -/
theorem answers_minimize (f : Formula n) (debug : Bool) : (minimize f debug).Answers f := by
  obtain ⟨cs, trace, heq, h⟩ := exists_taken f debug
  rw [heq]
  exact Outcome.answers_minimizedTo (isCover_of_taken h) trace

/-! ## Essential prime implicants -/

/-- An essential prime implicant is the only row of some column. -/
theorem isEssential_iff_exists_isOnlyRow {c : Cube n} :
    f.IsEssential c ↔ ∃ x ∈ f.store.expandedTerms, IsOnlyRow (primes f) x c := by
  refine ⟨fun hc ↦ ?_, ?_⟩
  · obtain ⟨x, hx, hcx, honly⟩ := hc.needed
    refine ⟨x, Store.mem_expandedTerms.2 hx, mem_primes_iff.2 hc.isPrime, hcx, fun d hd ↦ ?_⟩
    exact honly d (mem_primes_iff.1 hd)
  · rintro ⟨x, hx, hc⟩
    refine ⟨mem_primes_iff.1 hc.mem, x, Store.mem_expandedTerms.1 hx, hc.covers, fun d hd ↦ ?_⟩
    exact hc.eq_of_covers d (mem_primes_iff.2 hd)

/-- **Where the essential prime implicants suffice they are what is chosen.** -/
theorem mem_minimize_iff (hsuff : f.EssentialsSuffice) (debug : Bool) {c : Cube n} :
    c ∈ (minimize f debug).minimized.terms ↔ f.IsEssential c := by
  obtain ⟨cs, trace, heq, h⟩ := exists_taken f debug
  rw [heq, Formula.terms_minimizedTo, mem_firsts, isEssential_iff_exists_isOnlyRow]
  refine h.mem_iff_of_suffices fun x hx ↦ ?_
  obtain ⟨d, hd, hdx⟩ := hsuff x (Store.mem_expandedTerms.1 hx)
  obtain ⟨y, hy, hdy⟩ := isEssential_iff_exists_isOnlyRow.1 hd
  exact ⟨d, y, hy, hdy, hdx⟩

theorem nodup_minimize (f : Formula n) (debug : Bool) :
    (minimize f debug).minimized.terms.Nodup := by
  obtain ⟨cs, trace, heq, _⟩ := exists_taken f debug
  rw [heq]
  exact nodup_firsts cs

/-! ## The tables of a trace -/

/-- Where there is an explicit point a traced run shows the tables it chose from. -/
theorem trace_minimize (hexplicit : ∃ x, f.store.value x = f.form.explicit) :
    (minimize f true).trace = some
      { form := f.form
        levels := implicantLevels f.form.countedLiteral
          (f.store.expandedTerms ++ f.store.expandedDontCares)
        primes := primes f
        columns := f.store.expandedTerms
        marks := Thunk.mk fun _ ↦ marks (primes f) f.store.expandedTerms } := by
  obtain ⟨x, hx⟩ := hexplicit
  have hon : f.store.expandedTerms.isEmpty = false := by
    rw [List.isEmpty_eq_false_iff]
    exact List.ne_nil_of_mem (Store.mem_expandedTerms.2 hx)
  rw [minimize, Trace.ofPoints, hon]
  rfl

/-- **The rows of the covering table are the prime implicants**, all of them and nothing else, and
each heads one row. -/
theorem exists_trace_mem_primes_iff (hexplicit : ∃ x, f.store.value x = f.form.explicit) :
    ∃ trace, (minimize f true).trace = some trace ∧
      (∀ c, c ∈ trace.primes ↔ f.IsPrime c) ∧ trace.primes.Nodup :=
  ⟨_, trace_minimize hexplicit, fun _ ↦ mem_primes_iff, nodup_primes⟩

/-- A product of sums with six prime implicants, any two neighbours of which overlap, so that none
of them is essential. -/
def cyclic : Formula 3 :=
  Formula.ofStore
    (Store.ofCubes .productOfSums ([0#3, 1#3, 2#3, 5#3, 6#3].map Cube.minterm) [Cube.minterm 7#3])
    Formula.defaultName (Names.default 3)

theorem exists_trace_mem_primes_iff_cyclic :
    (∃ x, cyclic.store.value x = cyclic.form.explicit) ∧
    ∃ trace, (minimize cyclic true).trace = some trace ∧
      (∀ c, c ∈ trace.primes ↔ cyclic.IsPrime c) ∧ trace.primes.Nodup := by
  have hexplicit : ∃ x, cyclic.store.value x = cyclic.form.explicit := ⟨5#3, by decide⟩
  exact ⟨hexplicit, exists_trace_mem_primes_iff hexplicit⟩

end QuineMcCluskey

end TwoLevel
