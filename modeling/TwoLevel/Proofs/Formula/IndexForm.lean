import TwoLevel.Formula.Text
import TwoLevel.Proofs.Function

/-!
# The index form can be read back

The index form of a formula is a pair of signs, the explicit indices between brackets, and, if there
are don't cares, their indices between brackets too.  `IndexForm.read?` takes such a text apart
again: the signs say which form it is, and the numbers between two brackets are what stands between
the commas.  Each part is read off the beginning of the text and the rest is left, so a part is
treated by one lemma whatever comes after it (`readList?_indexList`), and the whole by putting them
together (`readChars?_indexChars`).

What is read back are the form and the two lists of a formula.  They are determined by the function
and determine it, so **the index form is canonical**: whatever formulas are stored as, their index
forms are the same text exactly when they are the same function in the same form.
-/

set_option autoImplicit false

namespace TwoLevel

variable {n : Nat}

/-! ## Reading -/

/-- What an index form says. -/
structure IndexForm where
  /-- The form of the formula. -/
  form : Form
  /-- The indices of its explicit output. -/
  explicit : List Nat
  /-- The indices of its don't cares. -/
  dontCares : List Nat
deriving DecidableEq, Repr

namespace IndexForm

/-- Whether something is written in decimal digits. -/
def isNumber (digits : List Char) : Bool := !digits.isEmpty && digits.all Char.isDigit

/-- The numbers with commas between them. -/
def readNumbers? (inside : List Char) : Option (List Nat) :=
  let parts := if inside.isEmpty then [] else inside.splitOn ','
  if parts.all isNumber then some (parts.map fun digits ↦ Nat.ofDigitChars 10 digits 0) else none

/-- The numbers between two brackets at the beginning of a text, and the rest of the text. -/
def readList? : List Char → Option (List Nat × List Char)
  | '(' :: text =>
    match text.dropWhile (· != ')') with
    | ')' :: rest => (readNumbers? (text.takeWhile (· != ')'))).map fun numbers ↦ (numbers, rest)
    | _ => none
  | _ => none

/-- The form that a sign for the whole expression and one for its explicit indices stand for. -/
def formOfSigns? : Char → Char → Option Form
  | 'E', 'm' => some .sumOfProducts
  | 'P', 'M' => some .productOfSums
  | _, _ => none

/-- The don't cares after the explicit indices, if there are any. -/
def readDontCares? (whole : Char) : List Char → Option (List Nat)
  | [] => some []
  | ' ' :: '+' :: ' ' :: sign :: 'd' :: text =>
    match readList? text with
    | some (indices, []) => if sign = whole then some indices else none
    | _ => none
  | _ => none

/-- What is written as the given characters. -/
def readChars? : List Char → Option IndexForm
  | whole :: sign :: text => do
    let form ← formOfSigns? whole sign
    let (explicit, rest) ← readList? text
    let dontCares ← readDontCares? whole rest
    some ⟨form, explicit, dontCares⟩
  | _ => none

/-- What is written as the given text. -/
def read? (text : String) : Option IndexForm := readChars? text.toList

/-! ## What is written is read back -/

theorem isDigit_of_mem_decimal {c : Char} {k : Nat} (h : c ∈ decimal k) : c.isDigit = true :=
  Nat.isDigit_of_mem_toDigits (by decide) (by decide) h

theorem isNumber_decimal (k : Nat) : isNumber (decimal k) = true := by
  rw [isNumber, Bool.and_eq_true, Bool.not_eq_true', List.isEmpty_eq_false_iff, List.all_eq_true]
  exact ⟨Nat.toDigits_ne_nil, fun _ ↦ isDigit_of_mem_decimal⟩

theorem ofDigitChars_decimal (k : Nat) : Nat.ofDigitChars 10 (decimal k) 0 = k :=
  Nat.ofDigitChars_toDigits (by decide) (by decide)

/-- Between the commas stand the numbers that were written. -/
theorem parts_intercalate (ks : List Nat) :
    (if ([','].intercalate (ks.map decimal)).isEmpty then []
      else ([','].intercalate (ks.map decimal)).splitOn ',') = ks.map decimal := by
  cases ks with
  | nil => rfl
  | cons k ks =>
    have hne : ([','].intercalate ((k :: ks).map decimal)).isEmpty = false := by
      rw [List.isEmpty_eq_false_iff]
      cases ks with
      | nil => exact fun h ↦ Nat.toDigits_ne_nil (List.append_eq_nil_iff.1 h).1
      | cons l ks => simp [List.intercalate_cons_cons]
    have hcomma : ∀ digits ∈ (k :: ks).map decimal, ',' ∉ digits := by
      intro digits hdigits hmem
      obtain ⟨l, _, rfl⟩ := List.mem_map.1 hdigits
      exact absurd (isDigit_of_mem_decimal hmem) (by decide)
    rw [hne, List.splitOn_intercalate ',' hcomma (List.cons_ne_nil _ _)]
    rfl

theorem readNumbers?_intercalate (ks : List Nat) :
    readNumbers? ([','].intercalate (ks.map decimal)) = some ks := by
  have hall : (ks.map decimal).all isNumber = true := by
    rw [List.all_map, List.all_eq_true]
    exact fun k _ ↦ isNumber_decimal k
  rw [readNumbers?, parts_intercalate]
  simp only [hall, if_true, List.map_map, Function.comp_def, ofDigitChars_decimal, List.map_id']

/-- No bracket stands between the numbers. -/
theorem ne_bracket_of_mem_intercalate {ks : List Nat} {c : Char}
    (h : c ∈ [','].intercalate (ks.map decimal)) : (c != ')') = true := by
  rw [bne_iff_ne]
  rintro rfl
  induction ks with
  | nil => exact List.not_mem_nil h
  | cons k ks ih =>
    cases ks with
    | nil =>
      rw [List.map_singleton, List.intercalate_singleton] at h
      exact absurd (isDigit_of_mem_decimal h) (by decide)
    | cons l ks =>
      rw [List.map_cons, List.map_cons, List.intercalate_cons_cons, List.mem_append,
        List.mem_append, List.mem_singleton] at h
      rcases h with (h | h) | h
      · exact absurd (isDigit_of_mem_decimal h) (by decide)
      · exact absurd h (by decide)
      · exact ih h

/-- **A list of indices is read off the beginning of a text**, and what comes after it is left. -/
theorem readList?_indexList (xs : List (BitVec n)) (rest : List Char) :
    readList? (Formula.indexList xs ++ rest) = some (xs.map BitVec.toNat, rest) := by
  have hinside : xs.map (fun x ↦ decimal x.toNat) = (xs.map BitVec.toNat).map decimal := by
    rw [List.map_map]
    rfl
  rw [Formula.indexList, List.append_assoc, List.cons_append, hinside, readList?,
    List.dropWhile_append_of_pos fun c ↦ ne_bracket_of_mem_intercalate,
    List.takeWhile_append_of_pos fun c ↦ ne_bracket_of_mem_intercalate]
  show (readNumbers? (_ ++ [])).map _ = _
  rw [List.append_nil, readNumbers?_intercalate]
  rfl

theorem formOfSigns?_indexSigns (form : Form) :
    formOfSigns? (Formula.indexSigns form).1 (Formula.indexSigns form).2 = some form := by
  cases form <;> rfl

/-- What an index form says of a formula. -/
def ofFormula (f : Formula n) : IndexForm where
  form := f.form
  explicit := (f.store.points f.form.explicit).map BitVec.toNat
  dontCares := (f.store.points .dontCare).map BitVec.toNat

/-- **The index form is read back.** -/
theorem readChars?_indexChars (f : Formula n) : readChars? f.indexChars = some (ofFormula f) := by
  have hdontCares : readDontCares? (Formula.indexSigns f.form).1
      (if (f.store.points .dontCare).isEmpty then []
        else ' ' :: '+' :: ' ' :: (Formula.indexSigns f.form).1 :: 'd' ::
          Formula.indexList (f.store.points .dontCare)) =
      some ((f.store.points .dontCare).map BitVec.toNat) := by
    cases hdc : f.store.points .dontCare with
    | nil => rfl
    | cons x xs =>
      have hlist := readList?_indexList (x :: xs) []
      rw [List.append_nil] at hlist
      rw [List.isEmpty_cons, if_neg Bool.false_ne_true, readDontCares?, hlist]
      exact if_pos rfl
  rw [Formula.indexChars]
  simp only [List.cons_append, readChars?, formOfSigns?_indexSigns, readList?_indexList,
    hdontCares, Option.bind_eq_bind, Option.bind_some, ofFormula]

theorem read?_indexForm (f : Formula n) : read? (f.indexForm false) = some (ofFormula f) := by
  rw [read?, Formula.indexForm, String.toList_ofList]
  exact readChars?_indexChars f

/-! ## The index form is canonical -/

variable {f g : Formula n}

/-- What is said of a reachable formula are the indices with the two outputs that are written. -/
theorem ofFormula_eq (hf : f.Reachable) :
    ofFormula f = ⟨f.form, (f.store.pointsWith f.form.explicit).map BitVec.toNat,
      (f.store.pointsWith .dontCare).map BitVec.toNat⟩ := by
  rw [ofFormula, hf.store.isCoherent.points_eq, hf.store.isCoherent.points_eq]

/-- **The two lists are those of the function**, and no other function in the same form has them. -/
theorem ofFormula_eq_iff (hf : f.Reachable) (hg : g.Reachable) :
    ofFormula f = ofFormula g ↔ f.IsSameFunction g := by
  rw [ofFormula_eq hf, ofFormula_eq hg, mk.injEq]
  refine ⟨fun ⟨hform, hexplicit, hdc⟩ ↦ ?_, fun h ↦ ?_⟩
  · have hinj := List.map_injective_iff.2 fun x y : BitVec n ↦ BitVec.eq_of_toNat_eq
    have hmem : ∀ {v : Output} {x : BitVec n}, f.store.pointsWith v = g.store.pointsWith v →
        (g.store.value x = v ↔ f.store.value x = v) := by
      intro v x h
      rw [← Store.mem_pointsWith, ← Store.mem_pointsWith, h]
    rw [← hform] at hexplicit
    refine ⟨hform.symm, Store.valueAt_eq_iff.2 fun x ↦ ?_⟩
    exact f.form.output_ext (hmem (hinj hexplicit)) (hmem (hinj hdc))
  · rw [h.form_eq, h.pointsWith_eq, h.pointsWith_eq]
    exact ⟨rfl, rfl, rfl⟩

theorem indexChars_congr (hf : f.Reachable) (hg : g.Reachable) (h : f.IsSameFunction g) :
    f.indexChars = g.indexChars := by
  rw [Formula.indexChars, Formula.indexChars]
  simp only [hf.store.isCoherent.points_eq, hg.store.isCoherent.points_eq, h.form_eq,
    h.pointsWith_eq]

/-- **The index form is canonical**: two formulas have the same exactly when they are the same
function in the same form, however they are stored.  And it can be read back as the increasing lists
of the explicit indices and of the don't cares. -/
theorem indexForm_canonical (hf : f.Reachable) (hg : g.Reachable) :
    (f.indexForm false = g.indexForm false ↔ f.IsSameFunction g) ∧
    ∃ explicit dontCares, read? (f.indexForm false) = some ⟨f.form, explicit, dontCares⟩ ∧
      explicit.Pairwise (· < ·) ∧ dontCares.Pairwise (· < ·) ∧
      (∀ index, index ∈ explicit ↔ f.store.valueAt index = .ok f.form.explicit) ∧
      ∀ index, index ∈ dontCares ↔ f.store.valueAt index = .ok .dontCare := by
  refine ⟨⟨fun h ↦ ?_, fun h ↦ ?_⟩, ?_⟩
  · have hread := congrArg read? h
    rw [read?_indexForm, read?_indexForm, Option.some_inj] at hread
    exact (ofFormula_eq_iff hf hg).1 hread
  · rw [Formula.indexForm, Formula.indexForm, indexChars_congr hf hg h]
    rfl
  · refine ⟨_, _, (read?_indexForm f).trans (congrArg some (ofFormula_eq hf)), ?_, ?_, ?_, ?_⟩
    · exact List.pairwise_map.2 (f.store.pointsWith_increasing _)
    · exact List.pairwise_map.2 (f.store.pointsWith_increasing _)
    · exact fun _ ↦ Store.mem_map_toNat_pointsWith
    · exact fun _ ↦ Store.mem_map_toNat_pointsWith

/-- A half space and a don't care outside it. -/
def halfSpaceBeside : Formula 2 :=
  Formula.ofStore
    (Store.ofCubes .sumOfProducts [Cube.halfSpace 1 true] [Cube.minterm 0#2])
    Formula.defaultName (Names.default 2)

/-- The same function by its indices. -/
def pointsBeside : Formula 2 :=
  Formula.ofStore
    (Store.ofCubes .sumOfProducts [Cube.minterm 3#2, Cube.minterm 2#2] [Cube.minterm 0#2])
    Formula.defaultName (Names.default 2)

theorem indexForm_canonical_halfSpaceBeside :
    halfSpaceBeside.Reachable ∧ pointsBeside.Reachable ∧
    (halfSpaceBeside.indexForm false = pointsBeside.indexForm false ↔
      halfSpaceBeside.IsSameFunction pointsBeside) ∧
    ∃ explicit dontCares,
      read? (halfSpaceBeside.indexForm false) = some ⟨.sumOfProducts, explicit, dontCares⟩ ∧
      explicit.Pairwise (· < ·) ∧ dontCares.Pairwise (· < ·) ∧
      (∀ index, index ∈ explicit ↔ halfSpaceBeside.store.valueAt index = .ok .one) ∧
      ∀ index, index ∈ dontCares ↔ halfSpaceBeside.store.valueAt index = .ok .dontCare := by
  have hset : (Formula.ofCubes .sumOfProducts [Cube.halfSpace 1 true]).setAt 0 .dontCare =
      .ok (true, halfSpaceBeside) := rfl
  have hhalf : halfSpaceBeside.Reachable :=
    .setAt (Formula.reachable_ofCubes _ (by decide) (by decide)) hset
  have hpoints : pointsBeside.Reachable :=
    .ofIndices (rfl : Formula.ofIndices 2 .sumOfProducts [3, 2] [0] = .ok pointsBeside)
  exact ⟨hhalf, hpoints, indexForm_canonical hhalf hpoints⟩

end IndexForm

end TwoLevel
