import TwoLevel.Term.Text
import TwoLevel.Proofs.Cube.Neighbour

/-!
# Reading back what is written

A term is written with one character for each position, the most significant first, and read from
such a text.  Writing has one character for each literal and reading has five, so the two are
inverse on terms, and on texts up to the spelling of a missing position (`parse_isNotation`).

The characters are looked at from the left, so of several that are no literals the leftmost is
reported.  The cube is filled from the other end: the last character goes to position zero and each
one before it to the next position, where everything is still zero.  So what some characters at the
end have been read as is a list of literals that fills the lowest positions (`Cube.IsFilledBy`), and
one more character puts one literal in front of the list.
-/

set_option autoImplicit false

namespace TwoLevel

/-! ## Characters -/

namespace Literal

/-- The characters that are read as literals. -/
def readable : List Char := ['0', '1', '-', 'x', 'X']

/-- The character that is written where the given one may have been read. -/
def plain (ch : Char) : Char := if ch = 'x' ∨ ch = 'X' then '-' else ch

theorem isSome_ofChar?_iff {ch : Char} : (ofChar? ch).isSome = true ↔ ch ∈ readable := by
  unfold ofChar? readable
  split <;> simp_all

theorem exists_ofChar? {ch : Char} (h : ch ∈ readable) : ∃ l, ofChar? ch = some l :=
  Option.isSome_iff_exists.1 (isSome_ofChar?_iff.2 h)

theorem ofChar?_eq_none_iff {ch : Char} : ofChar? ch = none ↔ ch ∉ readable := by
  rw [← isSome_ofChar?_iff, Option.not_isSome_iff_eq_none]

/-- What is read is written in the plain way. -/
theorem toChar_of_ofChar? {ch : Char} {l : Literal} (h : ofChar? ch = some l) :
    l.toChar = plain ch := by
  unfold ofChar? at h
  split at h <;> cases h <;> rfl

/-- A text of readable characters stands for a list of literals. -/
theorem exists_map_ofChar? {cs : List Char} (h : ∀ ch ∈ cs, ch ∈ readable) :
    ∃ ls : List Literal, cs.map ofChar? = ls.map some := by
  induction cs with
  | nil => exact ⟨[], rfl⟩
  | cons ch cs ih =>
    obtain ⟨l, hl⟩ := exists_ofChar? (h ch List.mem_cons_self)
    obtain ⟨ls, hls⟩ := ih fun d hd ↦ h d (List.mem_cons_of_mem ch hd)
    exact ⟨l :: ls, by rw [List.map_cons, List.map_cons, hl, hls]⟩

theorem map_toChar_of_map_ofChar? {cs : List Char} {ls : List Literal}
    (h : cs.map ofChar? = ls.map some) : ls.map toChar = cs.map plain := by
  induction cs generalizing ls with
  | nil =>
    cases ls with
    | nil => rfl
    | cons l ls => cases h
  | cons ch cs ih =>
    cases ls with
    | nil => cases h
    | cons l ls =>
      rw [List.map_cons, List.map_cons, List.cons.injEq] at h
      rw [List.map_cons, List.map_cons, toChar_of_ofChar? h.1, ih h.2]

/-- A text with a character that is no literal has a first one. -/
theorem exists_first_not_readable {cs : List Char} (h : ¬ ∀ ch ∈ cs, ch ∈ readable) :
    ∃ before ch after, cs = before ++ ch :: after ∧ (∀ d ∈ before, d ∈ readable) ∧
      ch ∉ readable := by
  induction cs with
  | nil => exact absurd (fun _ hch ↦ absurd hch List.not_mem_nil) h
  | cons c cs ih =>
    by_cases hc : c ∈ readable
    · obtain ⟨before, ch, after, rfl, hbefore, hch⟩ :=
        ih fun hcs ↦ h (List.forall_mem_cons.2 ⟨hc, hcs⟩)
      exact ⟨c :: before, ch, after, rfl, List.forall_mem_cons.2 ⟨hc, hbefore⟩, hch⟩
    · exact ⟨[], c, cs, rfl, fun _ hd ↦ absurd hd List.not_mem_nil, hc⟩

end Literal

/-! ## Filling a cube from the lowest position on -/

namespace Cube

variable {n : Nat}

/-- The cube with a literal written where it has a zero. -/
def place (c : Cube n) (position : Nat) : Literal → Cube n
  | .zero => c
  | .one => ofMasks (c.literals ||| Mask.bit position) c.missing
  | .missing => ofMasks c.literals (c.missing ||| Mask.bit position)

theorem value_place {c : Cube n} {i : Nat} (hi : i < n) (hzero : c.value i = .zero) (l : Literal)
    (j : Nat) : (c.place i l).value j = if j = i then l else c.value j := by
  have hm : c.missing.getLsbD i = false := value_ne_missing_iff.1 (by rw [hzero]; decide)
  cases l with
  | zero =>
    rw [place]
    split <;> simp_all
  | one =>
    simp only [value, place, missing_ofMasks, getLsbD_literals_ofMasks, BitVec.getLsbD_or,
      Mask.getLsbD_bit, decide_eq_true hi, Bool.true_and]
    by_cases hji : j = i
    · simp only [hji, hm, decide_true, Bool.or_true, Bool.not_false, Bool.and_self, if_true]
      rfl
    · simp only [decide_eq_false (Ne.symm hji), Bool.or_false, if_neg hji]
      split <;> simp_all
  | missing => exact value_free hi j

/-- The lowest positions of a cube have the given literals, the highest of them first, and the
other positions are zero. -/
structure IsFilledBy (c : Cube n) (ls : List Literal) : Prop where
  /-- The literals are those of the lowest positions. -/
  map_value : (List.range ls.length).reverse.map c.value = ls
  /-- The positions above are zero. -/
  value_eq_zero : ∀ i, ls.length ≤ i → i < n → c.value i = .zero

theorem isFilledBy_nil : (minterm 0#n).IsFilledBy [] where
  map_value := rfl
  value_eq_zero i _ _ := by simp [value, minterm]

/-- One more literal goes to the next position. -/
theorem IsFilledBy.cons {c : Cube n} {ls : List Literal} (h : c.IsFilledBy ls) (hlt : ls.length < n)
    (l : Literal) : (c.place ls.length l).IsFilledBy (l :: ls) := by
  have hvalue := value_place hlt (h.value_eq_zero _ (Nat.le_refl _) hlt) l
  refine ⟨?_, fun i hi hin ↦ ?_⟩
  · rw [List.length_cons, List.range_succ, List.reverse_append, List.reverse_singleton,
      List.singleton_append, List.map_cons, hvalue, if_pos rfl]
    refine congrArg (l :: ·) (Eq.trans (List.map_congr_left fun i hi ↦ ?_) h.map_value)
    rw [List.mem_reverse, List.mem_range] at hi
    rw [hvalue, if_neg (Nat.ne_of_lt hi)]
  · rw [List.length_cons] at hi
    rw [hvalue, if_neg (by omega), h.value_eq_zero i (by omega) hin]

/-- A cube that is filled altogether has those literals. -/
theorem IsFilledBy.literalList_eq {c : Cube n} {ls : List Literal} (h : c.IsFilledBy ls)
    (hlength : ls.length = n) : c.literalList = ls := by
  obtain rfl : n = ls.length := hlength.symm
  exact h.map_value

theorem length_literalList (c : Cube n) : c.literalList.length = n := by
  rw [literalList, List.length_map, List.length_reverse, List.length_range]

end Cube

/-! ## Reading -/

namespace Term

theorem readFrom_cons_of_some {size : Nat} {ch : Char} {l : Literal}
    (h : Literal.ofChar? ch = some l) (cs : List Char) :
    readFrom size (ch :: cs) = (readFrom size cs).map (·.place cs.length l) := by
  rw [readFrom, h]
  cases readFrom size cs with
  | error e => rfl
  | ok c => cases l <;> rfl

theorem readFrom_cons_of_none {size : Nat} {ch : Char} (h : Literal.ofChar? ch = none)
    (cs : List Char) : readFrom size (ch :: cs) = .error (.invalidPosition cs.length size) := by
  rw [readFrom, h]

/-- Characters that stand for literals are read as a cube that they fill. -/
theorem exists_readFrom {size : Nat} {cs : List Char} {ls : List Literal}
    (h : cs.map Literal.ofChar? = ls.map some) (hlength : ls.length ≤ size) :
    ∃ c, readFrom size cs = .ok c ∧ c.IsFilledBy ls := by
  induction cs generalizing ls with
  | nil =>
    obtain rfl : ls = [] := List.map_eq_nil_iff.1 h.symm
    exact ⟨_, rfl, Cube.isFilledBy_nil⟩
  | cons ch cs ih =>
    obtain ⟨l, ls, rfl, hl, hls⟩ := List.map_eq_cons_iff.1 h.symm
    obtain ⟨c, hc, hfilled⟩ := ih hls.symm (Nat.le_of_succ_le hlength)
    have hcs : cs.length = ls.length := by
      simpa using congrArg List.length hls.symm
    refine ⟨c.place ls.length l, ?_, hfilled.cons hlength l⟩
    rw [readFrom_cons_of_some hl.symm, hc, hcs]
    rfl

/-- **The first character that is no literal is refused**, whatever comes after it. -/
theorem readFrom_of_not_readable {size : Nat} {before after : List Char} {ch : Char}
    (hbefore : ∀ d ∈ before, d ∈ Literal.readable) (hch : ch ∉ Literal.readable) :
    readFrom size (before ++ ch :: after) = .error (.invalidPosition after.length size) := by
  induction before with
  | nil => exact readFrom_cons_of_none (Literal.ofChar?_eq_none_iff.2 hch) after
  | cons d before ih =>
    obtain ⟨hd, hbefore⟩ := List.forall_mem_cons.1 hbefore
    obtain ⟨l, hl⟩ := Literal.exists_ofChar? hd
    rw [List.cons_append, readFrom_cons_of_some hl, ih hbefore]
    rfl

/-- A number of characters that a term can have. -/
def IsReadableLength (k : Nat) : Prop := 1 ≤ k ∧ k ≤ maxPositions

theorem parse_of_length {s : String} (h : IsReadableLength s.length) :
    parse s = (readFrom s.length s.toList).map (⟨s.length, ·⟩) := by
  obtain ⟨hpos, hle⟩ := h
  rw [parse, ofChars, String.length_toList, if_neg (by omega)]

theorem parse_of_not_length {s : String} (h : ¬ IsReadableLength s.length) :
    parse s = .error (.invalidTermSize s.length (max 1 (min s.length maxPositions))) := by
  rw [IsReadableLength] at h
  rw [parse, ofChars, String.length_toList, if_pos (by omega)]

theorem parse_of_not_readable {s : String} (h : IsReadableLength s.length)
    {before after : List Char} {ch : Char} (hs : s.toList = before ++ ch :: after)
    (hbefore : ∀ d ∈ before, d ∈ Literal.readable) (hch : ch ∉ Literal.readable) :
    parse s = .error (.invalidPosition after.length s.length) := by
  rw [parse_of_length h, hs, readFrom_of_not_readable hbefore hch]
  rfl

/-- **Readable characters are read as the term that they write.** -/
theorem exists_parse {s : String} (h : IsReadableLength s.length) {ls : List Literal}
    (hs : s.toList.map Literal.ofChar? = ls.map some) :
    ∃ c : Cube s.length, parse s = .ok ⟨s.length, c⟩ ∧ c.literalList = ls := by
  have hlength : ls.length = s.length := by
    simpa [String.length_toList] using congrArg List.length hs.symm
  obtain ⟨c, hc, hfilled⟩ : ∃ c, readFrom s.length s.toList = .ok c ∧ c.IsFilledBy ls :=
    exists_readFrom hs (Nat.le_of_eq hlength)
  refine ⟨c, ?_, hfilled.literalList_eq hlength⟩
  rw [parse_of_length h, hc]
  rfl

/-- A text is read exactly when it has the right length and no other characters. -/
theorem exists_parse_iff {s : String} : (∃ t, parse s = .ok t) ↔
    IsReadableLength s.length ∧ ∀ ch ∈ s.toList, ch ∈ Literal.readable := by
  constructor
  · rintro ⟨t, ht⟩
    have hlength : IsReadableLength s.length := by
      by_contra h
      cases (parse_of_not_length h).symm.trans ht
    refine ⟨hlength, ?_⟩
    by_contra h
    obtain ⟨before, ch, after, hs, hbefore, hch⟩ := Literal.exists_first_not_readable h
    cases (parse_of_not_readable hlength hs hbefore hch).symm.trans ht
  · rintro ⟨hlength, h⟩
    obtain ⟨ls, hls⟩ := Literal.exists_map_ofChar? h
    obtain ⟨c, hc, _⟩ := exists_parse hlength hls
    exact ⟨_, hc⟩

theorem toList_text (t : Term) : t.text.toList = t.cube.literalList.map Literal.toChar :=
  String.toList_ofList

theorem length_text (t : Term) : t.text.length = t.size := by
  rw [← String.length_toList, toList_text, List.length_map, Cube.length_literalList]

/-- A term is determined by its literals, the number of them included. -/
theorem eq_of_literalList_eq {a b : Term} (h : a.cube.literalList = b.cube.literalList) :
    a = b := by
  obtain ⟨n, c⟩ := a
  obtain ⟨m, d⟩ := b
  obtain rfl : n = m := by simpa only [Cube.length_literalList] using congrArg List.length h
  refine congrArg (Term.mk n) (Cube.ext_value fun i hi ↦ ?_)
  exact List.map_inj_left.1 h i (List.mem_reverse.2 (List.mem_range.2 hi))

/-- **What is written is read back.** -/
theorem parse_text {t : Term} (h : IsReadableLength t.size) : parse t.text = .ok t := by
  have hs : t.text.toList.map Literal.ofChar? = t.cube.literalList.map some := by
    rw [toList_text, List.map_map]
    exact List.map_congr_left fun l _ ↦ Literal.ofChar?_toChar l
  obtain ⟨c, hc, hliterals⟩ := exists_parse (by rwa [length_text]) hs
  exact hc.trans (congrArg Except.ok (eq_of_literalList_eq hliterals))

/-- What is read is written in the plain way. -/
theorem text_of_parse {s : String} {t : Term} (h : parse s = .ok t) :
    t.text = s.map Literal.plain := by
  obtain ⟨hlength, hreadable⟩ := exists_parse_iff.1 ⟨t, h⟩
  obtain ⟨ls, hls⟩ := Literal.exists_map_ofChar? hreadable
  obtain ⟨c, hc, hliterals⟩ := exists_parse hlength hls
  cases hc.symm.trans h
  rw [← String.toList_inj, toList_text, String.toList_map, hliterals,
    Literal.map_toChar_of_map_ofChar? hls]

/-! ## The notation -/

/-- Reading and writing of terms as bit strings of some length. -/
structure IsNotation (read : String → Except Error Term) (write : Term → String) : Prop where
  /-- What is written for a term that is not too long or empty is read back. -/
  read_write : ∀ t : Term, IsReadableLength t.size → read (write t) = .ok t
  /-- Texts of the right length are read if their characters stand for literals, and no others. -/
  exists_read_iff : ∀ s, (∃ t, read s = .ok t) ↔
    IsReadableLength s.length ∧ ∀ ch ∈ s.toList, ch ∈ Literal.readable
  /-- Writing what was read changes the spelling of missing positions only. -/
  write_of_read : ∀ s t, read s = .ok t → write t = s.map Literal.plain
  /-- A text of another length is refused for its number of characters, whatever they are. -/
  read_of_not_length : ∀ s, ¬ IsReadableLength s.length →
    read s = .error (.invalidTermSize s.length (max 1 (min s.length maxPositions)))
  /-- A text of the right length is refused for the position of its first other character. -/
  read_of_not_readable : ∀ (s : String) (before : List Char) (ch : Char) (after : List Char),
    IsReadableLength s.length → s.toList = before ++ ch :: after →
    (∀ d ∈ before, d ∈ Literal.readable) → ch ∉ Literal.readable →
    read s = .error (.invalidPosition after.length s.length)

/-- **Reading and writing terms are inverse**, for terms of every size that can be read and for all
texts. -/
theorem parse_isNotation : IsNotation parse text where
  read_write _ := parse_text
  exists_read_iff _ := exists_parse_iff
  write_of_read _ _ := text_of_parse
  read_of_not_length _ := parse_of_not_length
  read_of_not_readable _ _ _ _ h hs := parse_of_not_readable h hs

-- Characters are counted, not bytes: in `1é-?` the second is the first that is no literal.
example : parse "1xX0" = .ok ⟨4, Cube.ofMasks 8#4 6#4⟩ ∧
    parse "1é-?" = .error (.invalidPosition 2 4) := by
  constructor <;> cbv

end Term

end TwoLevel
