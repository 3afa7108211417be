import TwoLevel.Text.Unprintable

/-!
# Quoted text

A message that names characters the user typed puts them between double quotes, so that a blank
or a line break in them can be seen.  The rule is one character at a time (`escape`):

* a double quote and a backslash are written after a backslash;
* NUL, tab, line feed and carriage return have letters of their own;
* any other character that cannot be shown is written as its code, `\u` and the lower case
  hexadecimal digits in braces;
* everything else stands for itself, the apostrophe included (`escape_of_visible`).
-/

set_option autoImplicit false

namespace TwoLevel.Text

/-- The written form of one character inside quotes. -/
def escape (c : Char) : List Char :=
  if c = '"' || c = '\\' then ['\\', c]
  else if c = '\x00' then ['\\', '0']
  else if c = '\t' then ['\\', 't']
  else if c = '\n' then ['\\', 'n']
  else if c = '\r' then ['\\', 'r']
  else if isUnprintable c then
    ['\\', 'u', '\x7b'] ++ Nat.toDigits 16 c.toNat ++ ['\x7d']
  else [c]

/-- A character of ASCII that is seen stands for itself, unless it is a mark of the notation. -/
theorem escape_of_visible {c : Char} (hlow : 0x20 ≤ c.toNat) (hhigh : c.toNat < 0x7f)
    (hquote : c ≠ '"') (hbackslash : c ≠ '\\') : escape c = [c] := by
  have hshown : ¬ isUnprintable c = true := by
    rw [isUnprintable_iff_of_lt (Nat.lt_succ_of_lt hhigh)]
    omega
  have hne : ∀ d : Char, d.toNat < 0x20 → c ≠ d := by
    rintro d hd rfl
    exact Nat.not_lt.2 hlow hd
  rw [escape, if_neg (by simp [hquote, hbackslash]), if_neg (hne '\x00' (by decide)),
    if_neg (hne '\t' (by decide)), if_neg (hne '\n' (by decide)), if_neg (hne '\r' (by decide)),
    if_neg hshown]

/-- The characters between double quotes, each in its written form. -/
def quoted (cs : List Char) : String :=
  String.ofList ('"' :: cs.flatMap escape ++ ['"'])

end TwoLevel.Text
