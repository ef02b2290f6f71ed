/-
  LoxSyntax.Text.Blank — the white space of Unicode text: the characters of the
  property White_Space together with the four information separators U+001C to U+001F.
  The prompt compares its lines with the blanks at both ends taken off.

  - `isBlank_of_isWhitespace`: every white space character of the core library is blank.
  - `strip_of_blank`: a line of blanks only strips to the empty text.
-/

namespace LoxSyntax.Text

/-- White space in the sense of a blank line. -/
def isBlank (c : Char) : Bool :=
  let n := c.toNat
  (0x9 ≤ n && n ≤ 0xd) || (0x1c ≤ n && n ≤ 0x20) || n == 0x85 || n == 0xa0 || n == 0x1680 ||
    (0x2000 ≤ n && n ≤ 0x200a) || n == 0x2028 || n == 0x2029 || n == 0x202f || n == 0x205f || n == 0x3000

def dropTrailing (p : Char → Bool) (cs : List Char) : List Char :=
  (cs.reverse.dropWhile p).reverse

def trimBoth (p : Char → Bool) (cs : List Char) : List Char :=
  dropTrailing p (cs.dropWhile p)

/-- The text without the blanks at its two ends. -/
def strip (s : String) : String := String.ofList (trimBoth isBlank s.toList)

theorem isBlank_of_isWhitespace {c : Char} (h : c.isWhitespace = true) : isBlank c = true := by
  simp only [Char.isWhitespace, Bool.or_eq_true, decide_eq_true_eq] at h
  rcases h with ((rfl | rfl) | rfl) | rfl <;> rfl

theorem dropWhile_eq_nil {p : Char → Bool} {cs : List Char} (h : cs.all p = true) : cs.dropWhile p = [] := by
  induction cs with
  | nil => rfl
  | cons c cs ih =>
    simp only [List.all_cons, Bool.and_eq_true] at h
    simp [h.1, ih h.2]

theorem strip_of_blank {s : String} (h : s.toList.all isBlank = true) : strip s = "" := by
  simp [strip, trimBoth, dropTrailing, dropWhile_eq_nil h]

end LoxSyntax.Text
