/-
  LoxSyntax.CharClass — the digits, letters and word characters of Lox, all of ASCII.

  The classes also answer for whole texts, in dictionary order: a text lies between two
  characters when it is not before the one and not behind the other. So the empty text
  is in no class, and only its last character can have nothing behind it.

  - `isDigitText_singleton` / `isAlphaText_singleton`: on one character the two agree.
-/

namespace LoxSyntax

def isDigit (c : Char) : Bool := '0' ≤ c && c ≤ '9'

def isAlpha (c : Char) : Bool := ('a' ≤ c && c ≤ 'z') || ('A' ≤ c && c ≤ 'Z') || c == '_'

def isAlphanumeric (c : Char) : Bool := isAlpha c || isDigit c

/-- `lo ≤ text ≤ hi` in dictionary order. -/
def textBetween (lo hi : Char) : List Char → Bool
  | [] => false
  | c :: cs => lo ≤ c && (c < hi || (c == hi && cs.isEmpty))

def isDigitText (cs : List Char) : Bool := textBetween '0' '9' cs

def isAlphaText (cs : List Char) : Bool := textBetween 'a' 'z' cs || textBetween 'A' 'Z' cs || cs == ['_']

def isAlphanumericText (cs : List Char) : Bool := isAlphaText cs || isDigitText cs

theorem textBetween_singleton (lo hi c : Char) : textBetween lo hi [c] = (lo ≤ c && c ≤ hi) := by
  have h : (decide (c < hi) || c == hi) = decide (c ≤ hi) := by
    rw [Bool.eq_iff_iff]
    simp only [Bool.or_eq_true, decide_eq_true_eq, beq_iff_eq, Char.lt_def, Char.le_def, Char.ext_iff]
    exact Iff.symm UInt32.le_iff_lt_or_eq
  simp [textBetween, h]

theorem isDigitText_singleton (c : Char) : isDigitText [c] = isDigit c := textBetween_singleton _ _ _

theorem isAlphaText_singleton (c : Char) : isAlphaText [c] = isAlpha c := by
  have h : ([c] == ['_']) = (c == '_') := by rw [Bool.eq_iff_iff]; simp
  simp only [isAlphaText, isAlpha, textBetween_singleton, h]

end LoxSyntax
