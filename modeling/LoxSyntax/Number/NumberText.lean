/-
  LoxSyntax.Number.NumberText — how doubles are written and read. Written: the shortest
  decimal, positionally from 10 ^ (-4) up to below 10 ^ 16, else with an exponent of two
  places or more and its sign; the sign of zero is kept. Read: any decimal text, with
  decimal digits of any script, single underscores between digits, a sign, and blanks at
  both ends.

  - `plainDigit_ascii`: the digits of ASCII stay as they are.
-/

import LoxSyntax.Number.Shortest
import LoxSyntax.Text.Blank
import LoxSyntax.Text.DecimalDigit

namespace LoxSyntax.Binary64

/-- Positional from 0.0001 up to below 10 ^ 16, exponents of at least two places. -/
def layout : DecimalLayout := ⟨-4, 15, 2⟩

def signText (negative : Bool) : List Char := if negative then ['-'] else []

def chars : Binary64 → List Char
  | .finite negative rank => signText negative ++ (shortest rank).text layout
  | .infinite negative => signText negative ++ ['i', 'n', 'f']
  | .nan => ['n', 'a', 'n']

def text (x : Binary64) : String := String.ofList x.chars

/-! ## Reading -/

/-- The blanks that may stand around a number; of the control characters only the six
    that ASCII counts as space. -/
def isMargin (c : Char) : Bool :=
  if c.toNat < 128 then c = ' ' || (9 ≤ c.toNat && c.toNat ≤ 13) else Text.isBlank c

/-- A decimal digit of any script as the ASCII digit of its value. -/
def plainDigit (c : Char) : Char :=
  match Text.digitValue? c with
  | some v => Nat.digitChar v
  | none => c

/-- Takes out the underscores, each of which has to stand between two digits; `before`
    is the character in front. -/
def joinDigits? (before : Char) : List Char → Option (List Char)
  | [] => if before = '_' then none else some []
  | c :: cs =>
    if c = '_' then (if before.isDigit then joinDigits? c cs else none)
    else if before = '_' && !c.isDigit then none
    else (joinDigits? c cs).map (c :: ·)

def ofUnsigned? (negative : Bool) (cs : List Char) : Option Binary64 :=
  match String.ofList (cs.map Char.toLower) with
  | "inf" | "infinity" => some (.infinite negative)
  | "nan" => some .nan
  | _ => (Decimal.read? cs).map (ofDecimal negative)

def ofChars? (cs : List Char) : Option Binary64 := do
  let cs ← joinDigits? ' ' (Text.trimBoth isMargin (cs.map plainDigit))
  let (negative, cs) := Decimal.splitSign cs
  ofUnsigned? negative cs

theorem plainDigit_ascii {c : Char} (h0 : 48 ≤ c.toNat) (h9 : c.toNat ≤ 57) : plainDigit c = c := by
  have h : ∀ n, n < 58 → 48 ≤ n → Nat.digitChar (n - 48) = Char.ofNat n := by decide
  rw [plainDigit, Text.digitValue?_ascii h0 h9]
  simp only [h c.toNat (by omega) h0, Char.ofNat_toNat]

def ofText? (s : String) : Option Binary64 := ofChars? s.toList

end LoxSyntax.Binary64
