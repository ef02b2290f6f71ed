/-
  LoxSyntax.Number.Decimal — a natural number of units of a power of ten, and its text.

  A layout says which numbers are written positionally: those whose leading digit stands
  between two given powers of ten. All others are written with an exponent mark, a sign
  and an exponent of a least width. A positional text always has a decimal point.

  - `ofNumeral_digits`: reading the digits of a natural number gives that number.
-/

namespace LoxSyntax

/-- `digits · 10 ^ exponent`. -/
structure Decimal where
  digits : Nat
  exponent : Int
  deriving DecidableEq, Repr

/-- Where positional text ends, and how wide an exponent is at least. -/
structure DecimalLayout where
  leastPositional : Int
  mostPositional : Int
  exponentWidth : Nat

namespace Decimal

/-- Drops up to `n` zeros at the end of the digits. -/
def trim : Nat → Decimal → Decimal
  | 0, d => d
  | n + 1, d => if d.digits % 10 = 0 then trim n ⟨d.digits / 10, d.exponent + 1⟩ else d

/-! ## Reading -/

/-- The number that `whole.fraction` writes. -/
def ofNumeral (whole fraction : List Char) : Decimal :=
  ⟨Nat.ofDigitChars 10 (whole ++ fraction) 0, -fraction.length⟩

theorem ofNumeral_digits (n : Nat) : ofNumeral (Nat.toDigits 10 n) [] = ⟨n, 0⟩ := by
  simp [ofNumeral, Nat.ofDigitChars_toDigits]

def splitSign : List Char → Bool × List Char
  | '-' :: cs => (true, cs)
  | '+' :: cs => (false, cs)
  | cs => (false, cs)

/-- A signed run of digits that takes up the whole text. -/
def readInt? (cs : List Char) : Option Int :=
  let (negative, ds) := splitSign cs
  if ds.isEmpty || !ds.all Char.isDigit then none
  else
    let n : Int := Nat.ofDigitChars 10 ds 0
    some (if negative then -n else n)

def readExponent? : List Char → Option Int
  | [] => some 0
  | c :: cs => if c = 'e' || c = 'E' then readInt? cs else none

/-- Digits with at most one point and at least one digit, then an optional exponent. -/
def read? (cs : List Char) : Option Decimal :=
  let whole := cs.takeWhile Char.isDigit
  let (fraction, rest) := match cs.dropWhile Char.isDigit with
    | '.' :: cs => (cs.takeWhile Char.isDigit, cs.dropWhile Char.isDigit)
    | cs => ([], cs)
  if whole.isEmpty && fraction.isEmpty then none
  else (readExponent? rest).map fun e => { ofNumeral whole fraction with exponent := e - fraction.length }

/-! ## Writing -/

def zeros (n : Nat) : List Char := List.replicate n '0'

/-- The digits `ds` with the decimal point behind the first `point` of them. -/
def positional (ds : List Char) (point : Int) : List Char :=
  if point ≤ 0 then '0' :: '.' :: zeros (-point).toNat ++ ds
  else
    let n := point.toNat
    if ds.length ≤ n then ds ++ zeros (n - ds.length) ++ ['.', '0']
    else ds.take n ++ '.' :: ds.drop n

def exponentText (width : Nat) (e : Int) : List Char :=
  let ds := Nat.toDigits 10 e.natAbs
  (if e < 0 then '-' else '+') :: (zeros (width - ds.length) ++ ds)

def scientific (width : Nat) (ds : List Char) (e : Int) : List Char :=
  match ds with
  | [] => []
  | [d] => d :: 'e' :: exponentText width e
  | d :: ds => d :: '.' :: ds ++ 'e' :: exponentText width e

def text (layout : DecimalLayout) (d : Decimal) : List Char :=
  let ds := Nat.toDigits 10 d.digits
  let point := d.exponent + ds.length
  if layout.leastPositional < point && point ≤ layout.mostPositional + 1 then positional ds point
  else scientific layout.exponentWidth ds (point - 1)

end Decimal

end LoxSyntax
