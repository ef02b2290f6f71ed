/-
  LoxSyntax.Json — data for other programs. Integers and doubles are told apart, members
  of an object keep their order.

  The written form has one member or element on a line, two spaces deeper than what
  holds it, and stands on one line when there is none. Strings are ASCII: a quote, a
  backslash and the controls are escaped, and every character from U+007F on is written by
  its UTF-16 code units. A double is written as its shortest text; infinity and nan have
  names of their own here, which RFC 8259 does not know.

  - `units16_of_lt`: below U+10000 a character is one code unit.
-/

import LoxSyntax.Number.NumberText
import LoxSyntax.Text.Hex

namespace LoxSyntax

inductive Json where
  | null
  | boolean (b : Bool)
  | integer (n : Int)
  | number (x : Binary64)
  | text (s : String)
  | array (items : List Json)
  | object (members : List (String × Json))

namespace Json

/-! ## Strings -/

/-- The UTF-16 code units of a code point. -/
def units16 (n : Nat) : List Nat :=
  if n < 0x10000 then [n] else [0xd800 + (n - 0x10000) / 0x400, 0xdc00 + (n - 0x10000) % 0x400]

def escapeUnit (u : Nat) : List Char := '\\' :: 'u' :: Text.hex 4 u

def escapeChar (c : Char) : List Char :=
  if c = '"' then ['\\', '"']
  else if c = '\\' then ['\\', '\\']
  else if c = '\n' then ['\\', 'n']
  else if c = '\r' then ['\\', 'r']
  else if c = '\t' then ['\\', 't']
  else if c = '\x08' then ['\\', 'b']
  else if c = '\x0c' then ['\\', 'f']
  else if 0x20 ≤ c.toNat && c.toNat < 0x7f then [c]
  else (units16 c.toNat).flatMap escapeUnit

def stringChars (s : String) : List Char := '"' :: s.toList.flatMap escapeChar ++ ['"']

theorem units16_of_lt {n : Nat} (h : n < 0x10000) : units16 n = [n] := by simp [units16, h]

/-! ## Values -/

def numberChars : Binary64 → List Char
  | .infinite negative => Binary64.signText negative ++ ['I', 'n', 'f', 'i', 'n', 'i', 't', 'y']
  | .nan => ['N', 'a', 'N']
  | x => x.chars

def margin (depth : Nat) : List Char := '\n' :: List.replicate (2 * depth) ' '

/-- The items between brackets, one on a line, `depth` steps deep. -/
def enclose (opening closing : Char) (depth : Nat) : List (List Char) → List Char
  | [] => [opening, closing]
  | item :: items =>
    opening :: margin (depth + 1) ++ item ++ items.flatMap (fun i => ',' :: margin (depth + 1) ++ i) ++
      margin depth ++ [closing]

mutual

/-- The text of a value that stands `depth` steps deep. -/
def chars (depth : Nat) : Json → List Char
  | .null => ['n', 'u', 'l', 'l']
  | .boolean b => if b then ['t', 'r', 'u', 'e'] else ['f', 'a', 'l', 's', 'e']
  | .integer n => (toString n).toList
  | .number x => numberChars x
  | .text s => stringChars s
  | .array items => enclose '[' ']' depth (itemChars (depth + 1) items)
  | .object members => enclose '\x7b' '\x7d' depth (memberChars (depth + 1) members)

def itemChars (depth : Nat) : List Json → List (List Char)
  | [] => []
  | item :: items => item.chars depth :: itemChars depth items

def memberChars (depth : Nat) : List (String × Json) → List (List Char)
  | [] => []
  | (key, value) :: members => (stringChars key ++ [':', ' '] ++ value.chars depth) :: memberChars depth members

end

/-- The written form. -/
def write (j : Json) : String := String.ofList (j.chars 0)

end Json

end LoxSyntax
