/-
  LoxSyntax.Proofs.Json.Grammar — JSON texts of RFC 8259, and what they stand for.

  White space may stand around values and around the structural characters, and nowhere
  else. A character of a string stands for itself unless it is a control, a quote or a
  backslash; any character may be escaped by its UTF-16 code units, in digits of either
  case, and some by a letter. A surrogate alone stands for no character, so it has no place
  here. A number stands for an integer or for a double. There is no infinity and no nan.

  - `Value`: the text of a value.
  - `Document`: a whole text.
-/

import LoxSyntax.Proofs.Json.Numeral

namespace LoxSyntax.JsonText

/-! ## White space -/

def isGap (c : Char) : Bool := [' ', '\t', '\n', '\r'].contains c

/-- White space, or nothing. -/
def Gap (cs : List Char) : Prop := ∀ c ∈ cs, isGap c = true

/-! ## Strings -/

/-- The value of a hexadecimal digit, in either case. -/
def hexDigit? (c : Char) : Option Nat :=
  if '0' ≤ c ∧ c ≤ '9' then some (c.toNat - 48)
  else if 'a' ≤ c ∧ c ≤ 'f' then some (c.toNat - 87)
  else if 'A' ≤ c ∧ c ≤ 'F' then some (c.toNat - 55)
  else none

def hexValue? (cs : List Char) : Option Nat := cs.foldlM (fun n c => (hexDigit? c).map (16 * n + ·)) 0

/-- Four hexadecimal digits, and the code unit that they write. -/
structure CodeUnit (cs : List Char) (u : Nat) : Prop where
  length : cs.length = 4
  value : hexValue? cs = some u

/-- The letters that escape a character, and the character. -/
def shortEscapes : List (Char × Char) :=
  [('"', '"'), ('\\', '\\'), ('/', '/'), ('b', '\x08'), ('f', '\x0c'), ('n', '\n'), ('r', '\r'), ('t', '\t')]

/-- One character of a string, as it is written. -/
inductive CharText : List Char → Char → Prop where
  | plain {c : Char} (hl : 0x20 ≤ c.toNat) (hq : c ≠ '"') (hb : c ≠ '\\') : CharText [c] c
  | short {e c : Char} (h : (e, c) ∈ shortEscapes) : CharText ['\\', e] c
  | unit {us : List Char} {c : Char} (h : CodeUnit us c.toNat) : CharText ('\\' :: 'u' :: us) c
  /-- A high and a low surrogate. -/
  | pair {us vs : List Char} {u v : Nat} {c : Char} (hu : CodeUnit us u) (hv : CodeUnit vs v)
      (hhigh : 0xd800 ≤ u ∧ u < 0xdc00) (hlow : 0xdc00 ≤ v ∧ v < 0xe000)
      (hc : c.toNat = 0x10000 + (u - 0xd800) * 0x400 + (v - 0xdc00)) :
      CharText ('\\' :: 'u' :: (us ++ '\\' :: 'u' :: vs)) c

/-- The characters of a string, one behind the other. -/
inductive Body : List Char → List Char → Prop where
  | nil : Body [] []
  | cons {t ts cs : List Char} {c : Char} (h : CharText t c) (hs : Body ts cs) : Body (t ++ ts) (c :: cs)

/-- A string in its quotes. -/
inductive StringText : List Char → String → Prop where
  | mk {ts cs : List Char} (h : Body ts cs) : StringText ('"' :: (ts ++ ['"'])) (String.ofList cs)

/-! ## Values -/

/-- One element or more, with commas between them. -/
inductive Separated {α : Type} (Text : List Char → α → Prop) : List Char → List α → Prop where
  | one {w w' cs : List Char} {a : α} (hw : Gap w) (h : Text cs a) (hw' : Gap w') : Separated Text (w ++ (cs ++ w')) [a]
  | cons {w w' cs ds : List Char} {a : α} {as : List α} (hw : Gap w) (h : Text cs a) (hw' : Gap w')
      (hs : Separated Text ds as) : Separated Text (w ++ (cs ++ (w' ++ ',' :: ds))) (a :: as)

/-- A name and a value. -/
inductive Member (Text : List Char → Json → Prop) : List Char → String × Json → Prop where
  | mk {ks w w' cs : List Char} {key : String} {j : Json} (hk : StringText ks key) (hw : Gap w) (hw' : Gap w')
      (h : Text cs j) : Member Text (ks ++ (w ++ ':' :: (w' ++ cs))) (key, j)

inductive Value : List Char → Json → Prop where
  | null : Value ['n', 'u', 'l', 'l'] .null
  | trueName : Value ['t', 'r', 'u', 'e'] (.boolean true)
  | falseName : Value ['f', 'a', 'l', 's', 'e'] (.boolean false)
  | number (n : Numeral) : Value n.text n.value
  | text {cs : List Char} {s : String} (h : StringText cs s) : Value cs (.text s)
  | emptyArray {w : List Char} (hw : Gap w) : Value ('[' :: (w ++ [']'])) (.array [])
  | array {cs : List Char} {items : List Json} (h : Separated Value cs items) :
      Value ('[' :: (cs ++ [']'])) (.array items)
  | emptyObject {w : List Char} (hw : Gap w) : Value ('\x7b' :: (w ++ ['\x7d'])) (.object [])
  | object {cs : List Char} {members : List (String × Json)} (h : Separated (Member Value) cs members) :
      Value ('\x7b' :: (cs ++ ['\x7d'])) (.object members)

/-- The characters are one JSON text, and this is its value. -/
inductive Document : List Char → Json → Prop where
  | mk {w w' cs : List Char} {j : Json} (hw : Gap w) (h : Value cs j) (hw' : Gap w') : Document (w ++ (cs ++ w')) j

end LoxSyntax.JsonText
