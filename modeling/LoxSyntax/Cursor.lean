/-
  LoxSyntax.Cursor — a reading place in a source text, with its line and column.

  The place may be anywhere. Reading takes the character at the place and moves up by
  one; from a negative place it takes the characters from the end, the last one at -1,
  so a place that passes zero goes on with the first character. Looking ahead never
  counts from the end. Reading fails at or behind the end, and before the first
  character as counted from the end; places that 64 bits cannot hold have a failure of
  their own. A failed reading moves nothing.

  - `next_eq_error_pastEnd`: reading fails at or behind the end.
  - `next_of_nonneg`: inside the text it gives the character there and moves past it.
  - `accept_of_ne`: what is not the next character is not taken.
-/

namespace LoxSyntax

inductive ReadError where
  | pastEnd (position line : Int)
  | beforeStart
  /-- Before the first place that an index can name. -/
  | noIndex
  deriving DecidableEq, Repr

def ReadError.message : ReadError → String
  | .pastEnd position line =>
    "Attempted to read past end of source at position=<" ++ toString position ++ ">, line=<" ++
      toString line ++ ">"
  | .beforeStart => "string index out of range"
  | .noIndex => "cannot fit 'int' into an index-sized integer"

structure Cursor where
  source : Array Char
  position : Int
  line : Int
  column : Int
  deriving DecidableEq, Repr

namespace Cursor

def ofSource (source : String) : Cursor := ⟨source.toList.toArray, 0, 1, 1⟩

def atEnd (c : Cursor) : Bool := c.source.size ≤ c.position

def charAt? (c : Cursor) (index : Int) : Option Char :=
  if index < 0 then none else c.source[index.toNat]?

/-- The character `offset` places ahead, if there is one. -/
def peek (c : Cursor) (offset : Int) : Option Char := c.charAt? (c.position + offset)

/-- The first place that an index of 64 bits can name. -/
def leastIndex : Int := -Nat.pow 2 63

/-- The place behind the character `ch`: a line end starts a new line. -/
def past (c : Cursor) (ch : Char) : Cursor :=
  if ch = '\n' then { c with position := c.position + 1, line := c.line + 1, column := 1 }
  else { c with position := c.position + 1, column := c.column + 1 }

def next (c : Cursor) : Except ReadError (Char × Cursor) :=
  if c.atEnd then .error (.pastEnd c.position c.line)
  else if c.position < leastIndex then .error .noIndex
  else
    match c.charAt? (if c.position < 0 then c.position + c.source.size else c.position) with
    | some ch => .ok (ch, c.past ch)
    | none => .error .beforeStart

/-- Takes the next character if the whole of `expected` is that character. -/
def accept (c : Cursor) (expected : String) : Except ReadError (Bool × Cursor) :=
  if (c.peek 0).toList = expected.toList then
    match c.next with
    | .ok (_, c) => .ok (true, c)
    | .error e => .error e
  else .ok (false, c)

/-- How many characters there are from the place to the end. -/
def remaining (c : Cursor) : Nat := (c.source.size - c.position).toNat

/-- Takes characters as long as the next one has the property, `n` at most. -/
def advanceWhile (p : Char → Bool) : Nat → Cursor → Except ReadError Cursor
  | 0, c => .ok c
  | n + 1, c =>
    if (c.peek 0).any p then
      match c.next with
      | .ok (_, c) => advanceWhile p n c
      | .error e => .error e
    else .ok c

def skipWhile (p : Char → Bool) (c : Cursor) : Except ReadError Cursor := c.advanceWhile p c.remaining

def slice (c : Cursor) (first last : Int) : List Char := (c.source.extract first.toNat last.toNat).toList

/-! ## Reading -/

theorem next_eq_error_pastEnd {c : Cursor} (h : (c.source.size : Int) ≤ c.position) :
    c.next = .error (.pastEnd c.position c.line) := by
  simp [next, atEnd, h]

theorem next_of_nonneg {c : Cursor} {ch : Char} (h0 : 0 ≤ c.position)
    (h : c.source[c.position.toNat]? = some ch) : c.next = .ok (ch, c.past ch) := by
  have hlt : c.position.toNat < c.source.size := by
    rcases Nat.lt_or_ge c.position.toNat c.source.size with hlt | hge
    · exact hlt
    · simp [Array.getElem?_eq_none hge] at h
  have hend : ¬((c.source.size : Int) ≤ c.position) := by omega
  have hneg : ¬(c.position < 0) := by omega
  have hleast : ¬(c.position < leastIndex) := by unfold leastIndex; omega
  simp [next, atEnd, charAt?, hend, hneg, hleast, h]

theorem accept_of_ne {c : Cursor} {expected : String} (h : (c.peek 0).toList ≠ expected.toList) :
    c.accept expected = .ok (false, c) := by
  simp [accept, h]

end Cursor

end LoxSyntax
