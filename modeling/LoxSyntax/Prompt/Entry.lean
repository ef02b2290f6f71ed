/-
  LoxSyntax.Prompt.Entry — reading entries from lines.

  Input is taken line by line; a line ends behind its line feed, and the last one may
  lack it. Braces are counted as characters, wherever they stand. An entry is the
  shortest run of lines that opens no more braces than it closes; while it is being read,
  each further line is asked for with another prompt. A line `exit` or `quit`, blanks
  aside, leaves when it would begin an entry. The end of input leaves too, and drops what
  was begun.

  - `flatten_lines`: the lines of a text make up the text.
  - `unread_readEntry`: what is unread is what follows the lines taken.
-/

import LoxSyntax.Text.Blank

namespace LoxSyntax.Prompt

/-! ## Lines -/

/-- A text in lines, each with its line feed. -/
def lines : List Char → List (List Char)
  | [] => []
  | c :: cs =>
    if c = '\n' then [c] :: lines cs
    else
      match lines cs with
      | [] => [[c]]
      | l :: ls => (c :: l) :: ls

/-- A line without its line feed. -/
def content (line : List Char) : String :=
  String.ofList (if line.getLast? = some '\n' then line.dropLast else line)

theorem flatten_lines (cs : List Char) : (lines cs).flatten = cs := by
  induction cs with
  | nil => rfl
  | cons c cs ih =>
    simp only [lines]
    split
    · simp [ih]
    · split
      · rename_i h
        rw [h] at ih
        simpa using ih
      · rename_i l ls h
        rw [h] at ih
        simpa using ih

/-! ## Entries -/

/-- How many more braces a line opens than it closes. -/
def balance (line : String) : Int := (line.toList.count '\x7b' : Int) - line.toList.count '\x7d'

def isLeaving (line : String) : Bool := Text.strip line = "exit" || Text.strip line = "quit"

/-- The lines of an entry that is still open, and the braces open in them. -/
structure Pending where
  /-- The latest line stands first. -/
  lines : List String
  openBraces : Int
  deriving DecidableEq, Repr

inductive Fed where
  | leave
  | more (p : Pending)
  | entry (text : String)
  deriving DecidableEq, Repr

namespace Pending

def start : Pending := ⟨[], 0⟩

def prompt (p : Pending) : String := if p.lines.isEmpty then "> " else ". "

def feed (p : Pending) (line : String) : Fed :=
  if p.lines.isEmpty && isLeaving line then .leave
  else
    let read : Pending := ⟨line :: p.lines, p.openBraces + balance line⟩
    if read.openBraces ≤ 0 then .entry (String.intercalate "\n" read.lines.reverse) else .more read

end Pending

/-- What one reading gave: an entry or none, the prompts shown, and the lines not read. -/
structure Reading where
  entry : Option String
  prompts : String
  unread : List (List Char)
  deriving DecidableEq, Repr

def readFrom (p : Pending) : List (List Char) → Reading
  | [] => ⟨none, p.prompt, []⟩
  | line :: rest =>
    match p.feed (content line) with
    | .leave => ⟨none, p.prompt, rest⟩
    | .entry text => ⟨some text, p.prompt, rest⟩
    | .more p' =>
      let r := readFrom p' rest
      { r with prompts := p.prompt ++ r.prompts }

def readEntry (input : List (List Char)) : Reading := readFrom .start input

theorem unread_readFrom (p : Pending) (input : List (List Char)) : (readFrom p input).unread <:+ input := by
  induction input generalizing p with
  | nil => exact List.suffix_refl _
  | cons line rest ih =>
    simp only [readFrom]
    split
    · exact List.suffix_cons _ _
    · exact List.suffix_cons _ _
    · exact (ih _).trans (List.suffix_cons _ _)

theorem unread_readEntry (input : List (List Char)) : (readEntry input).unread <:+ input :=
  unread_readFrom _ _

end LoxSyntax.Prompt
