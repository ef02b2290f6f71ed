/-
  LoxSyntax.CommandLine.Run — what a request writes, and how it ends.

  A file is text in UTF-8 whose line ends, in any of their three spellings, are read as
  line feeds; a source given as an argument is taken as it is. Problems are written to
  the error output as they are found, the lexical ones first; the tree only when there
  were none, the tokens always. The exit codes are 0, 65 for a source with problems or one
  that is nested too deeply to be parsed, 66 for a file that cannot be read, and 2 for
  wrong usage. A tree that is too high to be written ends the run without a code.
-/

import LoxSyntax.CommandLine.Arguments
import LoxSyntax.CommandLine.Folder
import LoxSyntax.Node.Data
import LoxSyntax.Prompt.Conversation

namespace LoxSyntax.CommandLine

/-- What ends a run without an exit code of its own. -/
inductive Failure where
  | notUtf8
  | badName
  /-- A tree that is too high to be written. -/
  | tooHigh
  deriving DecidableEq, Repr

inductive Ending where
  | exited (code : Nat)
  /-- The prompt was left. -/
  | returned
  | failed (f : Failure)
  deriving DecidableEq, Repr

structure Run where
  stdout : String
  stderr : String
  ending : Ending
  deriving DecidableEq, Repr

def exitOk : Nat := 0

def exitUsage : Nat := 2

def exitProblems : Nat := 65

def exitUnreadable : Nat := 66

/-! ## Sources -/

def tokenListing (display : Display) (ts : List Token) : String :=
  if display.json then (Json.array (ts.map Token.data)).write ++ "\n"
  else String.join (ts.map fun t => t.described ++ "\n")

/-- The trees of a program; none if they are too high. -/
def treeListing? (k : Stack) (display : Display) (statements : List Stmt) : Option String :=
  if display.json then
    if k.writes statements then some ((Json.array (statements.map Stmt.data)).write ++ "\n") else none
  else Prompt.trees? k statements

def codeFor (r : Reporter) : Nat := if r.hadError then exitProblems else exitOk

def tooDeep : String := "[error] >>> Too deeply nested.\n"

/-- Both passes report to one reporter, and its echo is the error output. -/
def runSource (k : Stack) (display : Display) (source : String) : Run :=
  let (ts, r) := (Reporter.new true).scan source
  if display.tokens then ⟨tokenListing display ts, r.echoed, .exited (codeFor r)⟩
  else
    match r.parseWithin (k.parsing ts) ts with
    | (none, r) => ⟨"", r.echoed ++ tooDeep, .exited exitProblems⟩
    | (some statements, r) =>
      if r.hadError then ⟨"", r.echoed, .exited exitProblems⟩
      else
        match treeListing? k display statements with
        | some text => ⟨text, r.echoed, .exited exitOk⟩
        | none => ⟨"", r.echoed, .failed .tooHigh⟩

/-! ## Files -/

/-- Line ends as line feeds. -/
def unifyLineEnds : List Char → List Char
  | '\r' :: '\n' :: cs => '\n' :: unifyLineEnds cs
  | '\r' :: cs => '\n' :: unifyLineEnds cs
  | c :: cs => c :: unifyLineEnds cs
  | [] => []

def decode? (data : ByteArray) : Option String :=
  (String.fromUTF8? data).map fun s => String.ofList (unifyLineEnds s.toList)

def unreadable (name : String) (e : FileError) : String :=
  "[error] >>> [Errno " ++ toString e.number ++ "] " ++ e.reason ++ ": " ++ Text.quote name ++ "\n"

def runFile (k : Stack) (display : Display) (name : String) : Except ReadFailure ByteArray → Run
  | .ok data =>
    match decode? data with
    | some source => runSource k display source
    | none => ⟨"", "", .failed .notUtf8⟩
  | .error (.unreadable e) => ⟨"", unreadable name e, .exited exitUnreadable⟩
  | .error .badName => ⟨"", "", .failed .badName⟩

/-! ## Requests -/

/-- A run in a folder, with an input for the prompt. -/
def run (k : Stack) (folder : Folder) (input : String) (arguments : List String) : Run :=
  match parse arguments with
  | .help => ⟨help, "", .exited exitOk⟩
  | .usage e => ⟨"", usage e, .exited exitUsage⟩
  | .prompt showTokens =>
    let t := Prompt.converse k showTokens (Prompt.lines input.toList)
    ⟨t.output, t.errors, if t.broken then .failed .tooHigh else .returned⟩
  | .text source display => runSource k display source
  | .file name display => runFile k display name (folder.read name)

end LoxSyntax.CommandLine
