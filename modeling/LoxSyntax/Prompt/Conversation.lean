/-
  LoxSyntax.Prompt.Conversation — what the prompt answers, entry by entry.

  A blank entry has no answer. `:tokens` switches the display of tokens. Any other entry
  is scanned and parsed into the reporter of the conversation, which is reset before: what
  it then holds is answered, or else the printed tree of the entry, with its tokens in
  front when they are displayed. An entry that is nested too deeply to be parsed is
  answered with a trace and leaves its problems in the reporter. One whose tree is too high
  to be printed breaks the conversation off, without an answer and without a farewell.

  - `respond_blank`: a blank entry changes nothing.
-/

import LoxSyntax.Program
import LoxSyntax.Prompt.Entry
import LoxSyntax.Stack

namespace LoxSyntax.Prompt

def banner : String := "Lox front end. Type 'exit' or 'quit' to leave.\n"

def farewell : String := "Exiting Lox REPL.\n"

/-- What a conversation keeps from one entry to the next. -/
structure Shell where
  showTokens : Bool
  reporter : Reporter
  deriving DecidableEq, Repr

def Shell.start (showTokens : Bool) : Shell := ⟨showTokens, .new false⟩

structure Response where
  output : String
  shell : Shell
  /-- The tree of the entry could not be printed, which ends the conversation. -/
  broken : Bool
  deriving DecidableEq, Repr

def tokenDisplay (ts : List Token) : String :=
  "[tokens] >>>\n" ++ String.join (ts.map fun t => "  " ++ t.described ++ "\n")

def modeLine (showTokens : Bool) : String :=
  "[mode] >>> Token display " ++ (if showTokens then "ON" else "OFF") ++ "\n"

def problems (ds : List Diagnostic) : String := "[error] >>>\n" ++ String.join (ds.map Reporter.echoLine)

/-- The trees of a program, or nothing if it is empty; none if they are too high. -/
def trees? (k : Stack) (statements : List Stmt) : Option String :=
  if statements.isEmpty then some ""
  else if k.prints statements then some (printProgram statements ++ "\n")
  else none

/-- What is answered to a nesting that is not followed. -/
def overflow (k : Stack) (entry : String) : String := "[error] >>>\n" ++ k.trace entry ++ "\n"

/-- The answer to an entry that is parsed. -/
def evaluate (k : Stack) (s : Shell) (entry : String) : Response :=
  let (ts, r) := s.reporter.reset.scan entry
  let shown := if s.showTokens then tokenDisplay ts else ""
  match r.parseWithin (k.parsing ts) ts with
  | (none, r) => ⟨shown ++ overflow k entry, { s with reporter := r }, false⟩
  | (some statements, r) =>
    if r.hadError then ⟨shown ++ problems r.diagnostics, { s with reporter := r }, false⟩
    else
      match trees? k statements with
      | some text => ⟨shown ++ text, { s with reporter := r }, false⟩
      | none => ⟨shown, { s with reporter := r }, true⟩

def respond (k : Stack) (s : Shell) (entry : String) : Response :=
  let stripped := Text.strip entry
  if stripped = "" then ⟨"", s, false⟩
  else if stripped = ":tokens" then
    ⟨modeLine (!s.showTokens), { s with showTokens := !s.showTokens }, false⟩
  else evaluate k s entry

theorem respond_blank {entry : String} (h : entry.toList.all Text.isBlank = true) (k : Stack) (s : Shell) :
    respond k s entry = ⟨"", s, false⟩ := by
  simp [respond, Text.strip_of_blank h]

/-! ## Whole conversations -/

/-- What was written, to the output and to the error output, the lines left unread, and
    whether the conversation broke off. -/
structure Transcript where
  output : String
  errors : String
  unread : List (List Char)
  broken : Bool
  deriving DecidableEq, Repr

/-- At most `n` entries: each takes a line at least. -/
def converseFrom (k : Stack) : Nat → Shell → List (List Char) → Transcript
  | 0, s, input => ⟨"", s.reporter.echoed, input, false⟩
  | n + 1, s, input =>
    let r := readEntry input
    match r.entry with
    | none => ⟨r.prompts ++ farewell, s.reporter.echoed, r.unread, false⟩
    | some entry =>
      let response := respond k s entry
      if response.broken then
        ⟨r.prompts ++ response.output, response.shell.reporter.echoed, r.unread, true⟩
      else
        let t := converseFrom k n response.shell r.unread
        { t with output := r.prompts ++ response.output ++ t.output }

/-- A conversation on the lines of an input. -/
def converse (k : Stack) (showTokens : Bool) (input : List (List Char)) : Transcript :=
  let t := converseFrom k (input.length + 1) (.start showTokens) input
  { t with output := banner ++ t.output }

end LoxSyntax.Prompt
