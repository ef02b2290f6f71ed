/-
  LoxSyntax.Program — programs from token lists and from source text.

  A token list has to end with an end of file; the program is what stands before the
  first one, and that one is blamed when something is missing at the end. Parsing follows
  every nesting, since a list cannot be nested more deeply than it is long. Into a reporter
  a list can be parsed within a number of levels; then there are no statements when there
  are more, and what was found up to there stays reported. A source is scanned and parsed
  into one reporter, so its problems are the lexical ones, then the syntactic ones.

  - `body_ofTokens?`: no end of file is left in the program.
-/

import LoxSyntax.Node.Render
import LoxSyntax.Parse.Statement
import LoxSyntax.Scanner

namespace LoxSyntax

/-- A program's tokens, and the end of file behind them. -/
structure TokenList where
  body : List Token
  eof : Token
  deriving DecidableEq, Repr

inductive TokenListError where
  | noEof
  deriving DecidableEq, Repr

def TokenListError.message : TokenListError → String
  | .noEof => "Token list must end with an EOF token."

namespace TokenList

def endsWithEof (ts : List Token) : Bool := ts.getLast?.any Token.isEof

def ofTokens? (ts : List Token) : Except TokenListError TokenList :=
  if endsWithEof ts then
    match ts.dropWhile (!·.isEof) with
    | eof :: _ => .ok ⟨ts.takeWhile (!·.isEof), eof⟩
    | [] => .error .noEof
  else .error .noEof

theorem mem_takeWhile {p : α → Bool} {x : α} {xs : List α} (h : x ∈ xs.takeWhile p) : p x = true := by
  induction xs with
  | nil => cases h
  | cons y ys ih =>
    rw [List.takeWhile_cons] at h
    split at h
    · rename_i hy
      rcases List.mem_cons.1 h with rfl | h
      · exact hy
      · exact ih h
    · cases h

theorem body_ofTokens? {ts : List Token} {l : TokenList} (h : ofTokens? ts = .ok l) :
    ∀ t ∈ l.body, t.isEof = false := by
  unfold ofTokens? at h
  split at h
  · split at h
    · cases h
      intro t ht
      simpa using mem_takeWhile ht
    · cases h
  · cases h

/-- Reads the program, `depth` levels of nesting at most. -/
def parseWithin (depth : Nat) (l : TokenList) : Parsed (List Stmt) := Parse.program depth l.body

def diagnostics (l : TokenList) (p : Parsed α) : List Diagnostic := p.reports.map (·.diagnostic l.eof)

end TokenList

/-- What a reading gave; nothing unless it came to its end. -/
def Outcome.value? : Outcome α → Option α
  | .value a _ => some a
  | _ => none

/-- Statements and the problems found on the way to them. -/
structure Program where
  statements : List Stmt
  diagnostics : List Diagnostic

namespace Program

def ok (p : Program) : Bool := p.diagnostics.isEmpty

def printed (p : Program) : String := printProgram p.statements

end Program

def TokenList.parse (l : TokenList) : Program :=
  let p := l.parseWithin (l.body.length + 1)
  ⟨p.outcome.value?.getD [], l.diagnostics p⟩

def parseTokens (ts : List Token) : Except TokenListError Program := (TokenList.ofTokens? ts).map TokenList.parse

/-! ## Into a reporter -/

/-- Parses tokens into a reporter, `depth` levels of nesting at most. There are no statements
    when there are more. -/
def Reporter.parseWithin (r : Reporter) (depth : Nat) (ts : List Token) : Option (List Stmt) × Reporter :=
  match TokenList.ofTokens? ts with
  | .ok l =>
    let p := l.parseWithin depth
    (p.outcome.value?, r.reportAll (l.diagnostics p))
  | .error _ => (some [], r)

/-- Scans and parses a source into a reporter. Of what is recorded there, the program has what
    this source added. -/
def Reporter.parseSource (r : Reporter) (source : String) : Program × Reporter :=
  let already := r.count
  let (ts, r) := r.scan source
  let (statements, r) := r.parseWithin (ts.length + 1) ts
  (⟨statements.getD [], r.diagnostics.drop already⟩, r)

/-- The program of a source, with a reporter of its own. -/
def parseSource (source : String) : Program := ((Reporter.new false).parseSource source).1

end LoxSyntax
