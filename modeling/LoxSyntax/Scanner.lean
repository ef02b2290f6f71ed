/-
  LoxSyntax.Scanner — from source text to tokens, one token at a time.

  A scanner reads from a cursor and remembers where the token at hand starts. Spaces,
  tabs, carriage returns, line ends and `//` comments give no token. A string runs to the
  next quote, over line ends if need be, and has no escapes; a number takes a point only
  with a digit behind it. A character that starts no token, and a string without an end,
  are reported and scanning goes on behind them.

  The single steps may be taken in any order, so the start of the token at hand can be
  far behind: then a lexeme holds all that was read since. Steps fail when they read past
  the end, and when a lexeme that should be a number cannot be read as one. A scan of a
  whole source marks the start before each token.

  - `scanToken_of_atEnd`: at the end of the source a token cannot be scanned.
  - `tokens_addToken` / `diagnostics_report`: what a step adds.
-/

import LoxSyntax.CharClass
import LoxSyntax.Cursor
import LoxSyntax.Diagnostic
import LoxSyntax.Text.Quoted

namespace LoxSyntax

inductive ScanError where
  | read (e : ReadError)
  | notANumber (lexeme : String)
  deriving DecidableEq, Repr

def ScanError.message : ScanError → String
  | .read e => e.message
  | .notANumber lexeme => "could not convert string to float: " ++ Text.quote lexeme

structure Scanner where
  cursor : Cursor
  /-- Where the token at hand starts. -/
  start : Int
  startColumn : Int
  tokens : Array Token
  diagnostics : Array Diagnostic
  deriving DecidableEq, Repr

/-- A step that failed, and the scanner as the failure left it. -/
structure Stopped where
  error : ScanError
  scanner : Scanner

/-- The operators and brackets that no second character can extend. -/
def punctuation? : Char → Option TokenKind
  | '(' => some .leftParen
  | ')' => some .rightParen
  | '\x7b' => some .leftBrace
  | '\x7d' => some .rightBrace
  | ',' => some .comma
  | '.' => some .dot
  | '-' => some .minus
  | '+' => some .plus
  | ';' => some .semicolon
  | '*' => some .star
  | _ => none

/-- The operators that a following `=` extends: with it and alone. -/
def comparison? : Char → Option (TokenKind × TokenKind)
  | '!' => some (.bangEqual, .bang)
  | '=' => some (.equalEqual, .equal)
  | '<' => some (.lessEqual, .less)
  | '>' => some (.greaterEqual, .greater)
  | _ => none

/-- The blanks between tokens. -/
def isSpace (c : Char) : Bool := c == ' ' || c == '\r' || c == '\t' || c == '\n'

namespace Scanner

def ofSource (source : String) : Scanner := ⟨.ofSource source, 0, 1, #[], #[]⟩

/-- The token at hand starts here. -/
def mark (s : Scanner) : Scanner := { s with start := s.cursor.position, startColumn := s.cursor.column }

def lexeme (s : Scanner) : String := String.ofList (s.cursor.slice s.start s.cursor.position)

def addToken (s : Scanner) (kind : TokenKind) (literal : Literal) : Scanner :=
  { s with tokens := s.tokens.push ⟨kind, s.lexeme, literal, s.cursor.line, s.startColumn⟩ }

def addEof (s : Scanner) : Scanner :=
  { s with tokens := s.tokens.push ⟨.eof, "", .nil, s.cursor.line, s.cursor.column⟩ }

def report (s : Scanner) (message : String) : Scanner :=
  { s with diagnostics := s.diagnostics.push (.lexical s.cursor.line message) }

/-- Goes on with the cursor of a reading that succeeded. -/
def onward (s : Scanner) (r : Except ReadError α) (k : α → Except Stopped Scanner) : Except Stopped Scanner :=
  match r with
  | .ok a => k a
  | .error e => .error ⟨.read e, s⟩

def skipComment (s : Scanner) : Except Stopped Scanner :=
  s.onward (s.cursor.skipWhile (· != '\n')) fun cursor => .ok { s with cursor }

/-- The rest of a string whose opening quote was read. -/
def string (s : Scanner) : Except Stopped Scanner :=
  s.onward (s.cursor.skipWhile (· != '"')) fun cursor =>
    let s := { s with cursor }
    if cursor.atEnd then .ok (s.report "Unterminated string.")
    else
      s.onward cursor.next fun (_, cursor) =>
        .ok ({ s with cursor }.addToken .string
          (.text (String.ofList (cursor.slice (s.start + 1) (cursor.position - 1)))))

/-- The end of a number: the lexeme is its text. -/
def finishNumber (s : Scanner) : Except Stopped Scanner :=
  match Binary64.ofText? s.lexeme with
  | some x => .ok (s.addToken .number (.number x))
  | none => .error ⟨.notANumber s.lexeme, s⟩

def number (s : Scanner) : Except Stopped Scanner :=
  s.onward (s.cursor.skipWhile isDigit) fun cursor =>
    let s := { s with cursor }
    if cursor.peek 0 = some '.' && (cursor.peek 1).any isDigit then
      s.onward cursor.next fun (_, cursor) =>
        s.onward (cursor.skipWhile isDigit) fun cursor => finishNumber { s with cursor }
    else s.finishNumber

/-- A reserved word, or a name. -/
def wordKind (lexeme : String) : TokenKind := (TokenKind.ofWord? lexeme).getD .identifier

def identifier (s : Scanner) : Except Stopped Scanner :=
  s.onward (s.cursor.skipWhile isAlphanumeric) fun cursor =>
    let s := { s with cursor }
    .ok (s.addToken (wordKind s.lexeme) .nil)

/-- The token that starts with the character `c`, which was just read. -/
def finishToken (s : Scanner) (c : Char) : Except Stopped Scanner :=
  match punctuation? c, comparison? c with
  | some kind, _ => .ok (s.addToken kind .nil)
  | none, some (extended, alone) =>
    s.onward (s.cursor.accept "=") fun (taken, cursor) =>
      .ok ({ s with cursor }.addToken (if taken then extended else alone) .nil)
  | none, none =>
    if c = '/' then
      s.onward (s.cursor.accept "/") fun (taken, cursor) =>
        let s := { s with cursor }
        if taken then s.skipComment else .ok (s.addToken .slash .nil)
    else if isSpace c then .ok s
    else if c = '"' then s.string
    else if isDigit c then s.number
    else if isAlpha c then s.identifier
    else .ok (s.report "Unexpected character.")

def scanToken (s : Scanner) : Except Stopped Scanner :=
  s.onward s.cursor.next fun (c, cursor) => { s with cursor }.finishToken c

/-- Scans tokens to the end of the source, `n` at most. -/
def scanRest : Nat → Scanner → Except Stopped Scanner
  | 0, s => .ok s
  | n + 1, s =>
    if s.cursor.atEnd then .ok s
    else
      match s.mark.scanToken with
      | .ok s => scanRest n s
      | .error e => .error e

def scanTokens (s : Scanner) : Except Stopped Scanner :=
  match s.scanRest s.cursor.remaining with
  | .ok s => .ok s.addEof
  | .error e => .error e

/-! ## What a step adds -/

@[simp] theorem tokens_addToken (s : Scanner) (kind : TokenKind) (literal : Literal) :
    (s.addToken kind literal).tokens.toList =
      s.tokens.toList ++ [⟨kind, s.lexeme, literal, s.cursor.line, s.startColumn⟩] := by
  simp [addToken]

@[simp] theorem diagnostics_report (s : Scanner) (message : String) :
    (s.report message).diagnostics.toList = s.diagnostics.toList ++ [.lexical s.cursor.line message] := by
  simp [report]

theorem scanToken_of_atEnd {s : Scanner} (h : (s.cursor.source.size : Int) ≤ s.cursor.position) :
    s.scanToken = .error ⟨.read (.pastEnd s.cursor.position s.cursor.line), s⟩ := by
  simp [scanToken, onward, Cursor.next_eq_error_pastEnd h]

end Scanner

/-! ## Scanning a source -/

structure Scan where
  tokens : List Token
  diagnostics : List Diagnostic
  deriving DecidableEq, Repr

def Scanner.result (s : Scanner) : Scan := ⟨s.tokens.toList, s.diagnostics.toList⟩

/-- All tokens of a source, the end of file last, and what was reported on the way. -/
def scan (source : String) : Scan :=
  match (Scanner.ofSource source).scanTokens with
  | .ok s => s.result
  | .error stopped => stopped.scanner.result

/-- Scans into a reporter. -/
def Reporter.scan (r : Reporter) (source : String) : List Token × Reporter :=
  let result := LoxSyntax.scan source
  (result.tokens, r.reportAll result.diagnostics)

end LoxSyntax
