/-
  LoxSyntax.Session — reading a token list step by step, with any reader at any place.

  The position counts the tokens in front of the current one and never passes the first
  end of file. In front of the first token stands the last one of the list. Each step
  follows some levels of nesting, which it is given. A reading that is abandoned, or that
  is nested more deeply, leaves the position where that happened: nothing is skipped. Each
  step's reports are its own.

  Any reader may read the operands of a binary step, also one that gives no tree: then
  the token, the truth value or the nothing it gives stands in the tree as a stray. A
  list of nodes cannot stand there, so a tree with such an operand has no data.

  - `position_leaving_le`: no step goes beyond the end.
  - `step_advance_of_isAtEnd`: at the end, advancing stays where it is.
-/

import LoxSyntax.Node.Data
import LoxSyntax.Program

namespace LoxSyntax

/-- What can be read at a place, without further words for its errors. -/
inductive Reader where
  | current
  | previous
  | isAtEnd
  | advance
  | check (kinds : List TokenKind)
  | match (kinds : List TokenKind)
  | synchronize
  | program
  | declaration
  | block
  | classDeclaration
  | function (what : String)
  | varDeclaration
  | statement
  | forStatement
  | ifStatement
  | printStatement
  | returnStatement
  | whileStatement
  | expressionStatement
  | expression
  | assignment
  | disjunction
  | conjunction
  | equality
  | comparison
  | term
  | factor
  | unary
  | call
  | primary
  deriving DecidableEq, Repr

inductive Step where
  | read (r : Reader)
  | consume (kind : TokenKind) (message : String)
  | error (message : String)
  | binary (operand : Reader) (operators : List TokenKind)
  | finishCall (callee : Node)

inductive Reply where
  | nothing
  | flag (b : Bool)
  | token (t : Token)
  | node (n : Node)
  | nodes (ns : List Node)
  /-- An error that was reported and is left to the caller. -/
  | signal
  /-- A tree that has no data. -/
  | unshown (e : Node.DataError)

namespace Reply

/-- The child that a reply is in a tree. -/
def child : Reply → Except Node.DataError Node
  | .nothing | .signal => .ok .absent
  | .flag b => .ok (.stray (.value (.boolean b)))
  | .token t => .ok (.stray (.token t))
  | .node n => .ok n
  | .nodes _ => .error (.notANode "list")
  | .unshown e => .error e

/-- The tree of an operator between two operands. -/
def join (left : Reply) (operator : Token) (right : Reply) : Reply :=
  match left.child, right.child with
  | .ok a, .ok b => .node (.binary a operator b)
  | .error e, _ | _, .error e => .unshown e

end Reply

structure Session where
  tokens : List Token
  input : TokenList
  position : Nat

inductive Answer where
  | reply (r : Reply)
  | abandoned
  /-- What is read is nested more deeply than is followed. -/
  | tooDeep

/-- What a step answers, what it reported, and the session behind it. -/
structure Reaction where
  answer : Answer
  reports : List Diagnostic
  session : Session

namespace Session

def ofTokens? (tokens : List Token) : Except TokenListError Session :=
  (TokenList.ofTokens? tokens).map fun input => ⟨tokens, input, 0⟩

/-- The tokens from the current one to the end of the program. -/
def rest (s : Session) : List Token := s.input.body.drop s.position

def isAtEnd (s : Session) : Bool := s.rest.isEmpty

/-- How many tokens of the program are in front of these last ones. -/
def place (s : Session) (rest : List Token) : Nat := s.input.body.length - rest.length

/-- The first of the last tokens, or the end of file. -/
def front (s : Session) (rest : List Token) : Token := rest.headD s.input.eof

/-- The token in front of the last ones. -/
def before (s : Session) (rest : List Token) : Token :=
  match s.place rest with
  | 0 => s.tokens.getLastD s.input.eof
  | n + 1 => s.tokens.getD n s.input.eof

/-- The session with these tokens left. -/
def leaving (s : Session) (rest : List Token) : Session := { s with position := s.place rest }

theorem position_leaving_le (s : Session) (rest : List Token) :
    (s.leaving rest).position ≤ s.input.body.length := Nat.sub_le _ _

/-! ## Readers -/

def expr (p : Parse Expr) : Parse Reply := (.node ·.toNode) <$> p

def stmt (p : Parse Stmt) : Parse Reply := (.node ·.toNode) <$> p

def stmts (p : Parse (List Stmt)) : Parse Reply := (.nodes <| stmtNodes ·) <$> p

/-- A reply that depends on the tokens that are left, and takes none. -/
def look (f : List Token → Reply) : Parse Reply := f <$> Parse.here

/-- Advances, and gives the token in front of the new place. -/
def taken (s : Session) : Parse Reply := do
  Parse.leave List.tail
  look fun ts => .token (s.before ts)

/-- A reader that follows `depth` levels of nesting. -/
def reader (s : Session) (depth : Nat) : Reader → Parse Reply
  | .current => look fun ts => .token (s.front ts)
  | .previous => look fun ts => .token (s.before ts)
  | .isAtEnd => look fun ts => .flag ts.isEmpty
  | .advance => s.taken
  | .check kinds => look fun ts => .flag (kinds.contains (s.front ts).kind)
  | .match kinds => do
    if kinds.contains (s.front (← Parse.here)).kind then s.taken else pure .nothing
  | .synchronize => do
    Parse.leave Parse.synchronize
    pure .nothing
  | .program => stmts (Parse.program depth)
  | .declaration => (fun d => (d.map fun d => Reply.node d.toNode).getD .nothing) <$> Parse.declaration depth
  | .block => stmts (Parse.block inner)
  | .classDeclaration => stmt (Parse.classDeclaration inner)
  | .function what => (.node ·.toNode) <$> Parse.function inner what
  | .varDeclaration => stmt (Parse.varDeclaration inner)
  | .statement => stmt (Parse.statement depth)
  | .forStatement => stmt (Parse.forStatement inner)
  | .ifStatement => stmt (Parse.ifStatement inner)
  | .printStatement => stmt (Parse.printStatement inner)
  | .returnStatement => do
    let keyword := s.before (← Parse.here)
    stmt (Parse.returnStatement inner keyword)
  | .whileStatement => stmt (Parse.whileStatement inner)
  | .expressionStatement => stmt (Parse.expressionStatement inner)
  | .expression => expr inner.expression
  | .assignment => expr (Parse.assignment inner.expression depth)
  | .disjunction => expr (Parse.disjunction inner.expression depth)
  | .conjunction => expr (Parse.conjunction inner.expression depth)
  | .equality => expr (Parse.equality inner.expression depth)
  | .comparison => expr (Parse.comparison inner.expression depth)
  | .term => expr (Parse.term inner.expression depth)
  | .factor => expr (Parse.factor inner.expression depth)
  | .unary => expr (Parse.unary inner.expression depth)
  | .call => expr (Parse.call inner.expression)
  | .primary => expr (Parse.primary inner.expression)
where
  inner := Parse.innerAt depth

/-- Operands joined from the left by operators of the given kinds. The end of file as an
    operator asks for an operand behind the end, where no reader of a tree succeeds. -/
def binary (operand : Parse Reply) (operators : List TokenKind) : Parse Reply := do
  let left ← Parse.chain operand Reply.join operators.contains
  if operators.contains .eof && (← Parse.here).isEmpty then operand else pure left

def finishCall (depth : Nat) (callee : Node) : Parse Reply := do
  let (as, paren) ← Parse.arguments (Parse.expression depth)
  pure (.node (.call callee paren (exprNodes as)))

/-! ## Steps -/

def answer : Outcome Reply → Answer
  | .value a _ => .reply a
  | .abandoned _ => .abandoned
  | .tooDeep _ => .tooDeep

def react (s : Session) (p : Parse Reply) : Reaction :=
  let parsed := p s.rest
  ⟨answer parsed.outcome, s.input.diagnostics parsed, s.leaving parsed.outcome.rest⟩

/-- A problem at the current token, in words of the caller's. -/
def diagnose (s : Session) (message : String) : Diagnostic := .syntactic (s.front s.rest) message

/-- A step in which `depth` levels of nesting are followed. -/
def step (s : Session) (depth : Nat) : Step → Reaction
  | .read r => s.react (s.reader depth r)
  | .consume kind message =>
    if (s.front s.rest).kind = kind then s.react s.taken else ⟨.abandoned, [s.diagnose message], s⟩
  | .error message => ⟨.reply .signal, [s.diagnose message], s⟩
  | .binary operand operators => s.react (binary (s.reader depth operand) operators)
  | .finishCall callee => s.react (finishCall depth callee)

theorem step_advance_of_isAtEnd {s : Session} (h : s.isAtEnd = true) (depth : Nat) :
    (s.step depth (.read .advance)).session = s.leaving s.rest := by
  have h' : s.rest = [] := by simpa [isAtEnd] using h
  simp only [step, react, h']
  rfl

end Session

end LoxSyntax
