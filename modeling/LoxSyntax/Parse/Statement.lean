/-
  LoxSyntax.Parse.Statement — reading statements and declarations.

  A declaration of a class, a function or a variable may stand in a program and in a
  block; the branches of `if` and the bodies of loops are statements. An `else` belongs to
  the nearest `if`. A `for` loop is read as the `while` loop that it stands for. A
  declaration that is abandoned is left out, and reading goes on behind it; one inside a
  block leaves the block as it is.

  `Inner` holds the readers for what is nested inside; they follow one level less.
-/

import LoxSyntax.Parse.Expression

namespace LoxSyntax.Parse

structure Inner where
  expression : Parse Expr
  statement : Parse Stmt
  declaration : Parse (Option Stmt)

/-- Declarations up to the closing brace, and the brace. -/
def block (inner : Inner) : Parse (List Stmt) := do
  let body ← repeatUntil (· == .rightBrace) (Option.toList <$> inner.declaration) (← here)
  let _ ← expect .rightBrace .noBraceAfterBlock
  pure body

/-! ## Declarations -/

/-- A function or method behind its keyword; `what` is the word for it in messages. -/
def function (inner : Inner) (what : String) : Parse Function := do
  let name ← expect .identifier (.noDeclaredName what)
  let _ ← expect .leftParen (.noParenAfterName what)
  let params ← itemsBeforeParen (expect .identifier .noParameterName) .tooManyParameters
  let _ ← expect .rightParen .noParenAfterParameters
  let _ ← expect .leftBrace (.noBraceBeforeBody what)
  let body ← block inner
  pure (.mk name params body)

def superclass : Parse (Option Token) :=
  whenNext (· == .less) (fun _ => some <$> expect .identifier .noSuperclassName) (pure none)

def classDeclaration (inner : Inner) : Parse Stmt := do
  let name ← expect .identifier .noClassName
  let parent ← superclass
  let _ ← expect .leftBrace .noBraceBeforeClassBody
  let methods ← repeatUntil (· == .rightBrace) ((fun f => [f]) <$> function inner "method") (← here)
  let _ ← expect .rightBrace .noBraceAfterClassBody
  pure (.class name parent methods)

def initializer (inner : Inner) : Parse (Option Expr) :=
  whenNext (· == .equal) (fun _ => some <$> inner.expression) (pure none)

def varDeclaration (inner : Inner) : Parse Stmt := do
  let name ← expect .identifier .noVariableName
  let value ← initializer inner
  let _ ← expect .semicolon .noSemicolonAfterVariable
  pure (.var name value)

/-! ## Statements -/

def expressionStatement (inner : Inner) : Parse Stmt := do
  let e ← inner.expression
  let _ ← expect .semicolon .noSemicolonAfterExpression
  pure (.expression e)

def printStatement (inner : Inner) : Parse Stmt := do
  let e ← inner.expression
  let _ ← expect .semicolon .noSemicolonAfterValue
  pure (.print e)

/-- An expression, unless the token that may stand in its place is next. -/
def expressionUnless (inner : Inner) (stop : TokenKind) : Parse (Option Expr) := do
  if ← nextIs (· == stop) then pure none else some <$> inner.expression

def returnStatement (inner : Inner) (keyword : Token) : Parse Stmt := do
  let value ← expressionUnless inner .semicolon
  let _ ← expect .semicolon .noSemicolonAfterReturnValue
  pure (.return keyword value)

def whileStatement (inner : Inner) : Parse Stmt := do
  let _ ← expect .leftParen .noParenAfterWhile
  let condition ← inner.expression
  let _ ← expect .rightParen .noParenAfterCondition
  let body ← inner.statement
  pure (.while condition body)

def ifStatement (inner : Inner) : Parse Stmt := do
  let _ ← expect .leftParen .noParenAfterIf
  let condition ← inner.expression
  let _ ← expect .rightParen .noParenAfterIfCondition
  let thenBranch ← inner.statement
  whenNext (· == .kwElse) (fun _ => .ifElse condition thenBranch <$> inner.statement)
    (pure (.ifThen condition thenBranch))

def initializerRule (inner : Inner) (t : Token) : Option (Parse (Option Stmt)) :=
  match t.kind with
  | .semicolon => some (pure none)
  | .kwVar => some (some <$> varDeclaration inner)
  | _ => none

/-- The first clause of a `for` loop, with its semicolon. -/
def loopInitializer (inner : Inner) : Parse (Option Stmt) :=
  dispatch (initializerRule inner) (some <$> expressionStatement inner)

def forStatement (inner : Inner) : Parse Stmt := do
  let _ ← expect .leftParen .noParenAfterFor
  let start ← loopInitializer inner
  let condition ← expressionUnless inner .semicolon
  let _ ← expect .semicolon .noSemicolonAfterLoopCondition
  let increment ← expressionUnless inner .rightParen
  let _ ← expect .rightParen .noParenAfterClauses
  let body ← inner.statement
  pure (.forLoop start condition increment body)

def statementRule (inner : Inner) (t : Token) : Option (Parse Stmt) :=
  match t.kind with
  | .kwFor => some (forStatement inner)
  | .kwIf => some (ifStatement inner)
  | .kwPrint => some (printStatement inner)
  | .kwReturn => some (returnStatement inner t)
  | .kwWhile => some (whileStatement inner)
  | .leftBrace => some (.block <$> block inner)
  | _ => none

def statementForm (inner : Inner) : Parse Stmt := dispatch (statementRule inner) (expressionStatement inner)

def declarationRule (inner : Inner) (t : Token) : Option (Parse Stmt) :=
  match t.kind with
  | .kwClass => some (classDeclaration inner)
  | .kwFun => some (.function <$> function inner "function")
  | .kwVar => some (varDeclaration inner)
  | _ => none

def declarationForm (inner : Inner) : Parse Stmt := dispatch (declarationRule inner) (statementForm inner)

/-! ## Nesting -/

mutual

def statement : Nat → Parse Stmt
  | 0 => tooDeep
  | depth + 1 => statementForm ⟨expression (depth + 1), statement depth, declaration depth⟩

def declaration : Nat → Parse (Option Stmt)
  | 0 => tooDeep
  | depth + 1 => recover (declarationForm ⟨expression (depth + 1), statement depth, declaration depth⟩)

end

/-- The readers for what stands inside, `depth` levels followed. -/
def innerAt (depth : Nat) : Inner := ⟨expression depth, statement depth, declaration depth⟩

/-- A whole program. -/
def program (depth : Nat) : Parse (List Stmt) := do
  repeatUntil (fun _ => false) (Option.toList <$> declaration depth) (← here)

end LoxSyntax.Parse
