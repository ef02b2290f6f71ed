/-
  LoxSyntax.Proofs.Grammar.Written — the tokens that write a tree.

  A tree is written in source order: the names, operators, keywords and closing
  parentheses of calls that it keeps, and tokens of the writer's own for the literals and
  for everything that no tree keeps. Nothing is added to what the tree says, so a group is
  written where the tree has one and nowhere else, and a loop is written with `while`.

  - `Writer.plain`: a writer whose tokens all stand in one place.
  - `Writer.expr`, `Writer.part`: the tokens for an expression, and for each part of a program.
-/

import LoxSyntax.Proofs.Grammar.Clause

namespace LoxSyntax.Grammar

/-- The tokens for what a tree does not keep. -/
structure Writer where
  token (k : TokenKind) : Terminal k
  literal (v : Literal) : { t : Token // literalValue? t = some v }

namespace Writer

def plain : Writer where
  token k := ⟨⟨k, "", .nil, 1, 1⟩, rfl⟩
  literal
    | .nil => ⟨⟨.kwNil, "nil", .nil, 1, 1⟩, rfl⟩
    | .boolean true => ⟨⟨.kwTrue, "true", .nil, 1, 1⟩, rfl⟩
    | .boolean false => ⟨⟨.kwFalse, "false", .nil, 1, 1⟩, rfl⟩
    | .number x => ⟨⟨.number, (Literal.number x).spelling, .number x, 1, 1⟩, rfl⟩
    | .text s => ⟨⟨.string, s, .text s, 1, 1⟩, rfl⟩

variable (w : Writer)

/-- Items with commas between them. -/
def separated (items : List (List Token)) : List Token := [(w.token .comma).1].intercalate items

theorem separated_singleton (item : List Token) : w.separated [item] = item := List.intercalate_singleton

theorem separated_cons_cons (item item' : List Token) (items : List (List Token)) :
    w.separated (item :: item' :: items) = item ++ (w.token .comma).1 :: w.separated (item' :: items) := by
  simp [separated, List.intercalate_cons_cons]

/-! ## Expressions -/

mutual

def expr : Expr → List Token
  | .literal value => [(w.literal value).1]
  | .grouping inner => (w.token .leftParen).1 :: (expr inner ++ [(w.token .rightParen).1])
  | .unary operator operand => operator :: expr operand
  | .binary left operator right => expr left ++ operator :: expr right
  | .logical left operator right => expr left ++ operator :: expr right
  | .ident name => [name]
  | .assign name value => name :: (w.token .equal).1 :: expr value
  | .call callee paren arguments =>
    expr callee ++ (w.token .leftParen).1 :: (w.separated (exprs arguments) ++ [paren])
  | .get object name => expr object ++ [(w.token .dot).1, name]
  | .set object name value => expr object ++ (w.token .dot).1 :: name :: (w.token .equal).1 :: expr value
  | .this keyword => [keyword]
  | .super keyword method => [keyword, (w.token .dot).1, method]

def exprs : List Expr → List (List Token)
  | [] => []
  | e :: es => expr e :: exprs es

end

theorem expr_join (l : Level) (left right : Expr) (operator : Token) :
    w.expr (l.join left operator right) = w.expr left ++ operator :: w.expr right := by
  cases l <;> rfl

/-! ## Statements -/

def optional (e : Option Expr) : List Token := e.elim [] w.expr

def initializer (e : Option Expr) : List Token := e.elim [] fun e => (w.token .equal).1 :: w.expr e

def superclass (name : Option Token) : List Token := name.elim [] fun name => [(w.token .less).1, name]

/-- What stands between parentheses behind a keyword. -/
def condition (e : Expr) : List Token := (w.token .leftParen).1 :: (w.expr e ++ [(w.token .rightParen).1])

def parameters (names : List Token) : List Token := w.separated (names.map fun name => [name])

mutual

def stmt : Stmt → List Token
  | .expression value => w.expr value ++ [(w.token .semicolon).1]
  | .print value => (w.token .kwPrint).1 :: (w.expr value ++ [(w.token .semicolon).1])
  | .var name value => (w.token .kwVar).1 :: name :: (w.initializer value ++ [(w.token .semicolon).1])
  | .block body => (w.token .leftBrace).1 :: (program body ++ [(w.token .rightBrace).1])
  | .ifThen condition thenBranch => (w.token .kwIf).1 :: (w.condition condition ++ stmt thenBranch)
  | .ifElse condition thenBranch elseBranch =>
    (w.token .kwIf).1 :: (w.condition condition ++ stmt thenBranch ++ (w.token .kwElse).1 :: stmt elseBranch)
  | .while condition body => (w.token .kwWhile).1 :: (w.condition condition ++ stmt body)
  | .function f => (w.token .kwFun).1 :: function f
  | .return keyword value => keyword :: (w.optional value ++ [(w.token .semicolon).1])
  | .class name parent ms =>
    (w.token .kwClass).1 :: name :: (w.superclass parent ++
      (w.token .leftBrace).1 :: (methods ms ++ [(w.token .rightBrace).1]))

def function : Function → List Token
  | .mk name params body =>
    name :: (w.token .leftParen).1 :: (w.parameters params ++
      (w.token .rightParen).1 :: (w.token .leftBrace).1 :: (program body ++ [(w.token .rightBrace).1]))

def program : List Stmt → List Token
  | [] => []
  | s :: ss => stmt s ++ program ss

def methods : List Function → List Token
  | [] => []
  | f :: fs => function f ++ methods fs

end

def part : (p : Part) → p.Tree → List Token
  | .program => w.program
  | .declaration => w.stmt
  | .statement => w.stmt
  | .function => w.function
  | .methods => w.methods

end Writer

end LoxSyntax.Grammar
