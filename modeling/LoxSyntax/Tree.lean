/-
  LoxSyntax.Tree — the syntax trees of Lox.

  A tree keeps the tokens that later stages need to name a place: names, operators, the
  closing parenthesis of a call, and the keywords this, super and return. Parentheses
  around an expression are kept as a node. There is no `for` node: such a loop is a
  `while` with its clauses placed around and inside it (`Stmt.forLoop`).

  - `Expr.assignTo?_isSome`: exactly a name and a property can be assigned to.
-/

import LoxSyntax.Token

namespace LoxSyntax

inductive Expr where
  | literal (value : Literal)
  | grouping (inner : Expr)
  | unary (operator : Token) (operand : Expr)
  | binary (left : Expr) (operator : Token) (right : Expr)
  | logical (left : Expr) (operator : Token) (right : Expr)
  | ident (name : Token)
  | assign (name : Token) (value : Expr)
  /-- `paren` is the closing parenthesis. -/
  | call (callee : Expr) (paren : Token) (arguments : List Expr)
  | get (object : Expr) (name : Token)
  | set (object : Expr) (name : Token) (value : Expr)
  | this (keyword : Token)
  | super (keyword method : Token)

mutual

inductive Stmt where
  | expression (value : Expr)
  | print (value : Expr)
  | var (name : Token) (initializer : Option Expr)
  | block (body : List Stmt)
  | ifThen (condition : Expr) (thenBranch : Stmt)
  | ifElse (condition : Expr) (thenBranch elseBranch : Stmt)
  | while (condition : Expr) (body : Stmt)
  | function (declaration : Function)
  | return (keyword : Token) (value : Option Expr)
  | class (name : Token) (superclass : Option Token) (methods : List Function)

/-- A function or a method. -/
inductive Function where
  | mk (name : Token) (params : List Token) (body : List Stmt)

end

namespace Expr

/-- The assignment of a value to the place that an expression names. -/
def assignTo? : Expr → Expr → Option Expr
  | .ident name, value => some (.assign name value)
  | .get object name, value => some (.set object name value)
  | _, _ => none

/-- The expressions that name a place. -/
def IsPlace : Expr → Prop
  | .ident _ => True
  | .get _ _ => True
  | _ => False

theorem assignTo?_isSome (target value : Expr) : (target.assignTo? value).isSome ↔ target.IsPlace := by
  cases target <;> simp [assignTo?, IsPlace]

end Expr

namespace Stmt

def followedBy (body : Stmt) : Option Expr → Stmt
  | some increment => .block [body, .expression increment]
  | none => body

def precededBy (loop : Stmt) : Option Stmt → Stmt
  | some initializer => .block [initializer, loop]
  | none => loop

/-- A `for` loop as a `while` loop: the increment ends the body, the initializer stands
    before the loop, each in a block of its own, and a missing condition is true. -/
def forLoop (initializer : Option Stmt) (condition increment : Option Expr) (body : Stmt) : Stmt :=
  precededBy (.while (condition.getD (.literal (.boolean true))) (body.followedBy increment)) initializer

end Stmt

end LoxSyntax
