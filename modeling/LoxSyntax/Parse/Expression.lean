/-
  LoxSyntax.Parse.Expression — reading expressions.

  From loosest to tightest: assignment, `or`, `and`, equality, comparison, sum, product,
  unary operators, calls and properties, primary expressions. Assignment and the unary
  operators group to the right, all other operators to the left. What may be assigned to
  is decided only after the value was read; anything else keeps the left side and drops
  the value.

  `inner` reads the expressions inside: between parentheses, arguments, assigned values.
  Nesting is bounded by `depth`, which every such step and every unary operator uses up
  by one; a depth above the number of tokens is never used up.
-/

import LoxSyntax.Parse.Basic
import LoxSyntax.Tree

namespace LoxSyntax.Parse

def isEqualityOperator (k : TokenKind) : Bool := k == .bangEqual || k == .equalEqual

def isComparisonOperator (k : TokenKind) : Bool :=
  k == .greater || k == .greaterEqual || k == .less || k == .lessEqual

def isTermOperator (k : TokenKind) : Bool := k == .minus || k == .plus

def isFactorOperator (k : TokenKind) : Bool := k == .slash || k == .star

def isUnaryOperator (k : TokenKind) : Bool := k == .bang || k == .minus

/-! ## Primary expressions and calls -/

def superMethod (keyword : Token) : Parse Expr := do
  let _ ← expect .dot .noDotAfterSuper
  let method ← expect .identifier .noSuperMethodName
  pure (.super keyword method)

def grouped (inner : Parse Expr) : Parse Expr := do
  let e ← inner
  let _ ← expect .rightParen .noParenAfterExpression
  pure (.grouping e)

def primaryRule (inner : Parse Expr) (t : Token) : Option (Parse Expr) :=
  match t.kind with
  | .kwFalse => some (pure (.literal (.boolean false)))
  | .kwTrue => some (pure (.literal (.boolean true)))
  | .kwNil => some (pure (.literal .nil))
  | .number | .string => some (pure (.literal t.literal))
  | .kwSuper => some (superMethod t)
  | .kwThis => some (pure (.this t))
  | .identifier => some (pure (.ident t))
  | .leftParen => some (grouped inner)
  | _ => none

def primary (inner : Parse Expr) : Parse Expr := dispatch (primaryRule inner) (fail .noExpression)

/-- The arguments behind an opening parenthesis, and the closing one. -/
def arguments (inner : Parse Expr) : Parse (List Expr × Token) := do
  let as ← itemsBeforeParen inner .tooManyArguments
  let paren ← expect .rightParen .noParenAfterArguments
  pure (as, paren)

def finishCall (inner : Parse Expr) (callee : Expr) : Parse Expr := do
  let (as, paren) ← arguments inner
  pure (.call callee paren as)

def property (object : Expr) : Parse Expr := do
  let name ← expect .identifier .noPropertyName
  pure (.get object name)

/-- What a parenthesis or a point behind an expression starts. -/
def suffixRule (inner : Parse Expr) (e : Expr) (t : Token) : Option (Parse Expr) :=
  match t.kind with
  | .leftParen => some (finishCall inner e)
  | .dot => some (property e)
  | _ => none

def suffixes (inner : Parse Expr) : List Token → Expr → Parse Expr
  | [], e => pure e
  | _ :: bound, e =>
    dispatch (fun t => (suffixRule inner e t).map fun p => p >>= suffixes inner bound) (pure e)

def call (inner : Parse Expr) : Parse Expr := do
  let e ← primary inner
  suffixes inner (← here) e

/-! ## Operators -/

def unary (inner : Parse Expr) : Nat → Parse Expr
  | 0 => tooDeep
  | depth + 1 =>
    whenNext isUnaryOperator
      (fun operator => do
        let e ← unary inner depth
        pure (.unary operator e))
      (call inner)

def factor (inner : Parse Expr) (depth : Nat) : Parse Expr := chain (unary inner depth) .binary isFactorOperator

def term (inner : Parse Expr) (depth : Nat) : Parse Expr := chain (factor inner depth) .binary isTermOperator

def comparison (inner : Parse Expr) (depth : Nat) : Parse Expr :=
  chain (term inner depth) .binary isComparisonOperator

def equality (inner : Parse Expr) (depth : Nat) : Parse Expr :=
  chain (comparison inner depth) .binary isEqualityOperator

def conjunction (inner : Parse Expr) (depth : Nat) : Parse Expr :=
  chain (equality inner depth) .logical (· == .kwAnd)

def disjunction (inner : Parse Expr) (depth : Nat) : Parse Expr :=
  chain (conjunction inner depth) .logical (· == .kwOr)

/-- The value behind an equals sign, which stands at `place`. -/
def assigned (inner : Parse Expr) (target : Expr) (place : List Token) : Parse Expr := do
  let value ← inner
  match target.assignTo? value with
  | some e => pure e
  | none => do
    report .invalidAssignmentTarget place
    pure target

def assignment (inner : Parse Expr) (depth : Nat) : Parse Expr := do
  let target ← disjunction inner depth
  let place ← here
  whenNext (· == .equal) (fun _ => assigned inner target place) (pure target)

def expression : Nat → Parse Expr
  | 0 => tooDeep
  | depth + 1 => assignment (expression depth) (depth + 1)

end LoxSyntax.Parse
