/-
  LoxSyntax.Proofs.Printing.Reading — printed forms, read back.

  What a list stands for is told by its head, and by how many parts there are for an
  operator that is unary or binary. An atom is one of the words for a value, a name, or
  else a number. What is read back has no places.

  - `Form.expr?`, `Form.stmt?`: the expression and the statement that a form shows.
-/

import LoxSyntax.Proofs.Printing.Spelling
import LoxSyntax.Proofs.Printing.TreeForm
import LoxSyntax.Proofs.Tree.Data

namespace LoxSyntax

open Printing Form

namespace Printing

/-! ## Expressions -/

/-- What an atom stands for. -/
def word? (s : String) : Option Expr :=
  match s with
  | "nil" => some (.literal .nil)
  | "true" => some (.literal (.boolean true))
  | "false" => some (.literal (.boolean false))
  | "this" => some (.this (symbol .kwThis "this"))
  | s =>
    if s.toList.head?.any isAlpha then some (.ident (symbol .identifier s))
    else (readNumber? s).map fun x => .literal (.number x)

def binaryKind? : String → Option TokenKind
  | "+" => some .plus
  | "-" => some .minus
  | "*" => some .star
  | "/" => some .slash
  | "!=" => some .bangEqual
  | "==" => some .equalEqual
  | "<" => some .less
  | "<=" => some .lessEqual
  | ">" => some .greater
  | ">=" => some .greaterEqual
  | _ => none

/-- What a list with the head stands for. -/
def expression? (head : String) (parts : List Expr) : Option Expr :=
  match head, parts with
  | "group", [e] => some (.grouping e)
  | "!", [e] => some (.unary (symbol .bang "!") e)
  | "-", [e] => some (.unary (symbol .minus "-") e)
  | "and", [a, b] => some (.logical a (symbol .kwAnd "and") b)
  | "or", [a, b] => some (.logical a (symbol .kwOr "or") b)
  | "=", [a, b] => a.assignTo? b
  | ".", [e, .ident n] => some (.get e n)
  | "super", [.ident m] => some (.super (symbol .kwSuper "super") m)
  | "call", f :: as => some (.call f (symbol .rightParen ")") as)
  | head, [a, b] => (binaryKind? head).map fun kind => .binary a (symbol kind head) b
  | _, _ => none

mutual

/-- The expression that a form shows. -/
def Form.expr? : Form → Option Expr
  | .atom s => word? s
  | .quoted s => some (.literal (.text s))
  | .list (.atom head :: parts) => (exprs? parts).bind (expression? head)
  | .list _ => none

def exprs? : List Form → Option (List Expr)
  | [] => some []
  | f :: fs => f.expr?.bind fun e => (exprs? fs).map (e :: ·)

end

/-! ## Statements -/

def Form.name? : Form → Option Token
  | .atom s => some (symbol .identifier s)
  | _ => none

def Form.names? : Form → Option (List Token)
  | .list fs => (fs.map Form.name?).allSome
  | _ => none

/-- The name that a list with the superclass sign shows. -/
def superclass? : Form → Option Token
  | .list [.atom "<", n] => n.name?
  | _ => none

/-- A class with a name, by the parts behind it and by the statements that they show. -/
def class? (name : Form) (parts : List Form) (stmts : List (Option Stmt)) : Option Stmt :=
  let superclass := parts.head?.bind superclass?
  let methods := if superclass.isSome then stmts.tail else stmts
  name.name?.bind fun n => (methods.map (·.bind Stmt.function?)).allSome.map fun ms => .class n superclass ms

/-- What a list with the head stands for, by its parts and by the statements that they show. -/
def statement? (head : String) (parts : List Form) (stmts : List (Option Stmt)) : Option Stmt :=
  match head, parts, stmts with
  | ";", [e], _ => e.expr?.map .expression
  | "print", [e], _ => e.expr?.map .print
  | "var", [n], _ => n.name?.map fun n => .var n none
  | "var", [n, e], _ => n.name?.bind fun n => e.expr?.map fun e => .var n (some e)
  | "block", _, body => body.allSome.map .block
  | "if", [c, _], [_, t] => c.expr?.bind fun c => t.map fun t => .ifThen c t
  | "if-else", [c, _, _], [_, t, e] => c.expr?.bind fun c => t.bind fun t => e.map fun e => .ifElse c t e
  | "while", [c, _], [_, body] => c.expr?.bind fun c => body.map fun body => .while c body
  | "fun", n :: ps :: _, _ :: _ :: body =>
    n.name?.bind fun n => ps.names?.bind fun ps => body.allSome.map fun body => .function (.mk n ps body)
  | "return", [], _ => some (.return (symbol .kwReturn "return") none)
  | "return", [e], _ => e.expr?.map fun e => .return (symbol .kwReturn "return") (some e)
  | "class", n :: parts, _ :: stmts => class? n parts stmts
  | _, _, _ => none

mutual

/-- The statement that a form shows. -/
def Form.stmt? : Form → Option Stmt
  | .list (.atom head :: parts) => statement? head parts (stmts? parts)
  | _ => none

def stmts? : List Form → List (Option Stmt)
  | [] => []
  | f :: fs => f.stmt? :: stmts? fs

end

end Printing

end LoxSyntax
