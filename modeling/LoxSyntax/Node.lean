/-
  LoxSyntax.Node — trees as data that came from elsewhere: any node may stand in any
  place, and so may a value that is no node at all (a stray). An absent child is the
  stray nil. The parser's trees are the nodes in which everything is in its place
  (`Expr.toNode`, `Stmt.toNode`).

  Nodes compare field by field, with the sameness of tokens and literals.

  - `Stmt.isStray_toNode`: a tree is never a stray.
-/

import LoxSyntax.Tree

namespace LoxSyntax

/-- A value that is no node. -/
inductive Stray where
  | value (v : Literal)
  | token (t : Token)
  deriving DecidableEq, Repr

namespace Stray

def absent : Stray := .value .nil

def same : Stray → Stray → Bool
  | .value v, .value w => v.same w
  | .token t, .token u => t.same u
  | _, _ => false

/-- The name of the value's type in messages. -/
def typeName : Stray → String
  | .value .nil => "NoneType"
  | .value (.boolean _) => "bool"
  | .value (.number _) => "float"
  | .value (.text _) => "str"
  | .token _ => "Token"

end Stray

inductive Node where
  | literal (value : Literal)
  | grouping (inner : Node)
  | unary (operator : Token) (operand : Node)
  | binary (left : Node) (operator : Token) (right : Node)
  | logical (left : Node) (operator : Token) (right : Node)
  | ident (name : Token)
  | assign (name : Token) (value : Node)
  | call (callee : Node) (paren : Token) (arguments : List Node)
  | get (object : Node) (name : Token)
  | set (object : Node) (name : Token) (value : Node)
  | this (keyword : Token)
  | super (keyword method : Token)
  | expression (value : Node)
  | print (value : Node)
  | var (name : Token) (initializer : Node)
  | block (body : List Node)
  | if (condition thenBranch elseBranch : Node)
  | while (condition body : Node)
  | function (name : Token) (params : List Token) (body : List Node)
  | return (keyword : Token) (value : Node)
  | class (name : Token) (superclass : Node) (methods : List Node)
  | stray (value : Stray)

namespace Node

def absent : Node := .stray .absent

def sameTokens : List Token → List Token → Bool
  | [], [] => true
  | t :: ts, u :: us => t.same u && sameTokens ts us
  | _, _ => false

mutual

def same : Node → Node → Bool
  | .literal v, .literal w => v.same w
  | .grouping a, .grouping b => same a b
  | .unary o a, .unary p b => o.same p && same a b
  | .binary a o b, .binary c p d => same a c && o.same p && same b d
  | .logical a o b, .logical c p d => same a c && o.same p && same b d
  | .ident n, .ident m => n.same m
  | .assign n a, .assign m b => n.same m && same a b
  | .call a p as, .call b q bs => same a b && p.same q && sameAll as bs
  | .get a n, .get b m => same a b && n.same m
  | .set a n v, .set b m w => same a b && n.same m && same v w
  | .this k, .this l => k.same l
  | .super k m, .super l n => k.same l && m.same n
  | .expression a, .expression b => same a b
  | .print a, .print b => same a b
  | .var n a, .var m b => n.same m && same a b
  | .block as, .block bs => sameAll as bs
  | .if a b c, .if d e f => same a d && same b e && same c f
  | .while a b, .while c d => same a c && same b d
  | .function n ps as, .function m qs bs => n.same m && sameTokens ps qs && sameAll as bs
  | .return k a, .return l b => k.same l && same a b
  | .class n a as, .class m b bs => n.same m && same a b && sameAll as bs
  | .stray v, .stray w => v.same w
  | _, _ => false

def sameAll : List Node → List Node → Bool
  | [], [] => true
  | a :: as, b :: bs => same a b && sameAll as bs
  | _, _ => false

end

/-- The name that a node declares or refers to. -/
def name? : Node → Option Token
  | .ident n | .assign n _ | .get _ n | .set _ n _ | .var n _ | .function n _ _ | .class n _ _ => some n
  | _ => none

/-- The name of the node's kind. -/
def typeName : Node → String
  | .literal _ => "Literal"
  | .grouping _ => "Grouping"
  | .unary _ _ => "Unary"
  | .binary _ _ _ => "Binary"
  | .logical _ _ _ => "Logical"
  | .ident _ => "Variable"
  | .assign _ _ => "Assign"
  | .call _ _ _ => "Call"
  | .get _ _ => "Get"
  | .set _ _ _ => "Set"
  | .this _ => "This"
  | .super _ _ => "Super"
  | .expression _ => "Expression"
  | .print _ => "Print"
  | .var _ _ => "Var"
  | .block _ => "Block"
  | .if _ _ _ => "If"
  | .while _ _ => "While"
  | .function _ _ _ => "Function"
  | .return _ _ => "Return"
  | .class _ _ _ => "Class"
  | .stray v => v.typeName

mutual

/-- How many nodes stand below one another, the node itself among them. -/
def height : Node → Nat
  | .literal _ | .ident _ | .this _ | .super _ _ | .stray _ => 1
  | .grouping a | .unary _ a | .assign _ a | .get a _ | .expression a | .print a | .var _ a | .return _ a =>
    a.height + 1
  | .binary a _ b | .logical a _ b | .set a _ b | .while a b => max a.height b.height + 1
  | .if a b c => max a.height (max b.height c.height) + 1
  | .call a _ as | .class _ a as => max a.height (heightAll as) + 1
  | .block as | .function _ _ as => heightAll as + 1

def heightAll : List Node → Nat
  | [] => 0
  | a :: as => max a.height (heightAll as)

end

def isStray : Node → Bool
  | .stray _ => true
  | _ => false

def isAbsent : Node → Bool
  | .stray (.value .nil) => true
  | _ => false

end Node

/-! ## The parser's trees as nodes -/

mutual

def Expr.toNode : Expr → Node
  | .literal v => .literal v
  | .grouping e => .grouping e.toNode
  | .unary o e => .unary o e.toNode
  | .binary a o b => .binary a.toNode o b.toNode
  | .logical a o b => .logical a.toNode o b.toNode
  | .ident n => .ident n
  | .assign n e => .assign n e.toNode
  | .call f p as => .call f.toNode p (exprNodes as)
  | .get e n => .get e.toNode n
  | .set e n v => .set e.toNode n v.toNode
  | .this k => .this k
  | .super k m => .super k m

def exprNodes : List Expr → List Node
  | [] => []
  | e :: es => e.toNode :: exprNodes es

end

def optionalNode : Option Expr → Node
  | some e => e.toNode
  | none => .absent

def superclassNode : Option Token → Node
  | some n => .ident n
  | none => .absent

mutual

def Stmt.toNode : Stmt → Node
  | .expression e => .expression e.toNode
  | .print e => .print e.toNode
  | .var n e => .var n (optionalNode e)
  | .block body => .block (stmtNodes body)
  | .ifThen c t => .if c.toNode t.toNode .absent
  | .ifElse c t e => .if c.toNode t.toNode e.toNode
  | .while c body => .while c.toNode body.toNode
  | .function f => f.toNode
  | .return k e => .return k (optionalNode e)
  | .class n s ms => .class n (superclassNode s) (functionNodes ms)

def Function.toNode : Function → Node
  | .mk n ps body => .function n ps (stmtNodes body)

def stmtNodes : List Stmt → List Node
  | [] => []
  | s :: ss => s.toNode :: stmtNodes ss

def functionNodes : List Function → List Node
  | [] => []
  | f :: fs => f.toNode :: functionNodes fs

end

theorem Expr.isStray_toNode (e : Expr) : e.toNode.isStray = false := by
  cases e <;> rfl

theorem Expr.isAbsent_toNode (e : Expr) : e.toNode.isAbsent = false := by
  cases e <;> rfl

theorem Stmt.isAbsent_toNode (s : Stmt) : s.toNode.isAbsent = false := by
  cases s with
  | function f => cases f; rfl
  | _ => rfl

theorem Stmt.isStray_toNode (s : Stmt) : s.toNode.isStray = false := by
  cases s with
  | function f => cases f; rfl
  | _ => rfl

end LoxSyntax
