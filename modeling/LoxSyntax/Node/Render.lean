/-
  LoxSyntax.Node.Render — the parenthesised form of trees, one line for a node: an
  operation is written in front of its operands, and every node but names, literals and
  `this` has its own parentheses. A string literal stands between quotes as it is; a
  function shows its parameters in parentheses of their own, a class its superclass.

  Nodes that came from elsewhere may hold strays. A stray text is written as it is where
  a child is due; any other stray, or one that is to be printed on its own, is an error,
  and so is a superclass without a name. The first error in printing order counts.

  - `printAll_toNode`: the parser's trees have no such error.
-/

import LoxSyntax.Node

namespace LoxSyntax

inductive PrintError where
  | notANode (typeName : String)
  | noName (typeName : String)
  deriving DecidableEq, Repr

def PrintError.message : PrintError → String
  | .notANode typeName => "Cannot print '" ++ typeName ++ "' as a Lox node"
  | .noName typeName => "'" ++ typeName ++ "' object has no attribute 'name'"

/-- The parts after the head, with a space in front of each. -/
def parenthesize (head : String) (parts : List String) : String :=
  "(" ++ String.intercalate " " (head :: parts) ++ ")"

def literalText : Literal → String
  | .text s => "\"" ++ s ++ "\""
  | v => v.spelling

def paramsText (params : List Token) : String := "(" ++ String.intercalate " " (params.map (·.lexeme)) ++ ")"

namespace Node

/-- The name behind the superclass sign. -/
def superclassParts (s : Node) : List String :=
  if s.isAbsent then [] else [parenthesize "<" [(s.name?.map (·.lexeme)).getD ""]]

mutual

def render : Node → String
  | .literal v => literalText v
  | .grouping e => parenthesize "group" [e.render]
  | .unary o e => parenthesize o.lexeme [e.render]
  | .binary a o b => parenthesize o.lexeme [a.render, b.render]
  | .logical a o b => parenthesize o.lexeme [a.render, b.render]
  | .ident n => n.lexeme
  | .assign n e => parenthesize "=" [n.lexeme, e.render]
  | .call f _ as => parenthesize "call" (f.render :: renderAll as)
  | .get e n => parenthesize "." [e.render, n.lexeme]
  | .set e n v => parenthesize "=" [parenthesize "." [e.render, n.lexeme], v.render]
  | .this _ => "this"
  | .super _ m => parenthesize "super" [m.lexeme]
  | .expression e => parenthesize ";" [e.render]
  | .print e => parenthesize "print" [e.render]
  | .var n e => parenthesize "var" (n.lexeme :: if e.isAbsent then [] else [e.render])
  | .block body => parenthesize "block" (renderAll body)
  | .if c t e =>
    if e.isAbsent then parenthesize "if" [c.render, t.render]
    else parenthesize "if-else" [c.render, t.render, e.render]
  | .while c body => parenthesize "while" [c.render, body.render]
  | .function n ps body => parenthesize "fun" (n.lexeme :: paramsText ps :: renderAll body)
  | .return _ e => parenthesize "return" (if e.isAbsent then [] else [e.render])
  | .class n s ms => parenthesize "class" (n.lexeme :: superclassParts s ++ renderAll ms)
  | .stray (.value (.text s)) => s
  | .stray _ => ""

def renderAll : List Node → List String
  | [] => []
  | n :: ns => n.render :: renderAll ns

end

/-! ## Errors -/

/-- The first of two errors. -/
def firstOf (a b : Option PrintError) : Option PrintError := a.or b

def superclassError? (s : Node) : Option PrintError :=
  if s.isAbsent || s.name?.isSome then none else some (.noName s.typeName)

mutual

/-- What stops the printing of a child. -/
def childError? : Node → Option PrintError
  | .literal _ | .ident _ | .this _ | .super _ _ => none
  | .grouping e | .unary _ e | .assign _ e | .get e _ | .expression e | .print e => e.childError?
  | .binary a _ b | .logical a _ b | .set a _ b | .while a b => firstOf a.childError? b.childError?
  | .call f _ as => firstOf f.childError? (childErrors? as)
  | .var _ e | .return _ e => if e.isAbsent then none else e.childError?
  | .block body | .function _ _ body => childErrors? body
  | .if c t e => firstOf c.childError? (firstOf t.childError? (if e.isAbsent then none else e.childError?))
  | .class _ s ms => firstOf (superclassError? s) (childErrors? ms)
  | .stray (.value (.text _)) => none
  | .stray v => some (.notANode v.typeName)

def childErrors? : List Node → Option PrintError
  | [] => none
  | n :: ns => firstOf n.childError? (childErrors? ns)

end

/-- What stops the printing of a node on its own. -/
def error? : Node → Option PrintError
  | .stray v => some (.notANode v.typeName)
  | n => n.childError?

/-- The nodes of a program, each on a line of its own. -/
def printAll (program : List Node) : Except PrintError String :=
  match program.findSome? error? with
  | some e => .error e
  | none => .ok (String.intercalate "\n" (program.map render))

end Node

/-! ## Printing programs -/

def Stmt.render (s : Stmt) : String := s.toNode.render

def printProgram (program : List Stmt) : String := String.intercalate "\n" (program.map Stmt.render)

mutual

theorem Expr.childError?_toNode : (e : Expr) → e.toNode.childError? = none
  | .literal _ | .ident _ | .this _ | .super _ _ => rfl
  | .grouping e | .unary _ e | .assign _ e | .get e _ => Expr.childError?_toNode e
  | .binary a _ b | .logical a _ b | .set a _ b => by
    simp [Expr.toNode, Node.childError?, Node.firstOf, Expr.childError?_toNode a, Expr.childError?_toNode b]
  | .call f _ as => by
    simp [Expr.toNode, Node.childError?, Node.firstOf, Expr.childError?_toNode f, childErrors?_exprNodes as]

theorem childErrors?_exprNodes : (es : List Expr) → Node.childErrors? (exprNodes es) = none
  | [] => rfl
  | e :: es => by
    simp [exprNodes, Node.childErrors?, Node.firstOf, Expr.childError?_toNode e, childErrors?_exprNodes es]

end

theorem childError?_optionalNode (e : Option Expr) :
    (if (optionalNode e).isAbsent then none else (optionalNode e).childError?) = none := by
  cases e with
  | none => rfl
  | some e => simp [optionalNode, Expr.childError?_toNode]

theorem superclassError?_superclassNode (s : Option Token) : Node.superclassError? (superclassNode s) = none := by
  cases s <;> rfl

mutual

theorem Stmt.childError?_toNode : (s : Stmt) → s.toNode.childError? = none
  | .expression e | .print e => Expr.childError?_toNode e
  | .var _ e | .return _ e => childError?_optionalNode e
  | .block body => childErrors?_stmtNodes body
  | .ifThen c t => by
    simp [Stmt.toNode, Node.childError?, Node.firstOf, Expr.childError?_toNode c, Stmt.childError?_toNode t,
      Node.absent, Stray.absent, Node.isAbsent]
  | .ifElse c t e => by
    simp [Stmt.toNode, Node.childError?, Node.firstOf, Expr.childError?_toNode c, Stmt.childError?_toNode t,
      Stmt.childError?_toNode e]
  | .while c body => by
    simp [Stmt.toNode, Node.childError?, Node.firstOf, Expr.childError?_toNode c, Stmt.childError?_toNode body]
  | .function f => Function.childError?_toNode f
  | .class _ s ms => by
    simp [Stmt.toNode, Node.childError?, Node.firstOf, superclassError?_superclassNode s,
      childErrors?_functionNodes ms]

theorem Function.childError?_toNode : (f : Function) → f.toNode.childError? = none
  | .mk _ _ body => childErrors?_stmtNodes body

theorem childErrors?_stmtNodes : (ss : List Stmt) → Node.childErrors? (stmtNodes ss) = none
  | [] => rfl
  | s :: ss => by
    simp [stmtNodes, Node.childErrors?, Node.firstOf, Stmt.childError?_toNode s, childErrors?_stmtNodes ss]

theorem childErrors?_functionNodes : (fs : List Function) → Node.childErrors? (functionNodes fs) = none
  | [] => rfl
  | f :: fs => by
    simp [functionNodes, Node.childErrors?, Node.firstOf, Function.childError?_toNode f,
      childErrors?_functionNodes fs]

end

theorem Stmt.error?_toNode (s : Stmt) : s.toNode.error? = none := by
  have h := Stmt.childError?_toNode s
  have hs := Stmt.isStray_toNode s
  cases hn : s.toNode with
  | stray v => simp [hn, Node.isStray] at hs
  | _ => simpa [hn, Node.error?] using h

/-- A tree of the parser prints. -/
theorem printAll_toNode (program : List Stmt) :
    Node.printAll (program.map Stmt.toNode) = .ok (printProgram program) := by
  have h : (program.map Stmt.toNode).findSome? Node.error? = none := by
    simp [Stmt.error?_toNode]
  simp only [Node.printAll, h, printProgram, List.map_map]
  rfl

end LoxSyntax
