/-
  LoxSyntax.Node.Data — tokens and nodes as JSON: an object with the kind of the node and
  its fields in order, children and tokens nested, null for an absent child. Stray values
  among the children stand for themselves; on its own a stray has no such form.

  - `data?_toNode`: the parser's trees have one.
-/

import LoxSyntax.Json
import LoxSyntax.Node

namespace LoxSyntax

def Literal.data : Literal → Json
  | .nil => .null
  | .boolean b => .boolean b
  | .number x => .number x
  | .text s => .text s

def Token.data (t : Token) : Json :=
  .object [("type", .text t.kind.name), ("lexeme", .text t.lexeme), ("literal", t.literal.data),
    ("line", .integer t.line), ("col", .integer t.column)]

def Stray.data : Stray → Json
  | .value v => v.data
  | .token t => t.data

namespace Node

def object (kind : String) (fields : List (String × Json)) : Json := .object (("kind", .text kind) :: fields)

mutual

/-- A node, or a stray child. -/
def data : Node → Json
  | .literal v => object "Literal" [("value", v.data)]
  | .grouping e => object "Grouping" [("expression", e.data)]
  | .unary o e => object "Unary" [("operator", o.data), ("right", e.data)]
  | .binary a o b => object "Binary" [("left", a.data), ("operator", o.data), ("right", b.data)]
  | .logical a o b => object "Logical" [("left", a.data), ("operator", o.data), ("right", b.data)]
  | .ident n => object "Variable" [("name", n.data)]
  | .assign n e => object "Assign" [("name", n.data), ("value", e.data)]
  | .call f p as => object "Call" [("callee", f.data), ("paren", p.data), ("arguments", .array (dataAll as))]
  | .get e n => object "Get" [("object", e.data), ("name", n.data)]
  | .set e n v => object "Set" [("object", e.data), ("name", n.data), ("value", v.data)]
  | .this k => object "This" [("keyword", k.data)]
  | .super k m => object "Super" [("keyword", k.data), ("method", m.data)]
  | .expression e => object "Expression" [("expression", e.data)]
  | .print e => object "Print" [("expression", e.data)]
  | .var n e => object "Var" [("name", n.data), ("initializer", e.data)]
  | .block body => object "Block" [("statements", .array (dataAll body))]
  | .if c t e => object "If" [("condition", c.data), ("then_branch", t.data), ("else_branch", e.data)]
  | .while c body => object "While" [("condition", c.data), ("body", body.data)]
  | .function n ps body =>
    object "Function" [("name", n.data), ("params", .array (ps.map Token.data)), ("body", .array (dataAll body))]
  | .return k e => object "Return" [("keyword", k.data), ("value", e.data)]
  | .class n s ms => object "Class" [("name", n.data), ("superclass", s.data), ("methods", .array (dataAll ms))]
  | .stray v => v.data

def dataAll : List Node → List Json
  | [] => []
  | n :: ns => n.data :: dataAll ns

end

inductive DataError where
  | notANode (typeName : String)
  deriving DecidableEq, Repr

def DataError.message : DataError → String
  | .notANode typeName => "Cannot serialize '" ++ typeName ++ "' as a Lox node"

/-- The form of a node on its own. -/
def data? : Node → Except DataError Json
  | .stray v => .error (.notANode v.typeName)
  | n => .ok n.data

theorem data?_of_not_stray {n : Node} (h : n.isStray = false) : n.data? = .ok n.data := by
  cases n <;> first | rfl | cases h

end Node

def Stmt.data (s : Stmt) : Json := s.toNode.data

theorem Stmt.data?_toNode (s : Stmt) : s.toNode.data? = .ok s.data :=
  Node.data?_of_not_stray s.isStray_toNode

end LoxSyntax
