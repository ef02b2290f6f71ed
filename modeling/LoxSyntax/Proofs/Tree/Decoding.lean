/-
  LoxSyntax.Proofs.Tree.Decoding — nodes, read back from their data by the keys of its objects.

  A value of JSON stands for a node, a stray value or token among them, for an integer, or
  for a list of these. An object that has a kind is read as a node of that kind, any other
  as a token, from what its keys stand for; the order of its members does not count, nor
  do keys that are not asked for. So null is an absent child where a child is due, and nil
  where a value is due.

  - `Json.datum?`, `Json.node?`: what a value of JSON stands for.
  - `Node.datum?_data`: the data of a node stands for it.
-/

import Mathlib.Data.List.Defs
import LoxSyntax.Proofs.Tree.Data

namespace LoxSyntax

/-- What a value of JSON can stand for. -/
inductive Datum where
  | node (n : Node)
  | integer (n : Int)
  | items (ds : List Datum)

namespace Datum

def value? : Datum → Option Literal
  | .node (.stray (.value v)) => some v
  | _ => none

def text? : Datum → Option String
  | .node (.stray (.value (.text s))) => some s
  | _ => none

def token? : Datum → Option Token
  | .node (.stray (.token t)) => some t
  | _ => none

def node? : Datum → Option Node
  | .node n => some n
  | _ => none

def integer? : Datum → Option Int
  | .integer n => some n
  | _ => none

/-- What all items of a list stand for. -/
def items? {α : Type} (read : Datum → Option α) : Datum → Option (List α)
  | .items ds => (ds.map read).allSome
  | _ => none

end Datum

/-! ## Objects -/

/-- What the keys of an object stand for. -/
abbrev Fields := String → Option Datum

namespace Fields

variable (f : Fields)

def value? (key : String) : Option Literal := (f key).bind Datum.value?

def text? (key : String) : Option String := (f key).bind Datum.text?

def token? (key : String) : Option Token := (f key).bind Datum.token?

/-- A child, which may be a stray one. -/
def child? (key : String) : Option Node := (f key).bind Datum.node?

def integer? (key : String) : Option Int := (f key).bind Datum.integer?

def tokens? (key : String) : Option (List Token) := (f key).bind (Datum.items? Datum.token?)

def children? (key : String) : Option (List Node) := (f key).bind (Datum.items? Datum.node?)

def asToken? : Option Token := do
  let kind ← TokenKind.ofName? (← f.text? "type")
  return ⟨kind, ← f.text? "lexeme", ← f.value? "literal", ← f.integer? "line", ← f.integer? "col"⟩

def asNode? : String → Option Node
  | "Literal" => return .literal (← f.value? "value")
  | "Grouping" => return .grouping (← f.child? "expression")
  | "Unary" => return .unary (← f.token? "operator") (← f.child? "right")
  | "Binary" => return .binary (← f.child? "left") (← f.token? "operator") (← f.child? "right")
  | "Logical" => return .logical (← f.child? "left") (← f.token? "operator") (← f.child? "right")
  | "Variable" => return .ident (← f.token? "name")
  | "Assign" => return .assign (← f.token? "name") (← f.child? "value")
  | "Call" => return .call (← f.child? "callee") (← f.token? "paren") (← f.children? "arguments")
  | "Get" => return .get (← f.child? "object") (← f.token? "name")
  | "Set" => return .set (← f.child? "object") (← f.token? "name") (← f.child? "value")
  | "This" => return .this (← f.token? "keyword")
  | "Super" => return .super (← f.token? "keyword") (← f.token? "method")
  | "Expression" => return .expression (← f.child? "expression")
  | "Print" => return .print (← f.child? "expression")
  | "Var" => return .var (← f.token? "name") (← f.child? "initializer")
  | "Block" => return .block (← f.children? "statements")
  | "If" => return .if (← f.child? "condition") (← f.child? "then_branch") (← f.child? "else_branch")
  | "While" => return .while (← f.child? "condition") (← f.child? "body")
  | "Function" => return .function (← f.token? "name") (← f.tokens? "params") (← f.children? "body")
  | "Return" => return .return (← f.token? "keyword") (← f.child? "value")
  | "Class" => return .class (← f.token? "name") (← f.child? "superclass") (← f.children? "methods")
  | _ => none

/-- A node if there is a kind, else a token. -/
def asObject? : Option Node :=
  match f "kind" with
  | some kind => kind.text?.bind f.asNode?
  | none => f.asToken?.map fun t => .stray (.token t)

end Fields

/-! ## Values -/

mutual

/-- What a value of JSON stands for. -/
def Json.datum? : Json → Option Datum
  | .null => some (.node (.stray (.value .nil)))
  | .boolean b => some (.node (.stray (.value (.boolean b))))
  | .integer n => some (.integer n)
  | .number x => some (.node (.stray (.value (.number x))))
  | .text s => some (.node (.stray (.value (.text s))))
  | .array js => (itemData js).allSome.map .items
  | .object ms => (Fields.asObject? fun key => ((memberData ms).lookup key).join).map .node

def itemData : List Json → List (Option Datum)
  | [] => []
  | j :: js => j.datum? :: itemData js

def memberData : List (String × Json) → List (String × Option Datum)
  | [] => []
  | (key, j) :: ms => (key, j.datum?) :: memberData ms

end

def fieldsOf (ms : List (String × Json)) : Fields := fun key => ((memberData ms).lookup key).join

/-- The node that a value of JSON stands for, on its own. -/
def Json.node? (j : Json) : Option Node := (j.datum?.bind Datum.node?).filter (!·.isStray)

/-! ## The data of nodes -/

theorem Literal.datum?_data (v : Literal) : v.data.datum? = some (.node (.stray (.value v))) := by cases v <;> rfl

theorem Token.datum?_data (t : Token) : t.data.datum? = some (.node (.stray (.token t))) := by
  have hkind := TokenKind.ofName?_name t.kind
  simp [Token.data, Json.datum?, memberData, Fields.asObject?, Fields.asToken?, Fields.text?, Fields.value?,
    Fields.integer?, t.literal.datum?_data, Datum.text?, Datum.value?, Datum.integer?, List.lookup_cons, hkind]

theorem datum?_object (kind : String) (ms : List (String × Json)) :
    (Node.object kind ms).datum? = ((fieldsOf (("kind", .text kind) :: ms)).asNode? kind).map .node := rfl

/-- What a list of data stands for, if its items are read. -/
theorem items?_array {α : Type} {read : Datum → Option α} {js : List Json} {ds : List Datum} {as : List α}
    (hd : itemData js = ds.map some) (ha : ds.map read = as.map some) :
    (Json.array js).datum?.bind (Datum.items? read) = some as := by
  rw [Json.datum?, hd, allSome_map_some]
  show (ds.map read).allSome = some as
  rw [ha, allSome_map_some]

theorem itemData_tokens (ts : List Token) :
    itemData (ts.map Token.data) = (ts.map fun t => Datum.node (.stray (.token t))).map some := by
  induction ts with
  | nil => rfl
  | cons t ts ih => rw [List.map_cons, itemData, t.datum?_data, ih]; rfl

theorem tokens_array (ts : List Token) :
    (Json.array (ts.map Token.data)).datum?.bind (Datum.items? Datum.token?) = some ts :=
  items?_array (itemData_tokens ts) (by rw [List.map_map]; rfl)

theorem children_array {ns : List Node} (h : itemData (Node.dataAll ns) = (ns.map Datum.node).map some) :
    (Json.array (Node.dataAll ns)).datum?.bind (Datum.items? Datum.node?) = some ns :=
  items?_array h (by rw [List.map_map]; rfl)

section

attribute [local simp] Node.data datum?_object fieldsOf memberData Fields.asNode? Fields.value? Fields.token?
  Fields.child? Fields.tokens? Fields.children? Datum.value? Datum.token? Datum.node? Literal.datum?_data
  Token.datum?_data List.lookup_cons tokens_array

mutual

/-- The data of a node stands for it. -/
theorem Node.datum?_data : ∀ n : Node, n.data.datum? = some (.node n)
  | .stray (.value v) => v.datum?_data
  | .stray (.token t) => t.datum?_data
  | .literal v => by simp
  | .ident t | .this t => by simp
  | .super k m => by simp
  | .grouping e | .expression e | .print e => by simp [e.datum?_data]
  | .unary t e | .assign t e | .var t e | .return t e | .get e t => by simp [e.datum?_data]
  | .binary a t b | .logical a t b | .set a t b => by simp [a.datum?_data, b.datum?_data]
  | .while a b => by simp [a.datum?_data, b.datum?_data]
  | .if a b c => by simp [a.datum?_data, b.datum?_data, c.datum?_data]
  | .call f t as => by simp [f.datum?_data, children_array (itemData_dataAll as)]
  | .block as => by simp [children_array (itemData_dataAll as)]
  | .function t ps as => by simp [children_array (itemData_dataAll as)]
  | .class t s as => by simp [s.datum?_data, children_array (itemData_dataAll as)]

theorem itemData_dataAll : ∀ ns : List Node, itemData (Node.dataAll ns) = (ns.map Datum.node).map some
  | [] => rfl
  | n :: ns => by rw [Node.dataAll, itemData, n.datum?_data, itemData_dataAll ns]; rfl

end

end

/-- The node that the data of a node stands for. -/
theorem Node.node?_data {n : Node} (h : n.isStray = false) : n.data.node? = some n := by
  simp [Json.node?, n.datum?_data, Datum.node?, h]

end LoxSyntax
