/-
  LoxSyntax.Proofs.Tree.Data — trees, read back from their data.

  An object is read by its kind: tokens and values from its fields, and children from what
  was read of the fields. An array gives what its items give, one after another, and null
  gives nothing. So the data of a tree is that of no other tree.

  - `Expr.exprs_data`, `Stmt.stmts_data`: the tree of the data of a tree.
  - `Stmt.data_injective`: the data of a statement determines it.
-/

import Mathlib.Data.List.Defs
import LoxSyntax.Node.Data

namespace LoxSyntax

/-! ## Values and tokens -/

def Json.literal? : Json → Option Literal
  | .null => some .nil
  | .boolean b => some (.boolean b)
  | .number x => some (.number x)
  | .text s => some (.text s)
  | _ => none

def Json.token? : Json → Option Token
  | .object [(_, .text kind), (_, .text lexeme), (_, literal), (_, .integer line), (_, .integer column)] =>
    (TokenKind.ofName? kind).bind fun kind => literal.literal?.map fun literal => ⟨kind, lexeme, literal, line, column⟩
  | _ => none

def Json.tokens? : Json → Option (List Token)
  | .array js => (js.map Json.token?).allSome
  | _ => none

theorem Literal.literal?_data (v : Literal) : v.data.literal? = some v := by cases v <;> rfl

theorem Token.token?_data (t : Token) : t.data.token? = some t := by
  simp [data, Json.token?, TokenKind.ofName?_name, Literal.literal?_data]

@[simp] theorem allSome_map_some {α : Type} (as : List α) : (as.map some).allSome = some as := by
  induction as with
  | nil => rfl
  | cons a as ih =>
    rw [List.allSome] at ih ⊢
    rw [List.map_cons, List.mapM_cons, ih]
    rfl

theorem tokens?_data (ts : List Token) : (Json.array (ts.map Token.data)).tokens? = some ts := by
  have h : Json.token? ∘ Token.data = some := funext Token.token?_data
  rw [Json.tokens?, List.map_map, h, allSome_map_some]

/-! ## Expressions -/

/-- An expression of the kind, by the fields and by what was read of each. -/
def readExpr (kind : String) (fields : List (String × Json)) (parts : List (List (Option Expr))) : Option Expr :=
  match kind, fields, parts with
  | "Literal", [(_, v)], _ => v.literal?.map .literal
  | "Grouping", _, [[some e]] => some (.grouping e)
  | "Unary", [(_, o), _], [_, [some e]] => o.token?.map fun o => .unary o e
  | "Binary", [_, (_, o), _], [[some a], _, [some b]] => o.token?.map fun o => .binary a o b
  | "Logical", [_, (_, o), _], [[some a], _, [some b]] => o.token?.map fun o => .logical a o b
  | "Variable", [(_, n)], _ => n.token?.map .ident
  | "Assign", [(_, n), _], [_, [some e]] => n.token?.map fun n => .assign n e
  | "Call", [_, (_, p), _], [[some f], _, as] => p.token?.bind fun p => as.allSome.map fun as => .call f p as
  | "Get", [_, (_, n)], [[some e], _] => n.token?.map fun n => .get e n
  | "Set", [_, (_, n), _], [[some e], _, [some v]] => n.token?.map fun n => .set e n v
  | "This", [(_, k)], _ => k.token?.map .this
  | "Super", [(_, k), (_, m)], _ => k.token?.bind fun k => m.token?.map fun m => .super k m
  | _, _, _ => none

mutual

/-- The expressions that are read of a value. -/
def Json.exprs : Json → List (Option Expr)
  | .object ((_, .text kind) :: fields) => [readExpr kind fields (fieldExprs fields)]
  | .array js => itemExprs js
  | _ => []

def itemExprs : List Json → List (Option Expr)
  | [] => []
  | j :: js => j.exprs ++ itemExprs js

def fieldExprs : List (String × Json) → List (List (Option Expr))
  | [] => []
  | (_, j) :: fields => j.exprs :: fieldExprs fields

end

mutual

theorem Expr.exprs_data : ∀ e : Expr, e.toNode.data.exprs = [some e]
  | .literal v => by
    show [Option.map _ v.data.literal?] = _
    rw [v.literal?_data]
    rfl
  | .grouping e => by
    simp only [Expr.toNode, Node.data, Node.object, Json.exprs, fieldExprs, e.exprs_data]
    rfl
  | .ident t | .this t => by
    show [Option.map _ t.data.token?] = _
    rw [t.token?_data]
    rfl
  | .unary t e | .assign t e | .get e t => by
    simp only [Expr.toNode, Node.data, Node.object, Json.exprs, fieldExprs, e.exprs_data]
    show [Option.map _ t.data.token?] = _
    rw [t.token?_data]
    rfl
  | .binary a t b | .logical a t b | .set a t b => by
    simp only [Expr.toNode, Node.data, Node.object, Json.exprs, fieldExprs, a.exprs_data, b.exprs_data]
    show [Option.map _ t.data.token?] = _
    rw [t.token?_data]
    rfl
  | .call f p as => by
    simp only [Expr.toNode, Node.data, Node.object, Json.exprs, fieldExprs, f.exprs_data, exprs_data_arguments as]
    show [Option.bind p.data.token? fun _ => Option.map _ (as.map some).allSome] = _
    rw [p.token?_data, allSome_map_some]
    rfl
  | .super k m => by
    show [Option.bind k.data.token? fun _ => Option.map _ m.data.token?] = _
    rw [k.token?_data, m.token?_data]
    rfl

theorem exprs_data_arguments : ∀ es : List Expr, itemExprs (Node.dataAll (exprNodes es)) = es.map some
  | [] => rfl
  | e :: es => by rw [exprNodes, Node.dataAll, itemExprs, e.exprs_data, exprs_data_arguments es]; rfl

end

def Json.expr? (j : Json) : Option Expr := j.exprs.head?.join

/-- An expression, or null when there is none. -/
def Json.optional? : Json → Option (Option Expr)
  | .null => some none
  | j => j.expr?.map some

def Json.superclass? : Json → Option (Option Token)
  | .null => some none
  | j => match j.expr? with
    | some (.ident n) => some (some n)
    | _ => none

theorem Expr.expr?_data (e : Expr) : e.toNode.data.expr? = some e := by rw [Json.expr?, e.exprs_data]; rfl

theorem optional?_data (e : Option Expr) : (optionalNode e).data.optional? = some e := by
  cases e with
  | none => rfl
  | some e =>
    have h := e.expr?_data
    rw [optionalNode]
    generalize e.toNode.data = j at h
    cases j with
    | null => cases h
    | _ => simp [Json.optional?, h]

theorem superclass?_data (s : Option Token) : (superclassNode s).data.superclass? = some s := by
  cases s with
  | none => rfl
  | some n =>
    have h := (Expr.ident n).expr?_data
    simp only [Expr.toNode, Node.data, Node.object] at h
    simp [superclassNode, Node.data, Node.object, Json.superclass?, h]

/-! ## Statements -/

def Stmt.function? : Stmt → Option Function
  | .function f => some f
  | _ => none

/-- A statement of the kind, by the fields and by the statements that were read of each. -/
def readStmt (kind : String) (fields : List (String × Json)) (parts : List (List (Option Stmt))) : Option Stmt :=
  match kind, fields, parts with
  | "Expression", [(_, e)], _ => e.expr?.map .expression
  | "Print", [(_, e)], _ => e.expr?.map .print
  | "Var", [(_, n), (_, e)], _ => n.token?.bind fun n => e.optional?.map fun e => .var n e
  | "Block", _, [body] => body.allSome.map .block
  | "If", [(_, c), _, _], [_, [some t], []] => c.expr?.map fun c => .ifThen c t
  | "If", [(_, c), _, _], [_, [some t], [some e]] => c.expr?.map fun c => .ifElse c t e
  | "While", [(_, c), _], [_, [some body]] => c.expr?.map fun c => .while c body
  | "Function", [(_, n), (_, ps), _], [_, _, body] =>
    n.token?.bind fun n => ps.tokens?.bind fun ps => body.allSome.map fun body => .function (.mk n ps body)
  | "Return", [(_, k), (_, e)], _ => k.token?.bind fun k => e.optional?.map fun e => .return k e
  | "Class", [(_, n), (_, s), _], [_, _, ms] =>
    n.token?.bind fun n => s.superclass?.bind fun s =>
      (ms.map (·.bind Stmt.function?)).allSome.map fun ms => .class n s ms
  | _, _, _ => none

mutual

/-- The statements that are read of a value. -/
def Json.stmts : Json → List (Option Stmt)
  | .object ((_, .text kind) :: fields) => [readStmt kind fields (fieldStmts fields)]
  | .array js => itemStmts js
  | _ => []

def itemStmts : List Json → List (Option Stmt)
  | [] => []
  | j :: js => j.stmts ++ itemStmts js

def fieldStmts : List (String × Json) → List (List (Option Stmt))
  | [] => []
  | (_, j) :: fields => j.stmts :: fieldStmts fields

end

mutual

theorem Stmt.stmts_data : ∀ s : Stmt, s.toNode.data.stmts = [some s]
  | .expression e | .print e => by
    show [Option.map _ e.toNode.data.expr?] = _
    rw [e.expr?_data]
    rfl
  | .var t e | .return t e => by
    show [Option.bind t.data.token? fun _ => Option.map _ (optionalNode e).data.optional?] = _
    rw [t.token?_data, optional?_data]
    rfl
  | .block body => by
    simp only [Stmt.toNode, Node.data, Node.object, Json.stmts, fieldStmts, itemStmts_data body]
    show [Option.map _ (body.map some).allSome] = _
    rw [allSome_map_some]
    rfl
  | .ifThen c t | .while c t => by
    simp only [Stmt.toNode, Node.data, Node.object, Json.stmts, fieldStmts, t.stmts_data]
    show [Option.map _ c.toNode.data.expr?] = _
    rw [c.expr?_data]
    rfl
  | .ifElse c t e => by
    simp only [Stmt.toNode, Node.data, Node.object, Json.stmts, fieldStmts, t.stmts_data, e.stmts_data]
    show [Option.map _ c.toNode.data.expr?] = _
    rw [c.expr?_data]
    rfl
  | .function f => f.stmts_data
  | .class n s ms => by
    have hmethods : ((ms.map fun f => some (Stmt.function f)).map (·.bind Stmt.function?)).allSome = some ms := by
      rw [List.map_map]
      exact allSome_map_some ms
    simp only [Stmt.toNode, Node.data, Node.object, Json.stmts, fieldStmts, itemStmts_functionData ms]
    show [Option.bind n.data.token? fun _ => Option.bind (superclassNode s).data.superclass? fun _ =>
      Option.map _ ((ms.map fun f => some (Stmt.function f)).map (·.bind Stmt.function?)).allSome] = _
    rw [n.token?_data, superclass?_data, hmethods]
    rfl

theorem Function.stmts_data : ∀ f : Function, f.toNode.data.stmts = [some (.function f)]
  | .mk n ps body => by
    simp only [Function.toNode, Node.data, Node.object, Json.stmts, fieldStmts, itemStmts_data body]
    show [Option.bind n.data.token? fun _ => Option.bind (Json.array (ps.map Token.data)).tokens? fun _ =>
      Option.map _ (body.map some).allSome] = _
    rw [n.token?_data, tokens?_data, allSome_map_some]
    rfl

theorem itemStmts_data : ∀ ss : List Stmt, itemStmts (Node.dataAll (stmtNodes ss)) = ss.map some
  | [] => rfl
  | s :: ss => by rw [stmtNodes, Node.dataAll, itemStmts, s.stmts_data, itemStmts_data ss]; rfl

theorem itemStmts_functionData : ∀ fs : List Function,
    itemStmts (Node.dataAll (functionNodes fs)) = fs.map fun f => some (.function f)
  | [] => rfl
  | f :: fs => by rw [functionNodes, Node.dataAll, itemStmts, f.stmts_data, itemStmts_functionData fs]; rfl

end

theorem Stmt.data_injective : Function.Injective Stmt.data := by
  intro s s' h
  have h := congrArg Json.stmts h
  rw [Stmt.data, Stmt.data, s.stmts_data, s'.stmts_data] at h
  simpa using h

end LoxSyntax
