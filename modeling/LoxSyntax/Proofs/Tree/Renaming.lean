/-
  LoxSyntax.Proofs.Tree.Renaming — other tokens in a tree.

  A renaming gives each token another one of the same kind and with the same literal; the
  lexeme and the place may be any. A tree is renamed by renaming each token that it keeps,
  so its nodes and its literals stay as they are.

  - `Expr.assignTo?_rename`, `Stmt.forLoop_rename`: what the parser builds from renamed
    parts is renamed.
  - `Stmt.rename_id`: a tree with every token as it is.
-/

import LoxSyntax.Tree

namespace LoxSyntax

structure Renaming where
  token : Token → Token
  kind_token (t : Token) : (token t).kind = t.kind
  literal_token (t : Token) : (token t).literal = t.literal

namespace Renaming

instance : CoeFun Renaming fun _ => Token → Token := ⟨token⟩

/-- Every token stays as it is. -/
def id : Renaming := ⟨fun t => t, fun _ => rfl, fun _ => rfl⟩

end Renaming

mutual

def Expr.rename (f : Renaming) : Expr → Expr
  | .literal value => .literal value
  | .grouping inner => .grouping (inner.rename f)
  | .unary operator operand => .unary (f operator) (operand.rename f)
  | .binary left operator right => .binary (left.rename f) (f operator) (right.rename f)
  | .logical left operator right => .logical (left.rename f) (f operator) (right.rename f)
  | .ident name => .ident (f name)
  | .assign name value => .assign (f name) (value.rename f)
  | .call callee paren arguments => .call (callee.rename f) (f paren) (renameExprs f arguments)
  | .get object name => .get (object.rename f) (f name)
  | .set object name value => .set (object.rename f) (f name) (value.rename f)
  | .this keyword => .this (f keyword)
  | .super keyword method => .super (f keyword) (f method)

def renameExprs (f : Renaming) : List Expr → List Expr
  | [] => []
  | e :: es => e.rename f :: renameExprs f es

end

mutual

def Stmt.rename (f : Renaming) : Stmt → Stmt
  | .expression value => .expression (value.rename f)
  | .print value => .print (value.rename f)
  | .var name value => .var (f name) (value.map (Expr.rename f))
  | .block body => .block (renameStmts f body)
  | .ifThen condition thenBranch => .ifThen (condition.rename f) (thenBranch.rename f)
  | .ifElse condition thenBranch elseBranch =>
    .ifElse (condition.rename f) (thenBranch.rename f) (elseBranch.rename f)
  | .while condition body => .while (condition.rename f) (body.rename f)
  | .function declaration => .function (declaration.rename f)
  | .return keyword value => .return (f keyword) (value.map (Expr.rename f))
  | .class name superclass methods => .class (f name) (superclass.map f) (renameFunctions f methods)

def Function.rename (f : Renaming) : Function → Function
  | .mk name params body => .mk (f name) (params.map f) (renameStmts f body)

def renameStmts (f : Renaming) : List Stmt → List Stmt
  | [] => []
  | s :: ss => s.rename f :: renameStmts f ss

def renameFunctions (f : Renaming) : List Function → List Function
  | [] => []
  | d :: ds => d.rename f :: renameFunctions f ds

end

theorem renameExprs_eq_map (f : Renaming) (es : List Expr) : renameExprs f es = es.map (Expr.rename f) := by
  induction es with
  | nil => rfl
  | cons e es ih => rw [renameExprs, ih, List.map_cons]

theorem renameStmts_eq_map (f : Renaming) (ss : List Stmt) : renameStmts f ss = ss.map (Stmt.rename f) := by
  induction ss with
  | nil => rfl
  | cons s ss ih => rw [renameStmts, ih, List.map_cons]

theorem renameFunctions_eq_map (f : Renaming) (ds : List Function) :
    renameFunctions f ds = ds.map (Function.rename f) := by
  induction ds with
  | nil => rfl
  | cons d ds ih => rw [renameFunctions, ih, List.map_cons]

theorem Expr.rename_call (f : Renaming) (callee : Expr) (paren : Token) (arguments : List Expr) :
    (Expr.call callee paren arguments).rename f = .call (callee.rename f) (f paren) (arguments.map (rename f)) := by
  rw [rename, renameExprs_eq_map]

theorem Stmt.rename_block (f : Renaming) (body : List Stmt) :
    (Stmt.block body).rename f = .block (body.map (rename f)) := by
  rw [rename, renameStmts_eq_map]

theorem Stmt.rename_class (f : Renaming) (name : Token) (superclass : Option Token) (methods : List Function) :
    (Stmt.class name superclass methods).rename f =
      .class (f name) (superclass.map f) (methods.map (Function.rename f)) := by
  rw [rename, renameFunctions_eq_map]

theorem Function.rename_mk (f : Renaming) (name : Token) (params : List Token) (body : List Stmt) :
    (Function.mk name params body).rename f = .mk (f name) (params.map f) (body.map (Stmt.rename f)) := by
  rw [rename, renameStmts_eq_map]

/-! ## What the parser builds -/

theorem Expr.assignTo?_rename (f : Renaming) (target value : Expr) :
    (target.rename f).assignTo? (value.rename f) = (target.assignTo? value).map (Expr.rename f) := by
  cases target <;> rfl

theorem Stmt.followedBy_rename (f : Renaming) (body : Stmt) (increment : Option Expr) :
    (body.followedBy increment).rename f = (body.rename f).followedBy (increment.map (Expr.rename f)) := by
  cases increment <;> rfl

theorem Stmt.precededBy_rename (f : Renaming) (loop : Stmt) (initializer : Option Stmt) :
    (loop.precededBy initializer).rename f = (loop.rename f).precededBy (initializer.map (Stmt.rename f)) := by
  cases initializer <;> rfl

theorem Stmt.forLoop_rename (f : Renaming) (initializer : Option Stmt) (condition increment : Option Expr)
    (body : Stmt) : (forLoop initializer condition increment body).rename f =
      forLoop (initializer.map (Stmt.rename f)) (condition.map (Expr.rename f)) (increment.map (Expr.rename f))
        (body.rename f) := by
  rw [forLoop, precededBy_rename, Stmt.rename, followedBy_rename]
  cases condition <;> rfl

/-! ## Every token as it is -/

@[simp] theorem Renaming.id_token (t : Token) : Renaming.id t = t := rfl

@[simp] theorem Renaming.id_fun : (Renaming.id : Token → Token) = fun t => t := rfl

mutual

@[simp] theorem Expr.rename_id : ∀ e : Expr, e.rename .id = e
  | .literal _ | .ident _ | .this _ | .super _ _ => rfl
  | .grouping e => by simp [Expr.rename, e.rename_id]
  | .unary _ e => by simp [Expr.rename, e.rename_id]
  | .binary a _ b => by simp [Expr.rename, a.rename_id, b.rename_id]
  | .logical a _ b => by simp [Expr.rename, a.rename_id, b.rename_id]
  | .assign _ e => by simp [Expr.rename, e.rename_id]
  | .call e _ as => by simp [Expr.rename, e.rename_id, renameExprs_id as]
  | .get e _ => by simp [Expr.rename, e.rename_id]
  | .set e _ v => by simp [Expr.rename, e.rename_id, v.rename_id]

theorem renameExprs_id : ∀ es : List Expr, renameExprs .id es = es
  | [] => rfl
  | e :: es => by rw [renameExprs, e.rename_id, renameExprs_id es]

end

theorem Expr.map_rename_id (o : Option Expr) : o.map (Expr.rename .id) = o := by cases o <;> simp

mutual

@[simp] theorem Stmt.rename_id : ∀ s : Stmt, s.rename .id = s
  | .expression _ | .print _ => by simp [Stmt.rename]
  | .var _ value => by simp [Stmt.rename, Expr.map_rename_id value]
  | .block body => by simp [Stmt.rename, renameStmts_id body]
  | .ifThen _ s => by simp [Stmt.rename, s.rename_id]
  | .ifElse _ s t => by simp [Stmt.rename, s.rename_id, t.rename_id]
  | .while _ s => by simp [Stmt.rename, s.rename_id]
  | .function d => by simp [Stmt.rename, d.rename_id]
  | .return _ value => by simp [Stmt.rename, Expr.map_rename_id value]
  | .class _ _ methods => by simp [Stmt.rename, renameFunctions_id methods]

theorem Function.rename_id : ∀ d : Function, d.rename .id = d
  | .mk _ _ body => by simp [Function.rename, renameStmts_id body]

theorem renameStmts_id : ∀ ss : List Stmt, renameStmts .id ss = ss
  | [] => rfl
  | s :: ss => by rw [renameStmts, s.rename_id, renameStmts_id ss]

theorem renameFunctions_id : ∀ ds : List Function, renameFunctions .id ds = ds
  | [] => rfl
  | d :: ds => by rw [renameFunctions, d.rename_id, renameFunctions_id ds]

end

end LoxSyntax
