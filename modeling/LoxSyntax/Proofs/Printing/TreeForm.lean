/-
  LoxSyntax.Proofs.Printing.TreeForm — the printed forms of trees, and what they leave out.

  A tree is printed as a form. The form has the lexemes of the tokens and not their places,
  and an infinite number is spelled in it like a name. So it is determined by the tree
  without these: the places are erased, and an infinite literal is read as a name.

  - `Stmt.render_eq`: a statement is printed as its form.
  - `Stmt.form_erased`: what is erased is not in the form.
-/

import LoxSyntax.Node.Render
import LoxSyntax.Proofs.Printing.Form

namespace LoxSyntax

namespace Printing.Form

/-- A list behind its head. -/
def node (head : String) (parts : List Form) : Form := .list (.atom head :: parts)

end Printing.Form

open Printing Form

/-! ## Forms of trees -/

def Literal.form : Literal → Form
  | .text s => .quoted s
  | v => .atom v.spelling

def nameForm (t : Token) : Form := .atom t.lexeme

mutual

def Expr.form : Expr → Form
  | .literal v => v.form
  | .grouping e => node "group" [e.form]
  | .unary o e => node o.lexeme [e.form]
  | .binary a o b => node o.lexeme [a.form, b.form]
  | .logical a o b => node o.lexeme [a.form, b.form]
  | .ident n => nameForm n
  | .assign n e => node "=" [nameForm n, e.form]
  | .call f _ as => node "call" (f.form :: exprForms as)
  | .get e n => node "." [e.form, nameForm n]
  | .set e n v => node "=" [node "." [e.form, nameForm n], v.form]
  | .this _ => .atom "this"
  | .super _ m => node "super" [nameForm m]

def exprForms : List Expr → List Form
  | [] => []
  | e :: es => e.form :: exprForms es

end

def optionalForms (e : Option Expr) : List Form := e.elim [] fun e => [e.form]

def superclassForms (s : Option Token) : List Form := s.elim [] fun n => [node "<" [nameForm n]]

mutual

def Stmt.form : Stmt → Form
  | .expression e => node ";" [e.form]
  | .print e => node "print" [e.form]
  | .var n e => node "var" (nameForm n :: optionalForms e)
  | .block body => node "block" (stmtForms body)
  | .ifThen c t => node "if" [c.form, t.form]
  | .ifElse c t e => node "if-else" [c.form, t.form, e.form]
  | .while c body => node "while" [c.form, body.form]
  | .function f => f.form
  | .return _ e => node "return" (optionalForms e)
  | .class n s ms => node "class" (nameForm n :: superclassForms s ++ functionForms ms)

def Function.form : Function → Form
  | .mk n ps body => node "fun" (nameForm n :: .list (ps.map nameForm) :: stmtForms body)

def stmtForms : List Stmt → List Form
  | [] => []
  | s :: ss => s.form :: stmtForms ss

def functionForms : List Function → List Form
  | [] => []
  | f :: fs => f.form :: functionForms fs

end

/-! ## Trees are printed as their forms -/

theorem parenthesize_text (head : String) (fs : List Form) : parenthesize head (fs.map text) = (node head fs).text := by
  rw [← String.toList_inj, parenthesize, node, text, String.toList_ofList, chars_list]
  simp only [String.toList_append, String.toList_intercalate, List.map_cons, List.map_map, chars]
  have ht : String.toList ∘ text = chars := funext fun f => String.toList_ofList
  rw [ht]
  rfl

theorem paramsText_eq (ps : List Token) : paramsText ps = (Form.list (ps.map nameForm)).text := by
  rw [← String.toList_inj, paramsText, text, String.toList_ofList, chars_list]
  simp only [String.toList_append, String.toList_intercalate, List.map_map]
  have ht : String.toList ∘ Token.lexeme = chars ∘ nameForm := funext fun t => by simp [nameForm, chars]
  rw [ht]
  rfl

theorem nameForm_text (t : Token) : (nameForm t).text = t.lexeme := String.ofList_toList

theorem literalText_eq (v : Literal) : literalText v = v.form.text := by
  cases v with
  | text s => rw [← String.toList_inj]; simp [literalText, Literal.form, text, chars]
  | _ => exact String.ofList_toList.symm

mutual

theorem Expr.render_eq : ∀ e : Expr, e.toNode.render = e.form.text
  | .literal v => literalText_eq v
  | .grouping e => by simp [Expr.toNode, Node.render, Expr.form, ← parenthesize_text, e.render_eq]
  | .unary _ e => by simp [Expr.toNode, Node.render, Expr.form, ← parenthesize_text, e.render_eq]
  | .binary a _ b => by simp [Expr.toNode, Node.render, Expr.form, ← parenthesize_text, a.render_eq, b.render_eq]
  | .logical a _ b => by simp [Expr.toNode, Node.render, Expr.form, ← parenthesize_text, a.render_eq, b.render_eq]
  | .ident n => (nameForm_text n).symm
  | .assign _ e => by simp [Expr.toNode, Node.render, Expr.form, ← parenthesize_text, nameForm_text, e.render_eq]
  | .call f _ as => by
    simp [Expr.toNode, Node.render, Expr.form, ← parenthesize_text, f.render_eq, renderAll_exprNodes as]
  | .get e _ => by simp [Expr.toNode, Node.render, Expr.form, ← parenthesize_text, nameForm_text, e.render_eq]
  | .set e _ v => by
    simp [Expr.toNode, Node.render, Expr.form, ← parenthesize_text, nameForm_text, e.render_eq, v.render_eq]
  | .this _ => String.ofList_toList.symm
  | .super _ _ => by simp [Expr.toNode, Node.render, Expr.form, ← parenthesize_text, nameForm_text]

theorem renderAll_exprNodes : ∀ es : List Expr, Node.renderAll (exprNodes es) = (exprForms es).map text
  | [] => rfl
  | e :: es => by rw [exprNodes, Node.renderAll, e.render_eq, renderAll_exprNodes es, exprForms, List.map_cons]

end

theorem render_optionalNode (e : Option Expr) :
    (if (optionalNode e).isAbsent then [] else [(optionalNode e).render]) = (optionalForms e).map text := by
  cases e with
  | none => rfl
  | some e => simp [optionalNode, e.isAbsent_toNode, e.render_eq, optionalForms]

theorem superclassParts_superclassNode (s : Option Token) :
    Node.superclassParts (superclassNode s) = (superclassForms s).map text := by
  cases s with
  | none => rfl
  | some n =>
    have h := parenthesize_text "<" [nameForm n]
    rw [List.map_singleton, nameForm_text] at h
    simp [superclassNode, Node.superclassParts, Node.isAbsent, Node.name?, superclassForms, h]

mutual

/-- A statement is printed as its form. -/
theorem Stmt.render_eq : ∀ s : Stmt, s.toNode.render = s.form.text
  | .expression e => by simp [Stmt.toNode, Node.render, Stmt.form, ← parenthesize_text, e.render_eq]
  | .print e => by simp [Stmt.toNode, Node.render, Stmt.form, ← parenthesize_text, e.render_eq]
  | .var _ e => by
    simp [Stmt.toNode, Node.render, Stmt.form, ← parenthesize_text, nameForm_text, ← render_optionalNode]
  | .block body => by simp [Stmt.toNode, Node.render, Stmt.form, ← parenthesize_text, renderAll_stmtNodes body]
  | .ifThen c t => by
    simp [Stmt.toNode, Node.render, Stmt.form, ← parenthesize_text, c.render_eq, t.render_eq, Node.absent, Stray.absent,
      Node.isAbsent]
  | .ifElse c t e => by
    simp [Stmt.toNode, Node.render, Stmt.form, ← parenthesize_text, c.render_eq, t.render_eq, e.render_eq,
      e.isAbsent_toNode]
  | .while c body => by simp [Stmt.toNode, Node.render, Stmt.form, ← parenthesize_text, c.render_eq, body.render_eq]
  | .function f => f.render_eq
  | .return _ e => by simp [Stmt.toNode, Node.render, Stmt.form, ← parenthesize_text, ← render_optionalNode]
  | .class _ s ms => by
    simp [Stmt.toNode, Node.render, Stmt.form, ← parenthesize_text, nameForm_text, superclassParts_superclassNode,
      renderAll_functionNodes ms]

theorem Function.render_eq : ∀ f : Function, f.toNode.render = f.form.text
  | .mk _ ps body => by
    simp [Function.toNode, Node.render, Function.form, ← parenthesize_text, nameForm_text, paramsText_eq,
      renderAll_stmtNodes body]

theorem renderAll_stmtNodes : ∀ ss : List Stmt, Node.renderAll (stmtNodes ss) = (stmtForms ss).map text
  | [] => rfl
  | s :: ss => by rw [stmtNodes, Node.renderAll, s.render_eq, renderAll_stmtNodes ss, stmtForms, List.map_cons]

theorem renderAll_functionNodes : ∀ fs : List Function, Node.renderAll (functionNodes fs) = (functionForms fs).map text
  | [] => rfl
  | f :: fs => by
    rw [functionNodes, Node.renderAll, f.render_eq, renderAll_functionNodes fs, functionForms, List.map_cons]

end

/-- A program is printed as the forms of its statements, line by line. -/
theorem printProgram_eq (ss : List Stmt) : printProgram ss = String.ofList (lines (stmtForms ss)) := by
  have hs : ∀ ss : List Stmt, ss.map Stmt.render = (stmtForms ss).map text := by
    intro ss
    induction ss with
    | nil => rfl
    | cons s ss ih => rw [List.map_cons, ih, stmtForms, List.map_cons, Stmt.render, s.render_eq]
  have ht : String.toList ∘ text = chars := funext fun f => String.toList_ofList
  rw [printProgram, hs, ← String.toList_inj, String.toList_ofList, lines_eq, String.toList_intercalate,
    List.map_map, ht]
  rfl

/-! ## What is not printed -/

/-- A token without its place. -/
def Token.erased (t : Token) : Token := { t with line := 0, column := 0 }

/-- A token of a kind that carries no value, without its place. -/
def symbol (kind : TokenKind) (lexeme : String) : Token := ⟨kind, lexeme, .nil, 0, 0⟩

/-- A literal, or the name that infinity is read as. -/
def Literal.erased : Literal → Expr
  | .number (.infinite false) => .ident (symbol .identifier "inf")
  | v => .literal v

mutual

def Expr.erased : Expr → Expr
  | .literal v => v.erased
  | .grouping e => .grouping e.erased
  | .unary o e => .unary o.erased e.erased
  | .binary a o b => .binary a.erased o.erased b.erased
  | .logical a o b => .logical a.erased o.erased b.erased
  | .ident n => .ident n.erased
  | .assign n e => .assign n.erased e.erased
  | .call f p as => .call f.erased p.erased (erasedExprs as)
  | .get e n => .get e.erased n.erased
  | .set e n v => .set e.erased n.erased v.erased
  | .this k => .this k.erased
  | .super k m => .super k.erased m.erased

def erasedExprs : List Expr → List Expr
  | [] => []
  | e :: es => e.erased :: erasedExprs es

end

mutual

def Stmt.erased : Stmt → Stmt
  | .expression e => .expression e.erased
  | .print e => .print e.erased
  | .var n e => .var n.erased (e.map Expr.erased)
  | .block body => .block (erasedStmts body)
  | .ifThen c t => .ifThen c.erased t.erased
  | .ifElse c t e => .ifElse c.erased t.erased e.erased
  | .while c body => .while c.erased body.erased
  | .function f => .function f.erased
  | .return k e => .return k.erased (e.map Expr.erased)
  | .class n s ms => .class n.erased (s.map Token.erased) (erasedFunctions ms)

def Function.erased : Function → Function
  | .mk n ps body => .mk n.erased (ps.map Token.erased) (erasedStmts body)

def erasedStmts : List Stmt → List Stmt
  | [] => []
  | s :: ss => s.erased :: erasedStmts ss

def erasedFunctions : List Function → List Function
  | [] => []
  | f :: fs => f.erased :: erasedFunctions fs

end

theorem nameForm_erased (t : Token) : nameForm t.erased = nameForm t := rfl

theorem Literal.form_erased (v : Literal) : v.erased.form = v.form := by
  unfold Literal.erased
  split <;> rfl

mutual

theorem Expr.form_erased : ∀ e : Expr, e.erased.form = e.form
  | .literal v => v.form_erased
  | .ident _ | .this _ | .super _ _ => rfl
  | .grouping e | .unary _ e | .assign _ e | .get e _ => by
    simp [Expr.erased, Expr.form, e.form_erased, nameForm, Token.erased]
  | .binary a _ b | .logical a _ b | .set a _ b => by
    simp [Expr.erased, Expr.form, a.form_erased, b.form_erased, nameForm, Token.erased]
  | .call f _ as => by simp [Expr.erased, Expr.form, f.form_erased, exprForms_erased as]

theorem exprForms_erased : ∀ es : List Expr, exprForms (erasedExprs es) = exprForms es
  | [] => rfl
  | e :: es => by rw [erasedExprs, exprForms, e.form_erased, exprForms_erased es, exprForms]

end

theorem optionalForms_erased (e : Option Expr) : optionalForms (e.map Expr.erased) = optionalForms e := by
  cases e with
  | none => rfl
  | some e => simp [optionalForms, e.form_erased]

theorem superclassForms_erased (s : Option Token) : superclassForms (s.map Token.erased) = superclassForms s := by
  cases s <;> rfl

mutual

/-- What is erased is not in the form. -/
theorem Stmt.form_erased : ∀ s : Stmt, s.erased.form = s.form
  | .expression e | .print e => by simp [Stmt.erased, Stmt.form, e.form_erased]
  | .var _ e | .return _ e => by simp [Stmt.erased, Stmt.form, optionalForms_erased e, nameForm_erased]
  | .block body => by simp [Stmt.erased, Stmt.form, stmtForms_erased body]
  | .ifThen c t => by simp [Stmt.erased, Stmt.form, c.form_erased, t.form_erased]
  | .ifElse c t e => by simp [Stmt.erased, Stmt.form, c.form_erased, t.form_erased, e.form_erased]
  | .while c body => by simp [Stmt.erased, Stmt.form, c.form_erased, body.form_erased]
  | .function f => f.form_erased
  | .class _ s ms => by
    simp [Stmt.erased, Stmt.form, superclassForms_erased s, functionForms_erased ms, nameForm_erased]

theorem Function.form_erased : ∀ f : Function, f.erased.form = f.form
  | .mk _ ps body => by
    have hps : (ps.map Token.erased).map nameForm = ps.map nameForm := by rw [List.map_map]; rfl
    simp only [Function.erased, Function.form, stmtForms_erased body, hps, nameForm_erased]

theorem stmtForms_erased : ∀ ss : List Stmt, stmtForms (erasedStmts ss) = stmtForms ss
  | [] => rfl
  | s :: ss => by rw [erasedStmts, stmtForms, s.form_erased, stmtForms_erased ss, stmtForms]

theorem functionForms_erased : ∀ fs : List Function, functionForms (erasedFunctions fs) = functionForms fs
  | [] => rfl
  | f :: fs => by rw [erasedFunctions, functionForms, f.form_erased, functionForms_erased fs, functionForms]

end

end LoxSyntax
