/-
  LoxSyntax.Proofs.Tree.Twins — trees that compare equal, field by field.

  Two fields that a source can give are the same only if they are identical, but for one
  case: a truth value counts as a number there. So the tokens of two equal trees are
  identical, the values are the same in each place, and the trees are identical if the
  values are.

  - `Literal.Spelled.eq_of_same`: values that are the same, and both truth values or not.
  - `Expr.twins`, `Stmt.twins`: trees that compare equal.
-/

import Mathlib.Data.List.Forall2
import LoxSyntax.Proofs.AcceptedSources

namespace LoxSyntax

open Lexical

/-! ## Values and tokens -/

def Literal.isTruth : Literal → Bool
  | .boolean _ => true
  | _ => false

/-- Of values that a source can spell, only a truth value and a number are the same without
    being identical. -/
theorem Literal.Spelled.eq_of_same {v w : Literal} (hv : v.Spelled) (hw : w.Spelled) (h : v.same w = true)
    (ht : v.isTruth = w.isTruth) : v = w := by
  have hne : ∀ rank, (Binary64.finite false rank).same (.infinite false) = false := fun rank => by
    simp [Binary64.same, Binary64.isZero]
  cases hv with
  | nil =>
    cases hw with
    | nil => rfl
    | _ => cases h
  | boolean b =>
    cases hw with
    | boolean b' => exact congrArg _ (beq_iff_eq.1 h)
    | nil | text => cases h
    | _ => cases ht
  | finite rank =>
    cases hw with
    | finite rank' =>
      simp only [same, Binary64.same, Binary64.isZero, Bool.or_eq_true, Bool.and_eq_true, beq_iff_eq] at h
      rcases h with ⟨h, h'⟩ | ⟨h, -⟩
      · rw [Fin.ext (h.trans h'.symm)]
      · rw [h]
    | infinite => exact absurd ((hne rank).symm.trans h) Bool.false_ne_true
    | boolean => cases ht
    | _ => cases h
  | infinite =>
    cases hw with
    | infinite => rfl
    | finite rank => exact absurd ((hne rank).symm.trans ((Binary64.same_comm _ _).trans h)) Bool.false_ne_true
    | boolean => cases ht
    | _ => cases h
  | text =>
    cases hw with
    | text => exact congrArg _ (beq_iff_eq.1 h)
    | _ => cases h

theorem Lexical.Scanned.isTruth {t : Token} (h : Scanned t) : t.literal.isTruth = false := by
  obtain ⟨l, -, -, hl⟩ := h
  rw [hl]
  cases l <;> rfl

theorem Lexical.Scanned.eq_of_same {t u : Token} (ht : Scanned t) (hu : Scanned u) (h : t.same u = true) : t = u := by
  simp only [Token.same, Bool.and_eq_true, beq_iff_eq] at h
  obtain ⟨⟨⟨⟨hkind, hlexeme⟩, hliteral⟩, hline⟩, hcolumn⟩ := h
  have hliteral := ht.spelled.eq_of_same hu.spelled hliteral (ht.isTruth.trans hu.isTruth.symm)
  obtain ⟨_, _, _, _, _⟩ := t
  obtain ⟨_, _, _, _, _⟩ := u
  cases hkind
  cases hlexeme
  cases hliteral
  cases hline
  cases hcolumn
  rfl

/-! ## Twins -/

/-- Values that are the same in each place. -/
abbrev SameValues (vs ws : List Literal) : Prop := List.Forall₂ (fun v w => v.same w = true) vs ws

/-- The values are the same in each place, and the statement holds if they are identical. -/
structure Twins (vs ws : List Literal) (P : Prop) : Prop where
  same : SameValues vs ws
  eq : vs = ws → P

namespace Twins

variable {vs vs' ws ws' : List Literal} {P Q : Prop}

theorem nil (h : P) : Twins [] [] P := ⟨.nil, fun _ => h⟩

theorem imp (h : Twins vs ws P) (hPQ : P → Q) : Twins vs ws Q := ⟨h.same, fun he => hPQ (h.eq he)⟩

theorem append (h : Twins vs ws P) (h' : Twins vs' ws' Q) : Twins (vs ++ vs') (ws ++ ws') (P ∧ Q) := by
  refine ⟨List.rel_append h.same h'.same, fun he => ?_⟩
  obtain ⟨hl, hr⟩ := List.append_inj he h.same.length_eq
  exact ⟨h.eq hl, h'.eq hr⟩

end Twins

/-! ## Expressions -/

theorem Expr.same_absent (e : Expr) : Node.absent.same e.toNode = false ∧ e.toNode.same .absent = false := by
  cases e <;> exact ⟨rfl, rfl⟩

mutual

theorem Expr.twins : ∀ {a b : Expr}, a.toNode.same b.toNode = true → AllScanned a.tokens → AllScanned b.tokens →
    Twins a.values b.values (a = b)
  | .literal v, b, h, ha, hb => by
    cases b with
    | literal w => exact ⟨.cons h .nil, fun he => by rw [(List.cons.inj he).1]⟩
    | _ => cases h
  | .grouping e, b, h, ha, hb => by
    cases b with
    | grouping e' => exact (Expr.twins (a := e) h ha hb).imp (congrArg _)
    | _ => cases h
  | .unary o e, b, h, ha, hb => by
    cases b with
    | unary o' e' =>
      simp only [Expr.toNode, Node.same, Bool.and_eq_true, Expr.tokens, allScanned_cons] at h ha hb
      exact (Expr.twins h.2 ha.2 hb.2).imp fun he => by rw [he, ha.1.eq_of_same hb.1 h.1]
    | _ => cases h
  | .binary x o y, b, h, ha, hb => by
    cases b with
    | binary x' o' y' =>
      simp only [Expr.toNode, Node.same, Bool.and_eq_true, Expr.tokens, allScanned_append, allScanned_cons] at h ha hb
      refine ((Expr.twins h.1.1 ha.1 hb.1).append (Expr.twins h.2 ha.2.2 hb.2.2)).imp fun he => ?_
      rw [he.1, he.2, ha.2.1.eq_of_same hb.2.1 h.1.2]
    | _ => cases h
  | .logical x o y, b, h, ha, hb => by
    cases b with
    | logical x' o' y' =>
      simp only [Expr.toNode, Node.same, Bool.and_eq_true, Expr.tokens, allScanned_append, allScanned_cons] at h ha hb
      refine ((Expr.twins h.1.1 ha.1 hb.1).append (Expr.twins h.2 ha.2.2 hb.2.2)).imp fun he => ?_
      rw [he.1, he.2, ha.2.1.eq_of_same hb.2.1 h.1.2]
    | _ => cases h
  | .ident n, b, h, ha, hb => by
    cases b with
    | ident n' =>
      simp only [Expr.toNode, Node.same, Expr.tokens, allScanned_cons] at h ha hb
      exact .nil (by rw [ha.1.eq_of_same hb.1 h])
    | _ => cases h
  | .assign n e, b, h, ha, hb => by
    cases b with
    | assign n' e' =>
      simp only [Expr.toNode, Node.same, Bool.and_eq_true, Expr.tokens, allScanned_cons] at h ha hb
      exact (Expr.twins h.2 ha.2 hb.2).imp fun he => by rw [he, ha.1.eq_of_same hb.1 h.1]
    | _ => cases h
  | .call f p as, b, h, ha, hb => by
    cases b with
    | call f' p' as' =>
      simp only [Expr.toNode, Node.same, Bool.and_eq_true, Expr.tokens, allScanned_append, allScanned_cons] at h ha hb
      refine ((Expr.twins h.1.1 ha.1 hb.1).append (exprs_twins h.2 ha.2.1 hb.2.1)).imp fun he => ?_
      rw [he.1, he.2, ha.2.2.1.eq_of_same hb.2.2.1 h.1.2]
    | _ => cases h
  | .get e n, b, h, ha, hb => by
    cases b with
    | get e' n' =>
      simp only [Expr.toNode, Node.same, Bool.and_eq_true, Expr.tokens, allScanned_append, allScanned_cons] at h ha hb
      exact (Expr.twins h.1 ha.1 hb.1).imp fun he => by rw [he, ha.2.1.eq_of_same hb.2.1 h.2]
    | _ => cases h
  | .set e n v, b, h, ha, hb => by
    cases b with
    | set e' n' v' =>
      simp only [Expr.toNode, Node.same, Bool.and_eq_true, Expr.tokens, allScanned_append, allScanned_cons] at h ha hb
      refine ((Expr.twins h.1.1 ha.1 hb.1).append (Expr.twins h.2 ha.2.2 hb.2.2)).imp fun he => ?_
      rw [he.1, he.2, ha.2.1.eq_of_same hb.2.1 h.1.2]
    | _ => cases h
  | .this k, b, h, ha, hb => by
    cases b with
    | this k' =>
      simp only [Expr.toNode, Node.same, Expr.tokens, allScanned_cons] at h ha hb
      exact .nil (by rw [ha.1.eq_of_same hb.1 h])
    | _ => cases h
  | .super k m, b, h, ha, hb => by
    cases b with
    | super k' m' =>
      simp only [Expr.toNode, Node.same, Bool.and_eq_true, Expr.tokens, allScanned_cons] at h ha hb
      exact .nil (by rw [ha.1.eq_of_same hb.1 h.1, ha.2.1.eq_of_same hb.2.1 h.2])
    | _ => cases h

theorem exprs_twins : ∀ {as bs : List Expr}, Node.sameAll (exprNodes as) (exprNodes bs) = true →
    AllScanned (exprsTokens as) → AllScanned (exprsTokens bs) → Twins (exprsValues as) (exprsValues bs) (as = bs)
  | [], [], _, _, _ => .nil rfl
  | [], _ :: _, h, _, _ => nomatch h
  | _ :: _, [], h, _, _ => nomatch h
  | a :: as, b :: bs, h, ha, hb => by
    simp only [exprNodes, Node.sameAll, Bool.and_eq_true, exprsTokens, allScanned_append] at h ha hb
    exact ((Expr.twins h.1 ha.1 hb.1).append (exprs_twins h.2 ha.2 hb.2)).imp fun he => by rw [he.1, he.2]

end

theorem optional_twins {a b : Option Expr} (h : (optionalNode a).same (optionalNode b) = true)
    (ha : AllScanned (optionalTokens a)) (hb : AllScanned (optionalTokens b)) :
    Twins (optionalValues a) (optionalValues b) (a = b) := by
  cases a with
  | none =>
    cases b with
    | none => exact .nil rfl
    | some e => exact absurd (e.same_absent.1.symm.trans h) Bool.false_ne_true
  | some e =>
    cases b with
    | none => exact absurd (e.same_absent.2.symm.trans h) Bool.false_ne_true
    | some e' => exact (Expr.twins h ha hb).imp (congrArg some)

/-! ## Statements -/

theorem Stmt.same_absent (s : Stmt) : Node.absent.same s.toNode = false ∧ s.toNode.same .absent = false := by
  cases s with
  | function f => cases f; exact ⟨rfl, rfl⟩
  | _ => exact ⟨rfl, rfl⟩

theorem superclass_eq_of_same {s s' : Option Token} (h : (superclassNode s).same (superclassNode s') = true)
    (hs : AllScanned s.toList) (hs' : AllScanned s'.toList) : s = s' := by
  cases s with
  | none =>
    cases s' with
    | none => rfl
    | some n => cases h
  | some n =>
    cases s' with
    | none => cases h
    | some n' => rw [(hs n (by simp)).eq_of_same (hs' n' (by simp)) h]

theorem params_eq_of_same : ∀ {ps ps' : List Token}, Node.sameTokens ps ps' = true → AllScanned ps → AllScanned ps' →
    ps = ps'
  | [], [], _, _, _ => rfl
  | [], _ :: _, h, _, _ => nomatch h
  | _ :: _, [], h, _, _ => nomatch h
  | p :: ps, p' :: ps', h, hp, hp' => by
    simp only [Node.sameTokens, Bool.and_eq_true, allScanned_cons] at h hp hp'
    rw [hp.1.eq_of_same hp'.1 h.1, params_eq_of_same h.2 hp.2 hp'.2]

mutual

theorem Stmt.twins : ∀ {a b : Stmt}, a.toNode.same b.toNode = true → AllScanned a.tokens → AllScanned b.tokens →
    Twins a.values b.values (a = b)
  | .expression e, b, h, ha, hb => by
    cases b with
    | expression e' => exact (Expr.twins (a := e) h ha hb).imp (congrArg _)
    | function f => cases f; cases h
    | _ => cases h
  | .print e, b, h, ha, hb => by
    cases b with
    | print e' => exact (Expr.twins (a := e) h ha hb).imp (congrArg _)
    | function f => cases f; cases h
    | _ => cases h
  | .var n e, b, h, ha, hb => by
    cases b with
    | var n' e' =>
      simp only [Stmt.toNode, Node.same, Bool.and_eq_true, Stmt.tokens, allScanned_cons] at h ha hb
      exact (optional_twins h.2 ha.2 hb.2).imp fun he => by rw [he, ha.1.eq_of_same hb.1 h.1]
    | function f => cases f; cases h
    | _ => cases h
  | .block body, b, h, ha, hb => by
    cases b with
    | block body' =>
      have h : Node.sameAll (stmtNodes body) (stmtNodes body') = true := h
      exact (stmts_twins h ha hb).imp (congrArg _)
    | function f => cases f; cases h
    | _ => cases h
  | .ifThen c t, b, h, ha, hb => by
    cases b with
    | ifThen c' t' =>
      simp only [Stmt.toNode, Node.same, Bool.and_eq_true, Stmt.tokens, allScanned_append] at h ha hb
      exact ((Expr.twins h.1.1 ha.1 hb.1).append (Stmt.twins h.1.2 ha.2 hb.2)).imp fun he => by rw [he.1, he.2]
    | ifElse c' t' e' =>
      simp only [Stmt.toNode, Node.same, Bool.and_eq_true] at h
      exact absurd (e'.same_absent.1.symm.trans h.2) Bool.false_ne_true
    | function f => cases f; cases h
    | _ => cases h
  | .ifElse c t e, b, h, ha, hb => by
    cases b with
    | ifElse c' t' e' =>
      simp only [Stmt.toNode, Node.same, Bool.and_eq_true, Stmt.tokens, allScanned_append] at h ha hb
      have hbranches := (Stmt.twins h.1.2 ha.2.1 hb.2.1).append (Stmt.twins h.2 ha.2.2 hb.2.2)
      exact ((Expr.twins h.1.1 ha.1 hb.1).append hbranches).imp fun he => by rw [he.1, he.2.1, he.2.2]
    | ifThen c' t' =>
      simp only [Stmt.toNode, Node.same, Bool.and_eq_true] at h
      exact absurd (e.same_absent.2.symm.trans h.2) Bool.false_ne_true
    | function f => cases f; cases h
    | _ => cases h
  | .while c s, b, h, ha, hb => by
    cases b with
    | «while» c' s' =>
      simp only [Stmt.toNode, Node.same, Bool.and_eq_true, Stmt.tokens, allScanned_append] at h ha hb
      exact ((Expr.twins h.1 ha.1 hb.1).append (Stmt.twins h.2 ha.2 hb.2)).imp fun he => by rw [he.1, he.2]
    | function f => cases f; cases h
    | _ => cases h
  | .function f, b, h, ha, hb => by
    cases b with
    | function f' => exact (Function.twins (f := f) h ha hb).imp (congrArg _)
    | _ => cases f; cases h
  | .return k e, b, h, ha, hb => by
    cases b with
    | «return» k' e' =>
      simp only [Stmt.toNode, Node.same, Bool.and_eq_true, Stmt.tokens, allScanned_cons] at h ha hb
      exact (optional_twins h.2 ha.2 hb.2).imp fun he => by rw [he, ha.1.eq_of_same hb.1 h.1]
    | function f => cases f; cases h
    | _ => cases h
  | .class n s ms, b, h, ha, hb => by
    cases b with
    | «class» n' s' ms' =>
      simp only [Stmt.toNode, Node.same, Bool.and_eq_true, Stmt.tokens, allScanned_cons, allScanned_append] at h ha hb
      refine (functions_twins h.2 ha.2.2 hb.2.2).imp fun he => ?_
      rw [he, ha.1.eq_of_same hb.1 h.1.1, superclass_eq_of_same h.1.2 ha.2.1 hb.2.1]
    | function f => cases f; cases h
    | _ => cases h

theorem Function.twins : ∀ {f g : Function}, f.toNode.same g.toNode = true → AllScanned f.tokens →
    AllScanned g.tokens → Twins f.values g.values (f = g)
  | .mk n ps body, .mk n' ps' body', h, hf, hg => by
    simp only [Function.toNode, Node.same, Bool.and_eq_true, Function.tokens, allScanned_cons,
      allScanned_append] at h hf hg
    refine (stmts_twins h.2 hf.2.2 hg.2.2).imp fun he => ?_
    rw [he, hf.1.eq_of_same hg.1 h.1.1, params_eq_of_same h.1.2 hf.2.1 hg.2.1]

theorem stmts_twins : ∀ {as bs : List Stmt}, Node.sameAll (stmtNodes as) (stmtNodes bs) = true →
    AllScanned (stmtsTokens as) → AllScanned (stmtsTokens bs) → Twins (stmtsValues as) (stmtsValues bs) (as = bs)
  | [], [], _, _, _ => .nil rfl
  | [], _ :: _, h, _, _ => nomatch h
  | _ :: _, [], h, _, _ => nomatch h
  | a :: as, b :: bs, h, ha, hb => by
    simp only [stmtNodes, Node.sameAll, Bool.and_eq_true, stmtsTokens, allScanned_append] at h ha hb
    exact ((Stmt.twins h.1 ha.1 hb.1).append (stmts_twins h.2 ha.2 hb.2)).imp fun he => by rw [he.1, he.2]

theorem functions_twins : ∀ {fs gs : List Function}, Node.sameAll (functionNodes fs) (functionNodes gs) = true →
    AllScanned (functionsTokens fs) → AllScanned (functionsTokens gs) →
    Twins (functionsValues fs) (functionsValues gs) (fs = gs)
  | [], [], _, _, _ => .nil rfl
  | [], _ :: _, h, _, _ => nomatch h
  | _ :: _, [], h, _, _ => nomatch h
  | f :: fs, g :: gs, h, hf, hg => by
    simp only [functionNodes, Node.sameAll, Bool.and_eq_true, functionsTokens, allScanned_append] at h hf hg
    exact ((Function.twins h.1 hf.1 hg.1).append (functions_twins h.2 hf.2 hg.2)).imp fun he => by rw [he.1, he.2]

end

end LoxSyntax
