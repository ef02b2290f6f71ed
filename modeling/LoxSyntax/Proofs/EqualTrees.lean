/-
  LoxSyntax.Proofs.EqualTrees — what equal trees tell of two programs.

  Trees that compare equal have the same value in each place. A truth value counts as a
  number there, and neither the printed form nor the data takes one for the other. So equal
  trees are told apart just where one has a truth value and the other a number, and else
  they are identical.

  - `SameValues.eq_of_truths`: values are the same and not identical only beside a truth value.
  - `same_statements`: what is printed of the equal trees of two sources, and their data.
  - `same_number_truth`: the number one and the truth.
-/

import LoxSyntax.Proofs.PrintedForm
import LoxSyntax.Proofs.Tree.Data
import LoxSyntax.Proofs.Tree.Twins

namespace LoxSyntax

/-! ## Values in the same places -/

/-- Where the truth values are among the values of the literals. -/
def truths (ss : List Stmt) : List Bool := (stmtsValues ss).map Literal.isTruth

theorem SameValues.eq_of_truths {vs ws : List Literal} (h : SameValues vs ws) (hv : ∀ v ∈ vs, v.Spelled)
    (hw : ∀ w ∈ ws, w.Spelled) (ht : vs.map Literal.isTruth = ws.map Literal.isTruth) : vs = ws := by
  induction h with
  | nil => rfl
  | cons h _ ih =>
    obtain ⟨hv, hvs⟩ := List.forall_mem_cons.1 hv
    obtain ⟨hw, hws⟩ := List.forall_mem_cons.1 hw
    obtain ⟨ht, hts⟩ := List.cons.inj ht
    rw [hv.eq_of_same hw h ht, ih hvs hws hts]

/-! ## Values that are printed as such -/

def Literal.isInfinite : Literal → Bool
  | .number (.infinite false) => true
  | _ => false

/-- An infinite value is the same as itself only. -/
theorem Literal.Spelled.isInfinite_eq_of_same {v w : Literal} (hv : v.Spelled) (hw : w.Spelled) (h : v.same w = true) :
    v.isInfinite = w.isInfinite := by
  have htruth : ∀ b, (Literal.ofTruth b).same (.infinite false) = false ∧
      Binary64.same (.infinite false) (Literal.ofTruth b) = false := by decide
  cases hv with
  | infinite =>
    cases hw with
    | boolean b => exact absurd ((htruth b).2.symm.trans h) Bool.false_ne_true
    | infinite => rfl
    | _ => simp [Literal.same, Binary64.same, Binary64.isZero] at h
  | boolean b =>
    cases hw with
    | infinite => exact absurd ((htruth b).1.symm.trans h) Bool.false_ne_true
    | _ => rfl
  | _ =>
    cases hw with
    | infinite => simp [Literal.same, Binary64.same, Binary64.isZero] at h
    | _ => rfl

theorem Literal.eq_of_isInfinite {v : Literal} (h : v.isInfinite = true) : v = .number (.infinite false) := by
  unfold isInfinite at h
  split at h
  · rfl
  · cases h

/-- Values that are the same in each place are identical if those are that are not infinite. -/
theorem SameValues.eq_of_finite {vs ws : List Literal} (h : SameValues vs ws) (hv : ∀ v ∈ vs, v.Spelled)
    (hw : ∀ w ∈ ws, w.Spelled) (hf : vs.filter (!·.isInfinite) = ws.filter (!·.isInfinite)) : vs = ws := by
  induction h with
  | nil => rfl
  | @cons v w vs ws h _ ih =>
    obtain ⟨hv, hvs⟩ := List.forall_mem_cons.1 hv
    obtain ⟨hw, hws⟩ := List.forall_mem_cons.1 hw
    have hi' := hv.isInfinite_eq_of_same hw h
    cases hi : v.isInfinite with
    | true =>
      rw [hi] at hi'
      rw [List.filter_cons_of_neg (by simp [hi]), List.filter_cons_of_neg (by simp [← hi'])] at hf
      rw [Literal.eq_of_isInfinite hi, Literal.eq_of_isInfinite hi'.symm, ih hvs hws hf]
    | false =>
      rw [hi] at hi'
      rw [List.filter_cons_of_pos (by simp [hi]), List.filter_cons_of_pos (by simp [← hi'])] at hf
      obtain ⟨hhead, hf⟩ := List.cons.inj hf
      rw [hhead, ih hvs hws hf]

mutual

theorem Expr.values_erased : ∀ e : Expr, e.erased.values = e.values.filter (!·.isInfinite)
  | .literal v => by
    cases v with
    | number x =>
      cases x with
      | infinite negative => cases negative <;> rfl
      | _ => rfl
    | _ => rfl
  | .ident _ | .this _ | .super _ _ => rfl
  | .grouping e | .unary _ e | .assign _ e | .get e _ => e.values_erased
  | .binary a _ b | .logical a _ b | .set a _ b => by
    rw [Expr.erased, Expr.values, a.values_erased, b.values_erased, Expr.values, List.filter_append]
  | .call f _ as => by
    rw [Expr.erased, Expr.values, f.values_erased, exprsValues_erased as, Expr.values, List.filter_append]

theorem exprsValues_erased : ∀ es : List Expr,
    exprsValues (erasedExprs es) = (exprsValues es).filter (!·.isInfinite)
  | [] => rfl
  | e :: es => by
    rw [erasedExprs, exprsValues, e.values_erased, exprsValues_erased es, exprsValues, List.filter_append]

end

theorem optionalValues_erased (e : Option Expr) :
    optionalValues (e.map Expr.erased) = (optionalValues e).filter (!·.isInfinite) := by
  cases e with
  | none => rfl
  | some e => exact e.values_erased

mutual

theorem Stmt.values_erased : ∀ s : Stmt, s.erased.values = s.values.filter (!·.isInfinite)
  | .expression e | .print e => e.values_erased
  | .var _ e | .return _ e => optionalValues_erased e
  | .block body => stmtsValues_erased body
  | .ifThen c t | .while c t => by
    rw [Stmt.erased, Stmt.values, c.values_erased, t.values_erased, Stmt.values, List.filter_append]
  | .ifElse c t e => by
    rw [Stmt.erased, Stmt.values, c.values_erased, t.values_erased, e.values_erased, Stmt.values, List.filter_append,
      List.filter_append]
  | .function f => f.values_erased
  | .class _ _ ms => functionsValues_erased ms

theorem Function.values_erased : ∀ f : Function, f.erased.values = f.values.filter (!·.isInfinite)
  | .mk _ _ body => stmtsValues_erased body

theorem stmtsValues_erased : ∀ ss : List Stmt,
    stmtsValues (erasedStmts ss) = (stmtsValues ss).filter (!·.isInfinite)
  | [] => rfl
  | s :: ss => by
    rw [erasedStmts, stmtsValues, s.values_erased, stmtsValues_erased ss, stmtsValues, List.filter_append]

theorem functionsValues_erased : ∀ fs : List Function,
    functionsValues (erasedFunctions fs) = (functionsValues fs).filter (!·.isInfinite)
  | [] => rfl
  | f :: fs => by
    rw [erasedFunctions, functionsValues, f.values_erased, functionsValues_erased fs, functionsValues,
      List.filter_append]

end

/-! ## Equal trees -/

/-- The equal trees of two accepted sources have the same values. They are printed as the
    same text, and give the same data, exactly if they have truth values in the same places;
    then they are identical. -/
theorem same_statements {a b : String} (ha : (parseSource a).diagnostics = []) (hb : (parseSource b).diagnostics = [])
    (h : Node.sameAll (stmtNodes (parseSource a).statements) (stmtNodes (parseSource b).statements) = true) :
    SameValues (stmtsValues (parseSource a).statements) (stmtsValues (parseSource b).statements) ∧
      ((parseSource a).statements = (parseSource b).statements ↔
        truths (parseSource a).statements = truths (parseSource b).statements) ∧
      ((parseSource a).printed = (parseSource b).printed ↔
        truths (parseSource a).statements = truths (parseSource b).statements) ∧
      ((parseSource a).statements.map Stmt.data = (parseSource b).statements.map Stmt.data ↔
        truths (parseSource a).statements = truths (parseSource b).statements) := by
  obtain ⟨hsame, heq⟩ := stmts_twins h (scanned_of_parseSource ha) (scanned_of_parseSource hb)
  have hspelled := spelled_of_parseSource ha
  have hspelled' := spelled_of_parseSource hb
  have htruths : (parseSource a).statements = (parseSource b).statements ↔
      truths (parseSource a).statements = truths (parseSource b).statements :=
    ⟨congrArg truths, fun ht => heq (hsame.eq_of_truths hspelled hspelled' ht)⟩
  refine ⟨hsame, htruths, ⟨fun hp => ?_, fun ht => ?_⟩, ⟨fun hd => ?_, fun ht => ?_⟩⟩
  · have hfinite := congrArg stmtsValues (erased_of_printed ha hb hp)
    rw [stmtsValues_erased, stmtsValues_erased] at hfinite
    exact htruths.1 (heq (hsame.eq_of_finite hspelled hspelled' hfinite))
  · rw [Program.printed, Program.printed, htruths.2 ht]
  · exact htruths.1 (Stmt.data_injective.list_map hd)
  · rw [htruths.2 ht]

theorem same_statements_number :
    (parseSource "1;").diagnostics = [] ∧ (parseSource "01;").diagnostics = [] ∧
      Node.sameAll (stmtNodes (parseSource "1;").statements) (stmtNodes (parseSource "01;").statements) = true ∧
      (parseSource "1;").printed = (parseSource "01;").printed :=
  have ha : (parseSource "1;").diagnostics = [] := by decide +kernel
  have hb : (parseSource "01;").diagnostics = [] := by decide +kernel
  have h : Node.sameAll (stmtNodes (parseSource "1;").statements) (stmtNodes (parseSource "01;").statements) =
      true := by
    decide +kernel
  ⟨ha, hb, h, (same_statements ha hb h).2.2.1.2 (by decide +kernel)⟩

/-- The number one and the truth are equal trees, printed as different texts and with
    different data. -/
theorem same_number_truth :
    (parseSource "1;").diagnostics = [] ∧ (parseSource "true;").diagnostics = [] ∧
      Node.sameAll (stmtNodes (parseSource "1;").statements) (stmtNodes (parseSource "true;").statements) = true ∧
      (parseSource "1;").printed ≠ (parseSource "true;").printed ∧
      (parseSource "1;").statements.map Stmt.data ≠ (parseSource "true;").statements.map Stmt.data := by
  have hprinted : (parseSource "1;").printed ≠ (parseSource "true;").printed := by decide +kernel
  refine ⟨by decide +kernel, by decide +kernel, by decide +kernel, hprinted, fun hd => hprinted ?_⟩
  rw [Program.printed, Program.printed, Stmt.data_injective.list_map hd]

end LoxSyntax
