/-
  LoxSyntax.Proofs.Reading.SeveredReaders — the readers of programs are severed from what
  stands behind their tokens.

  The expressions, the statements and the declarations in front of more tokens are read as
  they are alone, or the reading goes on into those tokens. The levels that each reader
  follows may differ, as long as both follow enough.

  - `severed_expression`, `severed_levels`: readers that follow enough levels are severed.
-/

import LoxSyntax.Proofs.Reading.LocalReaders
import LoxSyntax.Proofs.Reading.Severance

namespace LoxSyntax.Parse

variable {r : List Token} {n : Nat}

/-! ## Calls -/

section Calls

variable {inner inner' : Parse Expr}

theorem severed_superMethod (keyword : Token) : Severed r n (superMethod keyword) (superMethod keyword) :=
  severed_bind (severed_expect _ _) fun _ => severed_bind (severed_expect _ _) fun _ => severed_pure _

theorem severed_grouped (h : Severed r n inner inner') : Severed r n (grouped inner) (grouped inner') :=
  severed_bind h fun _ => severed_bind (severed_expect _ _) fun _ => severed_pure _

theorem severedRules_primary (h : Severed r n inner inner') (t : Token) :
    SeveredRules r n (primaryRule inner t) (primaryRule inner' t) := by
  unfold primaryRule
  cases t.kind <;> first
    | exact .none
    | exact .some (severed_pure _)
    | exact .some (severed_superMethod t)
    | exact .some (severed_grouped h)

theorem severed_primary (h : Severed r (n - 1) inner inner') : Severed r n (primary inner) (primary inner') :=
  severed_dispatch (severedRules_primary h) (severed_fail _)

theorem severed_arguments (hr : r ≠ []) (h : Severed r n inner inner') (ha : Advances (n + r.length) inner) :
    Severed r n (arguments inner) (arguments inner') :=
  severed_unlessClosing (severed_items rfl hr h ha) fun _ _ => severed_pure _

theorem severed_finishCall (hr : r ≠ []) (h : Severed r n inner inner') (ha : Advances (n + r.length) inner)
    (callee : Expr) : Severed r n (finishCall inner callee) (finishCall inner' callee) :=
  severed_bind (severed_arguments hr h ha) fun _ => severed_pure _

theorem severed_property (object : Expr) : Severed r n (property object) (property object) :=
  severed_bind (severed_expect _ _) fun _ => severed_pure _

theorem severedRules_suffix (hr : r ≠ []) (h : Severed r n inner inner') (ha : Advances (n + r.length) inner) (e : Expr)
    (t : Token) : SeveredRules r n (suffixRule inner e t) (suffixRule inner' e t) := by
  unfold suffixRule
  cases t.kind <;> first
    | exact .none
    | exact .some (severed_finishCall hr h ha e)
    | exact .some (severed_property e)

theorem severed_suffixes (hr : r ≠ []) : ∀ (bound bound' : List Token) {n : Nat} (e : Expr),
    Severed r (n - 1) inner inner' → Advances (n - 1 + r.length) inner → Covers n r bound → Covers n [] bound' →
    Severed r n (suffixes inner bound e) (suffixes inner' bound' e)
  | b :: bound, b' :: bound', n, e, h, ha, hb, hb' => by
    refine severed_dispatch ?_ (severed_pure e)
    intro t
    have hs := severedRules_suffix hr h ha e t
    generalize suffixRule inner e t = o at hs
    generalize suffixRule inner' e t = o' at hs
    cases hs with
    | none => exact .none
    | some hs =>
      exact .some (severed_bind hs fun e' => severed_suffixes hr bound bound' e' (h.mono (Nat.sub_le _ 1))
        (ha.mono (by omega)) hb.tail hb'.tail)
  | [], bound', n, e, h, _, hb, _ => by
    obtain rfl := hb.eq_zero hr
    exact .of_zero (steady_pure _ e)
  | b :: bound, [], n, e, h, ha, _, hb' => by
    have hi : Steady (n + r.length - 1) inner := h.steady.mono (by omega)
    refine .over (steady_suffixes hi _ e) hb' (severs_dispatch_nil (fun t p hp => ?_) (.value [] e .nil))
    obtain ⟨q, hq, rfl⟩ := Option.map_eq_some_iff.1 hp
    have hs : Steady (n - 1 + r.length) q := (severedRules_suffix hr h ha e t).steady hq
    exact steady_bind (hs.mono (Nat.le_add_left _ _)) fun e =>
      (steady_suffixes hi bound e).mono (Nat.le_add_left _ _)

theorem severed_call (hr : r ≠ []) (h : Severed r (n - 1) inner inner') (ha : Advances (n - 1 + r.length) inner) :
    Severed r n (call inner) (call inner') := by
  refine severed_bind (severed_primary h) ?_
  intro e
  refine severed_here (fun ts => steady_suffixes (h.steady.mono (by omega)) ts e) ?_
  intro x hl
  exact (severed_suffixes hr _ _ e (h.mono (by omega)) (ha.mono (by omega)) covers_self covers_alone).severs x
    (Nat.lt_succ_self _)

/-! ## Operators -/

theorem severed_unary (hr : r ≠ []) (h : Severed r n inner inner') (ha : Advances (n + r.length) inner) :
    ∀ k m m', k ≤ n + 1 → k + r.length ≤ m → k ≤ m' → Severed r k (unary inner m) (unary inner' m')
  | 0, m, m', _, hm, _ => .of_zero (steady_unary h.steady m r.length (by omega) (by omega))
  | k + 1, m + 1, m' + 1, hk, hm, hm' => by
    refine severed_whenNext ?_ (severed_call hr (h.mono (by omega)) (ha.mono (by omega)))
    intro t
    exact severed_bind (severed_unary hr h ha k m m' (by omega) (by omega) (by omega)) fun e => severed_pure _
  | k + 1, 0, _, _, hm, _ => absurd hm (by omega)
  | k + 1, m + 1, 0, _, _, hm' => absurd hm' (by omega)

theorem severed_disjunction (hr : r ≠ []) (h : Severed r n inner inner') (ha : Advances (n + r.length) inner)
    {m m' : Nat} (hm : n + 1 + r.length ≤ m) (hm' : n + 1 ≤ m') :
    Severed r (n + 1) (disjunction inner m) (disjunction inner' m') :=
  have hu := severed_unary hr h ha (n + 1) m m' (Nat.le_refl _) hm hm'
  severed_chain hr (severed_chain hr (severed_chain hr (severed_chain hr (severed_chain hr (severed_chain hr hu)))))

theorem severed_assigned (h : Severed r n inner inner') (target : Expr) {x : List Token} (hx : x ≠ []) :
    Severed r n (assigned inner target (x ++ r)) (assigned inner' target x) := by
  refine severed_bind h ?_
  intro value
  cases target.assignTo? value with
  | some e => exact severed_pure e
  | none => exact severed_bind (severed_report rfl hx) fun _ => severed_pure target

theorem severed_assignment (hr : r ≠ []) (h : Severed r n inner inner') (ha : Advances (n + r.length) inner)
    {m m' : Nat} (hm : n + 1 + r.length ≤ m) (hm' : n + 1 ≤ m') :
    Severed r (n + 1) (assignment inner m) (assignment inner' m') := by
  refine severed_bind (severed_disjunction hr h ha hm hm') ?_
  intro target
  have hs : ∀ ts, Steady (n + 1 + r.length)
      (whenNext (· == .equal) (fun _ => assigned inner target ts) (Parse.pure target)) :=
    fun ts => (steady_behindTarget h.steady target ts).mono (by omega)
  refine severed_here hs ?_
  intro x hl
  by_cases hx : x = []
  · subst hx
    exact severs_whenNext_nil (fun t => (steady_assigned h.steady target r).mono (Nat.le_add_left _ _))
      (.value [] target .nil)
  · exact (severed_whenNext (fun t => severed_assigned h target hx) (severed_pure target)).severs x hl

end Calls

theorem severed_expression (hr : r ≠ []) : ∀ {n d d' : Nat}, n + r.length ≤ d → n ≤ d' →
    Severed r n (expression d) (expression d')
  | 0, d, _, hd, _ => .of_zero ((steady_expression d).mono (by omega))
  | n + 1, d + 1, d' + 1, hd, hd' =>
    severed_assignment hr (severed_expression hr (by omega) (by omega)) ((advances_expression d).mono (by omega)) hd hd'
  | n + 1, 0, _, hd, _ => absurd hd (by omega)
  | n + 1, d + 1, 0, _, hd' => absurd hd' (by omega)

/-! ## Statements and declarations -/

/-- The readers for what stands inside are severed. -/
structure SeveredInner (r : List Token) (n : Nat) (inner inner' : Inner) : Prop where
  expression : Severed r n inner.expression inner'.expression
  statement : Severed r n inner.statement inner'.statement
  declaration : Severed r n inner.declaration inner'.declaration
  shortens : Shortens (n + r.length) inner.declaration

section Statements

variable {inner inner' : Inner}

theorem severed_block (hr : r ≠ []) (h : SeveredInner r n inner inner') : Severed r n (block inner) (block inner') := by
  have hc : ∀ body : List Stmt, Severed r n (expect .rightBrace .noBraceAfterBlock >>= fun _ => Parse.pure body)
      (expect .rightBrace .noBraceAfterBlock >>= fun _ => Parse.pure body) :=
    fun body => severed_bind (severed_expect _ _) fun _ => severed_pure body
  have hd := severed_map Option.toList h.declaration
  refine severed_here (fun ts => steady_bind (steady_repeatUntil hd.steady ts) fun body => (hc body).steady) ?_
  intro x hl
  have ht : Shortens (x.length + 1 + r.length) (Option.toList <$> inner.declaration) :=
    (h.shortens.map _).mono (by omega)
  exact (severed_bind (severed_repeatUntil hr _ _ (hd.mono hl) ht covers_self covers_alone) fun body =>
    (hc body).mono hl).severs x (Nat.lt_succ_self _)

theorem severed_functionBehind (hr : r ≠ []) (h : SeveredInner r n inner inner') (what : String) (name : Token) :
    Severed r n (functionBehind inner what name) (functionBehind inner' what name) := by
  have hp : Severed r n (items (expect .identifier .noParameterName) .tooManyParameters)
      (items (expect .identifier .noParameterName) .tooManyParameters) :=
    severed_items rfl hr (severed_expect _ _) (advances_expect _ _ _)
  refine severed_bind (severed_expect _ _) fun _ => severed_unlessClosing hp fun _ _ => ?_
  exact severed_bind (severed_expect _ _) fun _ => severed_bind (severed_block hr h) fun _ => severed_pure _

theorem severed_function (hr : r ≠ []) (h : SeveredInner r n inner inner') (what : String) :
    Severed r n (function inner what) (function inner' what) :=
  severed_bind (severed_expect _ _) (severed_functionBehind hr h what)

theorem SeveredInner.shortens_function (hr : r ≠ []) (h : SeveredInner r n inner inner') (what : String) :
    Shortens (n + r.length) (function inner what) :=
  (advances_bind (advances_expect _ _ _) fun name => (severed_functionBehind hr h what name).steady).shortens

theorem severed_superclass : Severed r n superclass superclass :=
  severed_whenNext (fun _ => severed_map _ (severed_expect _ _)) (severed_pure none)

theorem severed_classDeclaration (hr : r ≠ []) (h : SeveredInner r n inner inner') :
    Severed r n (classDeclaration inner) (classDeclaration inner') := by
  have hm := severed_map (fun f => [f]) (severed_function hr h "method")
  have hc : ∀ (name : Token) (parent : Option Token) (methods : List Function), Severed r n
      (expect .rightBrace .noBraceAfterClassBody >>= fun _ => Parse.pure (Stmt.class name parent methods))
      (expect .rightBrace .noBraceAfterClassBody >>= fun _ => Parse.pure (Stmt.class name parent methods)) :=
    fun _ _ _ => severed_bind (severed_expect _ _) fun _ => severed_pure _
  refine severed_bind (severed_expect _ _) ?_
  intro name
  refine severed_bind severed_superclass ?_
  intro parent
  refine severed_bind (severed_expect _ _) ?_
  intro _
  refine severed_here (fun ts => steady_bind (steady_repeatUntil hm.steady ts)
      fun methods => (hc name parent methods).steady) ?_
  intro x hl
  have ht : Shortens (x.length + 1 + r.length) ((fun f => [f]) <$> function inner "method") :=
    ((h.shortens_function hr "method").map _).mono (by omega)
  exact (severed_bind (severed_repeatUntil hr _ _ (hm.mono hl) ht covers_self covers_alone) fun methods =>
    (hc name parent methods).mono hl).severs x (Nat.lt_succ_self _)

theorem severed_varDeclaration (h : SeveredInner r n inner inner') :
    Severed r n (varDeclaration inner) (varDeclaration inner') := by
  refine severed_bind (severed_expect _ _) ?_
  intro _
  refine severed_bind ?_ fun _ => severed_bind (severed_expect _ _) fun _ => severed_pure _
  exact severed_whenNext (fun _ => severed_map _ (h.expression.mono (by omega))) (severed_pure none)

theorem severed_expressionStatement (he : Severed r n inner.expression inner'.expression) :
    Severed r n (expressionStatement inner) (expressionStatement inner') :=
  severed_bind he fun _ => severed_bind (severed_expect _ _) fun _ => severed_pure _

theorem severed_printStatement (h : SeveredInner r n inner inner') :
    Severed r n (printStatement inner) (printStatement inner') :=
  severed_bind h.expression fun _ => severed_bind (severed_expect _ _) fun _ => severed_pure _

theorem severed_returnStatement (h : SeveredInner r n inner inner') (keyword : Token) :
    Severed r n (returnStatement inner keyword) (returnStatement inner' keyword) :=
  severed_unlessClosing (severed_map some h.expression) fun _ _ => severed_pure _

theorem severed_whileStatement (h : SeveredInner r n inner inner') :
    Severed r n (whileStatement inner) (whileStatement inner') :=
  severed_bind (severed_expect _ _) fun _ => severed_bind h.expression fun _ =>
    severed_bind (severed_expect _ _) fun _ => severed_bind h.statement fun _ => severed_pure _

theorem severed_ifStatement (h : SeveredInner r n inner inner') :
    Severed r n (ifStatement inner) (ifStatement inner') :=
  severed_bind (severed_expect _ _) fun _ => severed_bind h.expression fun _ =>
    severed_bind (severed_expect _ _) fun _ => severed_bind h.statement fun _ =>
      severed_whenNext (fun _ => severed_map _ (h.statement.mono (Nat.sub_le n 1))) (severed_pure _)

theorem severedRules_initializer (h : SeveredInner r n inner inner') (t : Token) :
    SeveredRules r n (initializerRule inner t) (initializerRule inner' t) := by
  unfold initializerRule
  cases t.kind <;> first
    | exact .none
    | exact .some (severed_pure none)
    | exact .some (severed_map some (severed_varDeclaration h))

theorem severed_forStatement (h : SeveredInner r n inner inner') :
    Severed r n (forStatement inner) (forStatement inner') := by
  have hi : Severed r n (loopInitializer inner) (loopInitializer inner') :=
    severed_dispatch (fun t => (severedRules_initializer h t).mono (Nat.sub_le n 1))
      (severed_map some (severed_expressionStatement h.expression))
  have hv := severed_map some h.expression
  exact severed_bind (severed_expect _ _) fun _ => severed_bind hi fun _ => severed_unlessClosing hv fun _ _ =>
    severed_unlessClosing hv fun _ _ => severed_bind h.statement fun _ => severed_pure _

theorem severedRules_statement (hr : r ≠ []) (h : SeveredInner r n inner inner') (t : Token) :
    SeveredRules r n (statementRule inner t) (statementRule inner' t) := by
  unfold statementRule
  cases t.kind <;> first
    | exact .none
    | exact .some (severed_forStatement h)
    | exact .some (severed_ifStatement h)
    | exact .some (severed_printStatement h)
    | exact .some (severed_returnStatement h t)
    | exact .some (severed_whileStatement h)
    | exact .some (severed_map Stmt.block (severed_block hr h))

theorem severed_statementForm (hr : r ≠ []) (h : SeveredInner r n inner inner')
    (he : Severed r (n + 1) inner.expression inner'.expression) :
    Severed r (n + 1) (statementForm inner) (statementForm inner') :=
  severed_dispatch (severedRules_statement hr h) (severed_expressionStatement he)

theorem severedRules_declaration (hr : r ≠ []) (h : SeveredInner r n inner inner') (t : Token) :
    SeveredRules r n (declarationRule inner t) (declarationRule inner' t) := by
  unfold declarationRule
  cases t.kind <;> first
    | exact .none
    | exact .some (severed_classDeclaration hr h)
    | exact .some (severed_map Stmt.function (severed_function hr h _))
    | exact .some (severed_varDeclaration h)

theorem severed_declarationForm (hr : r ≠ []) (h : SeveredInner r n inner inner')
    (he : Severed r (n + 1) inner.expression inner'.expression) :
    Severed r (n + 1) (declarationForm inner) (declarationForm inner') :=
  severed_dispatch (severedRules_declaration hr h) (severed_statementForm hr h he)

end Statements

/-! ## Levels -/

theorem severed_levels (hr : r ≠ []) : ∀ {n d d' : Nat}, n + r.length ≤ d → n ≤ d' →
    Severed r n (statement d) (statement d') ∧ Severed r n (declaration d) (declaration d')
  | 0, d, _, hd, _ => by
    obtain ⟨hs, hd', -⟩ := steady_levels d
    exact ⟨.of_zero (hs.mono (by omega)), .of_zero (hd'.mono (by omega))⟩
  | n + 1, d + 1, d' + 1, hd, hd' => by
    have hn : n + r.length ≤ d := by omega
    obtain ⟨hs, hl⟩ := severed_levels hr hn (Nat.le_of_succ_le_succ hd')
    have he : Severed r (n + 1) (expression (d + 1)) (expression (d' + 1)) := severed_expression hr hd hd'
    have h : SeveredInner r n ⟨expression (d + 1), statement d, declaration d⟩
        ⟨expression (d' + 1), statement d', declaration d'⟩ :=
      ⟨he.mono (Nat.le_succ n), hs, hl, (steady_levels d).2.2.mono (by omega)⟩
    exact ⟨severed_statementForm hr h he, severed_recover hr (severed_declarationForm hr h he)⟩
  | n + 1, 0, _, hd, _ => absurd hd (by omega)
  | n + 1, d + 1, 0, _, hd' => absurd hd' (by omega)

end LoxSyntax.Parse
