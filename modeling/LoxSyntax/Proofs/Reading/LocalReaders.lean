/-
  LoxSyntax.Proofs.Reading.LocalReaders — the readers of programs are steady and local.

  Every step into something nested takes a token first, so a reader with a level for each
  token and one more does not run out of them, and how many more there are makes no
  difference.

  - `alike_expression`, `alike_levels`, `alike_program`: two readers that follow enough
    levels are alike.
  - `program_value`: a program is read to its end, whatever was reported on the way.
-/

import LoxSyntax.Proofs.Reading.Locality

namespace LoxSyntax.Parse

variable {r r' : List Token} {n : Nat}

theorem AlikeRules.steady {α : Type} {p : Parse α} {o o' : Option (Parse α)} (h : AlikeRules r r' n o o')
    (hp : o = Option.some p) : Steady (n + r.length) p := by
  cases h with
  | none => cases hp
  | some h =>
    cases hp
    exact h.steady

/-! ## Calls -/

section Calls

variable {inner inner' : Parse Expr}

theorem alike_superMethod (keyword : Token) : Alike r r' n (superMethod keyword) (superMethod keyword) :=
  alike_bind (alike_expect _ _) fun _ => alike_bind (alike_expect _ _) fun _ => alike_pure _

theorem alike_grouped (h : Alike r r' n inner inner') : Alike r r' n (grouped inner) (grouped inner') :=
  alike_bind h fun _ => alike_bind (alike_expect _ _) fun _ => alike_pure _

theorem alikeRules_primary (h : Alike r r' n inner inner') (t : Token) :
    AlikeRules r r' n (primaryRule inner t) (primaryRule inner' t) := by
  unfold primaryRule
  cases t.kind <;> first
    | exact .none
    | exact .some (alike_pure _)
    | exact .some (alike_superMethod t)
    | exact .some (alike_grouped h)

theorem alike_primary (h : Alike r r' (n - 1) inner inner') : Alike r r' n (primary inner) (primary inner') :=
  alike_dispatch (alikeRules_primary h) (alike_fail _)

theorem alike_finishCall (h : Alike r r' n inner inner') (callee : Expr) :
    Alike r r' n (finishCall inner callee) (finishCall inner' callee) :=
  alike_bind (alike_bind (alike_itemsBeforeParen rfl h) fun _ => alike_bind (alike_expect _ _) fun _ => alike_pure _)
    fun _ => alike_pure _

theorem alike_property (object : Expr) : Alike r r' n (property object) (property object) :=
  alike_bind (alike_expect _ _) fun _ => alike_pure _

theorem alikeRules_suffix (h : Alike r r' n inner inner') (e : Expr) (t : Token) :
    AlikeRules r r' n (suffixRule inner e t) (suffixRule inner' e t) := by
  unfold suffixRule
  cases t.kind <;> first
    | exact .none
    | exact .some (alike_finishCall h e)
    | exact .some (alike_property e)

theorem steady_suffixes (h : Steady (n - 1) inner) (bound : List Token) : ∀ e, Steady n (suffixes inner bound e) := by
  induction bound with
  | nil => exact steady_pure n
  | cons b bound ih =>
    intro e
    refine steady_dispatch ?_ (steady_pure n e)
    intro t p hp
    obtain ⟨q, hq, rfl⟩ := Option.map_eq_some_iff.1 hp
    have hs : Steady (n - 1) q := (alikeRules_suffix h.alike e t).steady hq
    exact steady_bind hs fun e => (ih e).mono (Nat.sub_le n 1)

theorem suffixes_nil (inner : Parse Expr) (bound : List Token) (e : Expr) :
    suffixes inner bound e [] = ⟨[], .value e []⟩ := by
  cases bound <;> rfl

theorem alike_suffixes : ∀ (bound bound' : List Token) {n : Nat} (e : Expr), Alike r r' (n - 1) inner inner' →
    Covers n r bound → Covers n r' bound' → Alike r r' n (suffixes inner bound e) (suffixes inner' bound' e)
  | b :: bound, b' :: bound', n, e, h, hb, hb' => by
    refine alike_dispatch ?_ (alike_pure e)
    intro t
    have hr := alikeRules_suffix h e t
    generalize suffixRule inner e t = o at hr
    generalize suffixRule inner' e t = o' at hr
    cases hr with
    | none => exact .none
    | some hr =>
      exact .some (alike_bind hr fun e' => alike_suffixes bound bound' e' (h.mono (Nat.sub_le _ 1)) hb.tail hb'.tail)
  | [], bound', n, e, h, hb, _ => by
    refine .over (steady_suffixes (h.steady.mono (by omega)) _ e) (.inl hb) ?_
    rw [suffixes_nil, suffixes_nil]
    exact together_self ⟨[], rfl⟩
  | b :: bound, [], n, e, h, _, hb' => by
    refine .over (steady_suffixes (h.steady.mono (by omega)) _ e) (.inr hb') ?_
    rw [suffixes_nil, suffixes_nil]
    exact together_self ⟨[], rfl⟩

theorem alike_call (h : Alike r r' (n - 1) inner inner') : Alike r r' n (call inner) (call inner') := by
  refine alike_bind (alike_primary h) ?_
  intro e
  refine alike_here (fun ts => steady_suffixes (h.steady.mono (by omega)) ts e) ?_
  intro x hl hx
  exact (alike_suffixes _ _ e (h.mono (by omega)) covers_self covers_self).at (Nat.lt_succ_self _)

/-! ## Operators -/

theorem steady_unary (h : Steady n inner) : ∀ m k, k ≤ m → k ≤ n + 1 → Steady k (unary inner m)
  | _, 0, _, _ => steady_zero _
  | m + 1, k + 1, hk, hn => by
    have hi : Steady k inner := h.mono (by omega)
    have hc : Steady (k + 1) (call inner) := (alike_call (n := k + 1) hi.alike).steady
    exact steady_whenNext (fun _ => steady_bind (steady_unary h m k (by omega) (by omega)) fun _ => steady_pure _ _) hc

theorem alike_unary (h : Alike r r' n inner inner') : ∀ k m m', k ≤ n + 1 → k + r.length ≤ m → k + r'.length ≤ m' →
    Alike r r' k (unary inner m) (unary inner' m')
  | 0, m, m', _, hm, _ => .of_zero (steady_unary h.steady m r.length (by omega) (by omega))
  | k + 1, m + 1, m' + 1, hk, hm, hm' => by
    refine alike_whenNext ?_ (alike_call (h.mono (by omega)))
    intro t
    exact alike_bind (alike_unary h k m m' (by omega) (by omega) (by omega)) fun e => alike_pure _
  | k + 1, 0, _, _, hm, _ => absurd hm (by omega)
  | k + 1, m + 1, 0, _, _, hm' => absurd hm' (by omega)

theorem alike_disjunction (h : Alike r r' n inner inner') {m m' : Nat} (hm : n + 1 + r.length ≤ m)
    (hm' : n + 1 + r'.length ≤ m') : Alike r r' (n + 1) (disjunction inner m) (disjunction inner' m') :=
  have hu := alike_unary h (n + 1) m m' (Nat.le_refl _) hm hm'
  alike_chain (alike_chain (alike_chain (alike_chain (alike_chain (alike_chain hu)))))

theorem alike_assigned (h : Alike r r' n inner inner') (target : Expr) {x : List Token} (hx : Inside r r' x) :
    Alike r r' n (assigned inner target (x ++ r)) (assigned inner' target (x ++ r')) := by
  refine alike_bind h ?_
  intro value
  cases target.assignTo? value with
  | some e => exact alike_pure e
  | none => exact alike_bind (alike_report rfl hx) fun _ => alike_pure target

theorem steady_assigned (h : Steady n inner) (target : Expr) (place : List Token) :
    Steady n (assigned inner target place) := by
  refine steady_bind h ?_
  intro value
  cases target.assignTo? value with
  | some e => exact steady_pure _ e
  | none => exact steady_bind (steady_report _ rfl place) fun _ => steady_pure _ target

theorem steady_behindTarget (h : Steady n inner) (target : Expr) (place : List Token) :
    Steady (n + 1) (whenNext (· == .equal) (fun _ => assigned inner target place) (Parse.pure target)) :=
  steady_whenNext (fun _ => steady_assigned h target place) (steady_pure _ _)

theorem alike_assignment (h : Alike r r' n inner inner') {m m' : Nat} (hm : n + 1 + r.length ≤ m)
    (hm' : n + 1 + r'.length ≤ m') : Alike r r' (n + 1) (assignment inner m) (assignment inner' m') := by
  refine alike_bind (alike_disjunction h hm hm') fun target => alike_here (fun ts => ?_) fun x hl hx => ?_
  · exact (steady_behindTarget h.steady target ts).mono (by omega)
  · exact (alike_whenNext (fun t => alike_assigned h target hx) (alike_pure target)).together x hl hx

end Calls

theorem steady_expression : ∀ d, Steady d (expression d)
  | 0 => steady_zero _
  | d + 1 => (alike_assignment (steady_expression d).alike (Nat.le_refl _) (Nat.le_refl _)).steady

theorem alike_expression : ∀ {n d d' : Nat}, n + r.length ≤ d → n + r'.length ≤ d' →
    Alike r r' n (expression d) (expression d')
  | 0, d, d', hd, _ => .of_zero ((steady_expression d).mono (by omega))
  | n + 1, d + 1, d' + 1, hd, hd' =>
    alike_assignment (alike_expression (by omega) (by omega)) hd hd'
  | n + 1, 0, _, hd, _ => absurd hd (by omega)
  | n + 1, d + 1, 0, _, hd' => absurd hd' (by omega)

/-! ## Expressions take a token -/

section Taken

variable {inner : Parse Expr}

theorem advances_call (h : Steady (n - 1) inner) : Advances n (call inner) := by
  have hp : Advances n (primary inner) :=
    advances_dispatch (fun t p hp => (alikeRules_primary h.alike t).steady hp) (advances_fail _ _)
  exact advances_bind hp fun e => steady_here fun ts => steady_suffixes h ts e

theorem advances_unary (h : Steady n inner) : Advances (n + 1) (unary inner (n + 1)) :=
  advances_whenNext (fun _ => steady_bind (steady_unary h n n (Nat.le_refl n) (Nat.le_succ n)) fun _ => steady_pure _ _)
    (advances_call h)

theorem advances_chain {operand : Parse Expr} {join : Expr → Token → Expr → Expr} {k : TokenKind → Bool}
    (h : Advances n operand ∧ Steady n operand) :
    Advances n (chain operand join k) ∧ Steady n (chain operand join k) :=
  ⟨advances_bind h.1 fun left => steady_here fun ts => steady_chainFrom h.2 ts left, (alike_chain h.2.alike).steady⟩

theorem advances_expression : ∀ d, Advances d (expression d)
  | 0 => fun _ hl => absurd hl (Nat.not_lt_zero _)
  | d + 1 => by
    have h := steady_expression d
    have hd : Advances (d + 1) (disjunction (expression d) (d + 1)) :=
      (advances_chain (advances_chain (advances_chain (advances_chain (advances_chain (advances_chain
        ⟨advances_unary h, steady_unary h _ _ (Nat.le_refl _) (Nat.le_refl _)⟩)))))).1
    exact advances_bind hd fun target => steady_here fun ts => steady_behindTarget h target ts

end Taken

/-! ## Statements and declarations -/

/-- The readers for what stands inside are alike. -/
structure AlikeInner (r r' : List Token) (n : Nat) (inner inner' : Inner) : Prop where
  expression : Alike r r' (n + 1) inner.expression inner'.expression
  statement : Alike r r' n inner.statement inner'.statement
  declaration : Alike r r' n inner.declaration inner'.declaration
  shortens : Shortens (n + r.length) inner.declaration

section Statements

variable {inner inner' : Inner}

theorem alike_block (h : AlikeInner r r' n inner inner') : Alike r r' n (block inner) (block inner') := by
  have hc : ∀ body : List Stmt, Alike r r' n (expect .rightBrace .noBraceAfterBlock >>= fun _ => Parse.pure body)
      (expect .rightBrace .noBraceAfterBlock >>= fun _ => Parse.pure body) :=
    fun body => alike_bind (alike_expect _ _) fun _ => alike_pure body
  have hd := alike_map Option.toList h.declaration
  refine alike_here (fun ts => steady_bind (steady_repeatUntil hd.steady ts) fun body => (hc body).steady) ?_
  intro x hl hx
  refine (alike_bind (alike_repeatUntil _ _ (hd.mono hl) ?_ covers_self covers_self) fun body =>
    (hc body).mono hl).at (Nat.lt_succ_self _)
  intro t ts hl'
  exact h.shortens.map _ t ts (by omega)

/-- A function behind its name. -/
def functionBehind (inner : Inner) (what : String) (name : Token) : Parse Function := do
  let _ ← expect .leftParen (.noParenAfterName what)
  let params ← itemsBeforeParen (expect .identifier .noParameterName) .tooManyParameters
  let _ ← expect .rightParen .noParenAfterParameters
  let _ ← expect .leftBrace (.noBraceBeforeBody what)
  let body ← block inner
  pure (.mk name params body)

theorem alike_functionBehind (h : AlikeInner r r' n inner inner') (what : String) (name : Token) :
    Alike r r' n (functionBehind inner what name) (functionBehind inner' what name) :=
  alike_bind (alike_expect _ _) fun _ => alike_bind (alike_itemsBeforeParen rfl (alike_expect _ _)) fun _ =>
    alike_bind (alike_expect _ _) fun _ => alike_bind (alike_expect _ _) fun _ => alike_bind (alike_block h) fun _ =>
      alike_pure _

theorem alike_function (h : AlikeInner r r' n inner inner') (what : String) :
    Alike r r' n (function inner what) (function inner' what) :=
  alike_bind (alike_expect _ _) (alike_functionBehind h what)

theorem shortens_function (h : AlikeInner r r' n inner inner') (what : String) :
    Shortens (n + r.length) (function inner what) :=
  (advances_bind (advances_expect _ _ _) fun name => (alike_functionBehind h what name).steady).shortens

theorem alike_superclass : Alike r r' n superclass superclass :=
  alike_whenNext (fun _ => alike_map _ (alike_expect _ _)) (alike_pure none)

theorem alike_classDeclaration (h : AlikeInner r r' n inner inner') :
    Alike r r' n (classDeclaration inner) (classDeclaration inner') := by
  have hm := alike_map (fun f => [f]) (alike_function h "method")
  have hc : ∀ (name : Token) (parent : Option Token) (methods : List Function), Alike r r' n
      (expect .rightBrace .noBraceAfterClassBody >>= fun _ => Parse.pure (Stmt.class name parent methods))
      (expect .rightBrace .noBraceAfterClassBody >>= fun _ => Parse.pure (Stmt.class name parent methods)) :=
    fun _ _ _ => alike_bind (alike_expect _ _) fun _ => alike_pure _
  refine alike_bind (alike_expect _ _) ?_
  intro name
  refine alike_bind alike_superclass ?_
  intro parent
  refine alike_bind (alike_expect _ _) ?_
  intro _
  refine alike_here (fun ts => steady_bind (steady_repeatUntil hm.steady ts)
      fun methods => (hc name parent methods).steady) ?_
  intro x hl hx
  refine (alike_bind (alike_repeatUntil _ _ (hm.mono hl) ?_ covers_self covers_self) fun methods =>
    (hc name parent methods).mono hl).at (Nat.lt_succ_self _)
  intro t ts hl'
  exact (shortens_function h "method").map _ t ts (by omega)

theorem alike_varDeclaration (h : AlikeInner r r' n inner inner') :
    Alike r r' n (varDeclaration inner) (varDeclaration inner') := by
  refine alike_bind (alike_expect _ _) ?_
  intro _
  refine alike_bind ?_ fun _ => alike_bind (alike_expect _ _) fun _ => alike_pure _
  exact alike_whenNext (fun _ => alike_map _ (h.expression.mono (by omega))) (alike_pure none)

theorem alike_expressionStatement (h : AlikeInner r r' n inner inner') :
    Alike r r' (n + 1) (expressionStatement inner) (expressionStatement inner') :=
  alike_bind h.expression fun _ => alike_bind (alike_expect _ _) fun _ => alike_pure _

theorem alike_printStatement (h : AlikeInner r r' n inner inner') :
    Alike r r' n (printStatement inner) (printStatement inner') :=
  alike_bind (h.expression.mono (Nat.le_succ n)) fun _ => alike_bind (alike_expect _ _) fun _ => alike_pure _

theorem alike_expressionUnless (h : AlikeInner r r' n inner inner') (stop : TokenKind) :
    Alike r r' n (expressionUnless inner stop) (expressionUnless inner' stop) := by
  refine alike_bind (alike_nextIs _) ?_
  intro b
  cases b with
  | true => exact alike_pure none
  | false => exact alike_map some (h.expression.mono (Nat.le_succ n))

theorem alike_returnStatement (h : AlikeInner r r' n inner inner') (keyword : Token) :
    Alike r r' n (returnStatement inner keyword) (returnStatement inner' keyword) :=
  alike_bind (alike_expressionUnless h _) fun _ => alike_bind (alike_expect _ _) fun _ => alike_pure _

theorem alike_whileStatement (h : AlikeInner r r' n inner inner') :
    Alike r r' n (whileStatement inner) (whileStatement inner') :=
  alike_bind (alike_expect _ _) fun _ => alike_bind (h.expression.mono (Nat.le_succ n)) fun _ =>
    alike_bind (alike_expect _ _) fun _ => alike_bind h.statement fun _ => alike_pure _

theorem alike_ifStatement (h : AlikeInner r r' n inner inner') :
    Alike r r' n (ifStatement inner) (ifStatement inner') :=
  alike_bind (alike_expect _ _) fun _ => alike_bind (h.expression.mono (Nat.le_succ n)) fun _ =>
    alike_bind (alike_expect _ _) fun _ => alike_bind h.statement fun _ =>
      alike_whenNext (fun _ => alike_map _ (h.statement.mono (Nat.sub_le n 1))) (alike_pure _)

theorem alikeRules_initializer (h : AlikeInner r r' n inner inner') (t : Token) :
    AlikeRules r r' n (initializerRule inner t) (initializerRule inner' t) := by
  unfold initializerRule
  cases t.kind <;> first
    | exact .none
    | exact .some (alike_pure none)
    | exact .some (alike_map some (alike_varDeclaration h))

theorem alike_forStatement (h : AlikeInner r r' n inner inner') :
    Alike r r' n (forStatement inner) (forStatement inner') := by
  have hi : Alike r r' n (loopInitializer inner) (loopInitializer inner') :=
    alike_dispatch (fun t => (alikeRules_initializer h t).mono (Nat.sub_le n 1))
      (alike_map some ((alike_expressionStatement h).mono (Nat.le_succ n)))
  exact alike_bind (alike_expect _ _) fun _ => alike_bind hi fun _ => alike_bind (alike_expressionUnless h _) fun _ =>
    alike_bind (alike_expect _ _) fun _ => alike_bind (alike_expressionUnless h _) fun _ =>
      alike_bind (alike_expect _ _) fun _ => alike_bind h.statement fun _ => alike_pure _

theorem alikeRules_statement (h : AlikeInner r r' n inner inner') (t : Token) :
    AlikeRules r r' n (statementRule inner t) (statementRule inner' t) := by
  unfold statementRule
  cases t.kind <;> first
    | exact .none
    | exact .some (alike_forStatement h)
    | exact .some (alike_ifStatement h)
    | exact .some (alike_printStatement h)
    | exact .some (alike_returnStatement h t)
    | exact .some (alike_whileStatement h)
    | exact .some (alike_map Stmt.block (alike_block h))

theorem alike_statementForm (h : AlikeInner r r' n inner inner') :
    Alike r r' (n + 1) (statementForm inner) (statementForm inner') :=
  alike_dispatch (alikeRules_statement h) (alike_expressionStatement h)

theorem alikeRules_declaration (h : AlikeInner r r' n inner inner') (t : Token) :
    AlikeRules r r' n (declarationRule inner t) (declarationRule inner' t) := by
  unfold declarationRule
  cases t.kind <;> first
    | exact .none
    | exact .some (alike_classDeclaration h)
    | exact .some (alike_map Stmt.function (alike_function h _))
    | exact .some (alike_varDeclaration h)

theorem alike_declarationForm (h : AlikeInner r r' n inner inner') :
    Alike r r' (n + 1) (declarationForm inner) (declarationForm inner') :=
  alike_dispatch (alikeRules_declaration h) (alike_statementForm h)

theorem advances_declarationForm (h : AlikeInner [] [] n inner inner) (he : Advances (n + 1) inner.expression) :
    Advances (n + 1) (declarationForm inner) :=
  advances_dispatch (fun t _ hp => (alikeRules_declaration h t).steady hp)
    (advances_dispatch (fun t _ hp => (alikeRules_statement h t).steady hp)
      (advances_bind he fun _ => steady_bind (steady_expect _ _ _) fun _ => steady_pure _ _))

end Statements

/-! ## Levels -/

theorem steady_levels : ∀ d, Steady d (statement d) ∧ Steady d (declaration d) ∧ Shortens d (declaration d)
  | 0 => ⟨steady_zero _, steady_zero _, fun _ _ hl => absurd hl (Nat.not_lt_zero _)⟩
  | d + 1 => by
    obtain ⟨hs, hd, ht⟩ := steady_levels d
    have h : AlikeInner [] [] d ⟨expression (d + 1), statement d, declaration d⟩
        ⟨expression (d + 1), statement d, declaration d⟩ :=
      ⟨(steady_expression (d + 1)).alike, hs.alike, hd.alike, ht⟩
    exact ⟨(alike_statementForm h).steady, steady_recover (alike_declarationForm h).steady,
      (advances_declarationForm h (advances_expression (d + 1))).recover⟩

theorem alike_forms {n d d' : Nat} (h : Alike r r' n (statement d) (statement d') ∧
    Alike r r' n (declaration d) (declaration d')) (hd : n + r.length ≤ d) (hd' : n + r'.length ≤ d') :
    AlikeInner r r' n ⟨expression (d + 1), statement d, declaration d⟩
      ⟨expression (d' + 1), statement d', declaration d'⟩ :=
  ⟨alike_expression (by omega) (by omega), h.1, h.2, fun t ts hl => (steady_levels d).2.2 t ts (by omega)⟩

theorem alike_levels : ∀ {n d d' : Nat}, n + r.length ≤ d → n + r'.length ≤ d' →
    Alike r r' n (statement d) (statement d') ∧ Alike r r' n (declaration d) (declaration d')
  | 0, d, d', hd, _ => by
    obtain ⟨hs, hd', -⟩ := steady_levels d
    exact ⟨.of_zero (hs.mono (by omega)), .of_zero (hd'.mono (by omega))⟩
  | n + 1, d + 1, d' + 1, hd, hd' => by
    have hn : n + r.length ≤ d := by omega
    have hn' : n + r'.length ≤ d' := by omega
    have h := alike_forms (alike_levels hn hn') hn hn'
    exact ⟨alike_statementForm h, alike_recover (alike_declarationForm h)⟩
  | n + 1, 0, _, hd, _ => absurd hd (by omega)
  | n + 1, d + 1, 0, _, hd' => absurd hd' (by omega)

theorem alike_inner {n d d' : Nat} (hd : n + r.length ≤ d) (hd' : n + r'.length ≤ d') :
    AlikeInner r r' n ⟨expression (d + 1), statement d, declaration d⟩
      ⟨expression (d' + 1), statement d', declaration d'⟩ :=
  alike_forms (alike_levels hd hd') hd hd'

theorem alike_declarations {stop : TokenKind → Bool} {bound bound' : List Token} {n d d' : Nat}
    (hd : n + r.length ≤ d) (hd' : n + r'.length ≤ d') (hb : Covers n r bound) (hb' : Covers n r' bound') :
    Alike r r' n (repeatUntil stop (Option.toList <$> declaration d) bound)
      (repeatUntil stop (Option.toList <$> declaration d') bound') := by
  refine alike_repeatUntil _ _ (alike_map _ (alike_levels hd hd').2) (Shortens.map ?_ _) hb hb'
  intro t ts hl
  exact (steady_levels d).2.2 t ts (by omega)

theorem alike_program {d d' : Nat} (hd : n + r.length ≤ d) (hd' : n + r'.length ≤ d') :
    Alike r r' n (program d) (program d') := by
  have hs : Steady (n + r.length) (Option.toList <$> declaration d) :=
    (steady_map Option.toList (steady_levels d).2.1).mono hd
  refine alike_here (fun ts => steady_repeatUntil hs ts) ?_
  intro x hl hx
  exact (alike_declarations (n := x.length + 1) (by omega) (by omega) covers_self covers_self).at (Nat.lt_succ_self _)

/-- How many levels are followed and how long the bound is make no difference, once they are enough. -/
theorem declarations_eq_program {bound ts : List Token} (hn : ts.length < n) (hb : ts.length ≤ bound.length) :
    repeatUntil (fun _ => false) (Option.toList <$> declaration n) bound ts = program (ts.length + 1) ts := by
  have ha : Alike [] [] (ts.length + 1) (repeatUntil (fun _ => false) (Option.toList <$> declaration n) bound)
      (repeatUntil (fun _ => false) (Option.toList <$> declaration (ts.length + 1)) ts) :=
    alike_declarations (by simpa using Nat.succ_le_of_lt hn) (Nat.le_refl _) (fun m hm => by simp; omega)
      (fun m hm => by simp; omega)
  have h := (ha.at (Nat.lt_succ_self _)).eq_of_nil
  rwa [List.append_nil] at h

/-! ## Programs are read to their end -/

/-- A declaration is read or skipped, and takes a token unless it is at the end. -/
theorem declaration_value {d : Nat} {ts : List Token} (h : ts.length < d) :
    ∃ o rest, (declaration d ts).outcome = .value o rest ∧ rest.length ≤ ts.length - 1 := by
  obtain ⟨-, hd, ht⟩ := steady_levels d
  obtain ⟨⟨rest, hr, hs⟩, -⟩ := hd ts h
  obtain ⟨o, ho⟩ : ∃ o, (declaration d ts).outcome = .value o rest := by
    cases d with
    | zero => exact absurd h (Nat.not_lt_zero _)
    | succ d =>
      simp only [declaration, recover_eq] at hr ⊢
      generalize (declarationForm _ ts).outcome = o at hr ⊢
      cases o with
      | value a _ | abandoned _ =>
        cases hr
        exact ⟨_, rfl⟩
      | tooDeep _ => cases hr
  refine ⟨o, rest, ho, ?_⟩
  cases ts with
  | nil => exact hs.length_le
  | cons t ts => exact ht t ts h o rest ho

/-- A loop ends where it is stopped, or with the tokens. -/
theorem repeatUntil_value {α : Type} {stop : TokenKind → Bool} {read : Parse (List α)}
    (h : ∀ t ts, (t :: ts).length < n →
      ∃ xs rest, (read (t :: ts)).outcome = .value xs rest ∧ rest.length ≤ ts.length) (bound : List Token) :
    ∀ ts : List Token, ts.length < n → ts.length ≤ bound.length → ∃ xs rest,
      (repeatUntil stop read bound ts).outcome = .value xs rest ∧ ∀ t ∈ rest.head?, stop t.kind = true := by
  induction bound with
  | nil =>
    intro ts _ hb
    obtain rfl := List.length_eq_zero_iff.1 (Nat.le_zero.1 hb)
    exact ⟨[], [], rfl, by simp⟩
  | cons b bound ih =>
    intro ts hl hb
    cases ts with
    | nil => exact ⟨[], [], rfl, by simp⟩
    | cons t ts =>
      simp only [repeatUntil]
      split
      · next hs => exact ⟨[], t :: ts, rfl, by simpa using hs⟩
      · obtain ⟨xs, mid, ho, hm⟩ := h t ts hl
        simp only [List.length_cons] at hl hb
        obtain ⟨ys, rest, hy, hr⟩ := ih mid (by omega) (by omega)
        refine ⟨xs ++ ys, rest, outcome_bind ho ?_, hr⟩
        exact outcome_map (xs ++ ·) hy

theorem declarations_value {depth : Nat} (stop : TokenKind → Bool) {ts : List Token} (h : ts.length < depth) :
    ∃ statements rest,
      (repeatUntil stop (Option.toList <$> declaration depth) ts ts).outcome = .value statements rest ∧
      ∀ t ∈ rest.head?, stop t.kind = true := by
  refine repeatUntil_value ?_ ts ts h (Nat.le_refl _)
  intro t us hl
  obtain ⟨o, rest, ho, hr⟩ := declaration_value hl
  exact ⟨o.toList, rest, outcome_map Option.toList ho, hr⟩

theorem program_value {depth : Nat} {ts : List Token} (h : ts.length < depth) :
    ∃ statements, (program depth ts).outcome = .value statements [] := by
  obtain ⟨statements, rest, ho, hr⟩ := declarations_value (fun _ => false) h
  cases rest with
  | nil => exact ⟨statements, ho⟩
  | cons t rest => exact absurd (hr t rfl) (by simp)

theorem block_eq (inner : Inner) (ts : List Token) : block inner ts =
    (repeatUntil (· == .rightBrace) (Option.toList <$> inner.declaration) ts >>= fun body =>
      expect .rightBrace .noBraceAfterBlock >>= fun _ => Parse.pure body) ts := rfl

/-- A block ends behind a closing brace, or is abandoned at the end of the tokens. -/
theorem block_ends {d : Nat} {ts : List Token} (h : ts.length < d) :
    (∃ body brace rest, (block (innerAt d) ts).outcome = .value body rest ∧ brace.kind = .rightBrace ∧
      brace :: rest <:+ ts) ∨ (block (innerAt d) ts).outcome = .abandoned [] := by
  have hsteady : Steady d (repeatUntil (· == .rightBrace) (Option.toList <$> declaration d) ts) :=
    steady_repeatUntil (steady_map Option.toList (steady_levels d).2.1) ts
  obtain ⟨body, rest, ho, hr⟩ := declarations_value (· == .rightBrace) h
  obtain ⟨⟨_, hrest, hs⟩, -⟩ := hsteady ts h
  rw [ho] at hrest
  cases hrest
  rw [block_eq]
  cases rest with
  | nil =>
    right
    exact outcome_bind ho rfl
  | cons t rest =>
    have ht : t.kind = .rightBrace := by simpa using hr t rfl
    refine .inl ⟨body, t, rest, outcome_bind ho ?_, ht, hs⟩
    rw [run_bind, expect, if_pos ht]
    rfl

end LoxSyntax.Parse
