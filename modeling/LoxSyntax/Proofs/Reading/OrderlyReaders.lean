/-
  LoxSyntax.Proofs.Reading.OrderlyReaders — the readers of Lox report in order.

  Whatever is read, the errors stand on a course through the tokens. A reader of
  expressions or statements reports an error at the end only when it is abandoned there,
  but for the blocks inside it; a declaration, which recovers, may do so once more. The
  opening brace of a block makes up for its missing closing brace. A reader that follows
  `n` levels is nested too deeply only behind `n` tokens that open one.

  - `orderly_expression`, `orderly_levels`: expressions, statements and declarations.
  - `orderly_program`: programs.
-/

import LoxSyntax.Proofs.Reading.Course

namespace LoxSyntax.Parse

variable {all : List Token} {n : Nat}

/-! ## Expressions -/

section Expressions

variable {inner : Parse Expr}

theorem orderly_superMethod (keyword : Token) : Orderly all n 0 (superMethod keyword) :=
  orderly_then (orderly_expect rfl) fun _ => orderly_then (orderly_expect rfl) fun _ => orderly_pure n 0 _

theorem orderly_grouped (h : Orderly all n 0 inner) : Orderly all n 0 (grouped inner) :=
  orderly_then h fun _ => orderly_then (orderly_expect rfl) fun _ => orderly_pure n 0 _

theorem orderly_primaryRule (h : Orderly all (n - 1) 0 inner) {t : Token} {p : Parse Expr}
    (hp : primaryRule inner t = some p) : Orderly all (n - levels [t]) 0 p := by
  unfold primaryRule at hp
  split at hp <;> cases hp
  case h_6 => exact orderly_superMethod t
  case h_9 hk =>
    rw [levels_singleton (by rw [hk]; rfl)]
    exact orderly_grouped h
  all_goals exact orderly_pure _ 0 _

theorem orderly_primary (h : Orderly all (n - 1) 0 inner) : Orderly all n 0 (primary inner) :=
  orderly_dispatch (fun _ _ hp => (orderly_primaryRule h hp).more (Nat.zero_le _)) (orderly_fail rfl)

theorem orderly_arguments (h : Orderly all n 0 inner) : Orderly all n 0 (arguments inner) :=
  orderly_then (orderly_itemsBeforeParen rfl h) fun _ => orderly_then (orderly_expect rfl) fun _ => orderly_pure n 0 _

theorem orderly_finishCall (h : Orderly all n 0 inner) (callee : Expr) : Orderly all n 0 (finishCall inner callee) :=
  orderly_then (orderly_arguments h) fun _ => orderly_pure n 0 _

theorem orderly_property (object : Expr) : Orderly all n 0 (property object) :=
  orderly_then (orderly_expect rfl) fun _ => orderly_pure n 0 _

theorem orderly_suffixRule (h : Orderly all (n - 1) 0 inner) {e : Expr} {t : Token} {p : Parse Expr}
    (hp : suffixRule inner e t = some p) : Orderly all (n - levels [t]) 0 p := by
  unfold suffixRule at hp
  split at hp <;> cases hp
  · next hk =>
    rw [levels_singleton (by rw [hk]; rfl)]
    exact orderly_finishCall h e
  · exact orderly_property e

theorem orderly_suffixes (h : Orderly all (n - 1) 0 inner) (bound : List Token) :
    ∀ e, Orderly all n 0 (suffixes inner bound e) := by
  induction bound with
  | nil => exact orderly_pure n 0
  | cons b bound ih =>
    intro e
    refine orderly_dispatch ?_ (orderly_pure n 0 e)
    intro t p hp
    obtain ⟨q, hq, rfl⟩ := Option.map_eq_some_iff.1 hp
    have hmore : ∀ e, Orderly all (n - levels [t]) 0 (suffixes inner bound e) := fun e => (ih e).less (Nat.sub_le n _)
    exact (orderly_then (orderly_suffixRule h hq) hmore).more (Nat.zero_le _)

theorem orderly_call (h : Orderly all (n - 1) 0 inner) : Orderly all n 0 (call inner) :=
  orderly_then (orderly_primary h) fun e => orderly_here fun ts hs => orderly_suffixes h ts e ts hs

theorem opensLevel_of_unary (k : TokenKind) (h : isUnaryOperator k = true) : opensLevel k = true := by
  cases k <;> first | rfl | cases h

theorem orderly_unary : ∀ {n : Nat} (depth : Nat), Orderly all (n - 1) 0 inner → n ≤ depth →
    Orderly all n 0 (unary inner depth)
  | _, 0, _, hd => by
    obtain rfl := Nat.le_zero.1 hd
    exact orderly_tooDeep 0
  | n, depth + 1, h, hd => by
    refine orderly_whenOpens opensLevel_of_unary (fun _ => ?_) (orderly_call h)
    have hu : Orderly all (n - 1) 0 (unary inner depth) :=
      orderly_unary depth (h.less (Nat.sub_le _ 1)) (Nat.sub_le_of_le_add hd)
    exact orderly_then hu fun _ => orderly_pure _ 0 _

theorem orderly_disjunction (h : Orderly all (n - 1) 0 inner) {depth : Nat} (hd : n ≤ depth) :
    Orderly all n 0 (disjunction inner depth) :=
  orderly_chain (orderly_chain (orderly_chain (orderly_chain (orderly_chain (orderly_chain
    (orderly_unary depth h hd))))))

theorem orderly_assigned (h : Orderly all n 0 inner) (target : Expr) {place : List Token} (hplace : place <:+ all) :
    Orderly all n 0 (assigned inner target place) := by
  refine orderly_then h ?_
  intro value
  cases target.assignTo? value with
  | some e => exact orderly_pure n 0 e
  | none => exact fun ts _ => onward_target hplace target ts

theorem orderly_assignment (h : Orderly all (n - 1) 0 inner) {depth : Nat} (hd : n ≤ depth) :
    Orderly all n 0 (assignment inner depth) := by
  refine orderly_then (orderly_disjunction h hd) ?_
  intro target
  refine orderly_here ?_
  intro place hplace
  have ho : ∀ k : TokenKind, (k == .equal) = true → opensLevel k = true := fun k hk => by rw [beq_iff_eq.1 hk]; rfl
  exact orderly_whenOpens ho (fun _ => orderly_assigned h target hplace) (orderly_pure n 0 target) place hplace

end Expressions

theorem orderly_expression : ∀ depth, Orderly all depth 0 (expression depth)
  | 0 => orderly_tooDeep 0
  | depth + 1 => orderly_assignment (orderly_expression depth) (Nat.le_refl _)

/-! ## Statements and declarations -/

/-- The readers for what stands inside report in order; a declaration recovers. -/
structure OrderlyInner (all : List Token) (n : Nat) (inner : Inner) : Prop where
  expression : Orderly all n 0 inner.expression
  statement : Orderly all n 0 inner.statement
  declaration : Orderly all n 1 inner.declaration

theorem braces_opening {t : Token} (h : t.kind = .leftBrace) : braces [t] = 1 := by
  simp [braces, h]

section Statements

variable {inner : Inner}

theorem OrderlyInner.less {m : Nat} (h : OrderlyInner all n inner) (hm : m ≤ n) : OrderlyInner all m inner :=
  ⟨h.expression.less hm, h.statement.less hm, h.declaration.less hm⟩

/-- The declarations may end at the end of the tokens, and then the brace is missing. -/
theorem orderly_block (h : OrderlyInner all n inner) : Orderly all n 1 (block inner) := by
  refine orderly_here ?_
  intro ts hs
  have hbrace : ∀ body : List Stmt,
      Orderly all n 0 (expect .rightBrace .noBraceAfterBlock >>= fun _ => Parse.pure body) :=
    fun body => orderly_then (orderly_expect rfl) fun _ => orderly_pure n 0 body
  exact orderly_bind (orderly_repeatUntil (orderly_map Option.toList h.declaration) ts) hbrace ts hs

/-- Behind an opening brace there is one level less, and a closing brace may be missing. -/
theorem orderly_braced {e : SyntaxError} (he : e.isSoft = false) {α : Type} {p : Parse α}
    (h : Orderly all (n - 1) 1 p) : Orderly all n 0 (expect .leftBrace e >>= fun _ => p) := by
  refine orderly_expect_then he ?_
  intro t ht
  rw [braces_opening ht, levels_singleton (by rw [ht]; rfl)]
  exact h

theorem orderly_function (h : OrderlyInner all (n - 1) inner) (what : String) :
    Orderly all n 0 (function inner what) := by
  refine orderly_then (orderly_expect rfl) fun name => orderly_then (orderly_expect rfl) fun _ => ?_
  refine orderly_then (orderly_itemsBeforeParen rfl (orderly_expect rfl)) fun params => ?_
  refine orderly_then (orderly_expect rfl) fun _ => orderly_braced rfl ?_
  exact orderly_map (Function.mk name params) (orderly_block h)

theorem orderly_superclass : Orderly all n 0 superclass :=
  orderly_whenNext (fun _ => orderly_map some (orderly_expect rfl)) (orderly_pure n 0 none)

theorem orderly_classDeclaration (h : OrderlyInner all (n - 1) inner) : Orderly all n 0 (classDeclaration inner) := by
  refine orderly_then (orderly_expect rfl) fun name => orderly_then orderly_superclass fun parent => ?_
  refine orderly_braced rfl (orderly_here ?_)
  intro ts hs
  have hmethod : Orderly all (n - 1) 1 ((fun f => [f]) <$> function inner "method") :=
    (orderly_map _ (orderly_function (h.less (Nat.sub_le _ 1)) "method")).more (Nat.zero_le 1)
  have hbrace : ∀ methods : List Function, Orderly all (n - 1) 0
      (expect .rightBrace .noBraceAfterClassBody >>= fun _ => Parse.pure (Stmt.class name parent methods)) :=
    fun methods => orderly_then (orderly_expect rfl) fun _ => orderly_pure _ 0 _
  exact orderly_bind (orderly_repeatUntil hmethod ts) hbrace ts hs

theorem orderly_varDeclaration (h : Orderly all n 0 inner.expression) : Orderly all n 0 (varDeclaration inner) := by
  have hi : Orderly all n 0 (initializer inner) :=
    orderly_whenNext (fun _ => orderly_map some h) (orderly_pure n 0 none)
  exact orderly_then (orderly_expect rfl) fun _ => orderly_then hi fun _ => orderly_then (orderly_expect rfl) fun _ =>
    orderly_pure n 0 _

theorem orderly_expressionStatement (h : Orderly all n 0 inner.expression) :
    Orderly all n 0 (expressionStatement inner) :=
  orderly_then h fun _ => orderly_then (orderly_expect rfl) fun _ => orderly_pure n 0 _

theorem orderly_printStatement (h : Orderly all n 0 inner.expression) : Orderly all n 0 (printStatement inner) :=
  orderly_then h fun _ => orderly_then (orderly_expect rfl) fun _ => orderly_pure n 0 _

theorem orderly_expressionUnless (h : Orderly all n 0 inner.expression) (stop : TokenKind) :
    Orderly all n 0 (expressionUnless inner stop) := by
  refine orderly_then (orderly_nextIs _) ?_
  intro b
  cases b with
  | true => exact orderly_pure n 0 none
  | false => exact orderly_map some h

theorem orderly_returnStatement (h : Orderly all n 0 inner.expression) (keyword : Token) :
    Orderly all n 0 (returnStatement inner keyword) :=
  orderly_then (orderly_expressionUnless h _) fun _ => orderly_then (orderly_expect rfl) fun _ => orderly_pure n 0 _

theorem orderly_whileStatement (h : OrderlyInner all n inner) : Orderly all n 0 (whileStatement inner) :=
  orderly_then (orderly_expect rfl) fun _ => orderly_then h.expression fun _ =>
    orderly_then (orderly_expect rfl) fun _ => orderly_then h.statement fun _ => orderly_pure n 0 _

theorem orderly_ifStatement (h : OrderlyInner all n inner) : Orderly all n 0 (ifStatement inner) :=
  orderly_then (orderly_expect rfl) fun _ => orderly_then h.expression fun _ =>
    orderly_then (orderly_expect rfl) fun _ => orderly_then h.statement fun _ =>
      orderly_whenNext (fun _ => orderly_map _ h.statement) (orderly_pure n 0 _)

theorem orderly_loopInitializer (h : Orderly all n 0 inner.expression) : Orderly all n 0 (loopInitializer inner) := by
  refine orderly_dispatch (fun t p hp => Orderly.mono ?_ (Nat.sub_le n _) (Nat.zero_le _))
    (orderly_map some (orderly_expressionStatement h))
  unfold initializerRule at hp
  split at hp <;> cases hp
  · exact orderly_pure n 0 none
  · exact orderly_map some (orderly_varDeclaration h)

theorem orderly_forStatement (h : OrderlyInner all n inner) : Orderly all n 0 (forStatement inner) :=
  orderly_then (orderly_expect rfl) fun _ => orderly_then (orderly_loopInitializer h.expression) fun _ =>
    orderly_then (orderly_expressionUnless h.expression _) fun _ => orderly_then (orderly_expect rfl) fun _ =>
      orderly_then (orderly_expressionUnless h.expression _) fun _ => orderly_then (orderly_expect rfl) fun _ =>
        orderly_then h.statement fun _ => orderly_pure n 0 _

/-- Loops, branches and blocks are read one level deeper. -/
theorem orderly_statementForm (he : Orderly all n 0 inner.expression) (h : OrderlyInner all (n - 1) inner) :
    Orderly all n 0 (statementForm inner) := by
  refine orderly_dispatch ?_ (orderly_expressionStatement he)
  intro t p hp
  have hopens : ∀ k : TokenKind, t.kind = k → opensLevel k = true → levels [t] = 1 :=
    fun k hk ho => levels_singleton (hk ▸ ho)
  unfold statementRule at hp
  split at hp <;> cases hp
  · next hk =>
    rw [hopens _ hk rfl]
    exact (orderly_forStatement h).more (Nat.zero_le _)
  · next hk =>
    rw [hopens _ hk rfl]
    exact (orderly_ifStatement h).more (Nat.zero_le _)
  · exact (orderly_printStatement he).mono (Nat.sub_le n _) (Nat.zero_le _)
  · exact (orderly_returnStatement he t).mono (Nat.sub_le n _) (Nat.zero_le _)
  · next hk =>
    rw [hopens _ hk rfl]
    exact (orderly_whileStatement h).more (Nat.zero_le _)
  · next hk =>
    rw [braces_opening hk, hopens _ hk rfl]
    exact orderly_map Stmt.block (orderly_block h)

theorem orderly_declarationForm (he : Orderly all n 0 inner.expression) (h : OrderlyInner all (n - 1) inner) :
    Orderly all n 0 (declarationForm inner) := by
  refine orderly_dispatch (fun t p hp => Orderly.mono ?_ (Nat.sub_le n _) (Nat.zero_le _)) (orderly_statementForm he h)
  unfold declarationRule at hp
  split at hp <;> cases hp
  · exact orderly_classDeclaration h
  · exact orderly_map _ (orderly_function h "function")
  · exact orderly_varDeclaration he

end Statements

/-! ## Levels -/

theorem orderly_levels : ∀ depth, Orderly all depth 0 (statement depth) ∧ Orderly all depth 1 (declaration depth)
  | 0 => ⟨orderly_tooDeep 0, orderly_tooDeep 1⟩
  | depth + 1 => by
    obtain ⟨hs, hd⟩ := orderly_levels depth
    have he : Orderly all (depth + 1) 0 (expression (depth + 1)) := orderly_expression (depth + 1)
    have h : OrderlyInner all depth ⟨expression (depth + 1), statement depth, declaration depth⟩ :=
      ⟨he.less (Nat.le_succ depth), hs, hd⟩
    exact ⟨orderly_statementForm he h, orderly_recover (orderly_declarationForm he h)⟩

theorem orderlyInner_innerAt (depth : Nat) : OrderlyInner all depth (innerAt depth) :=
  ⟨orderly_expression depth, (orderly_levels depth).1, (orderly_levels depth).2⟩

theorem orderly_program (depth : Nat) : Orderly all depth 1 (program depth) :=
  orderly_here fun ts hs => orderly_repeatUntil (orderly_map Option.toList (orderly_levels depth).2) ts ts hs

end LoxSyntax.Parse
