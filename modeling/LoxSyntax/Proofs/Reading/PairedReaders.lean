/-
  LoxSyntax.Proofs.Reading.PairedReaders — the readers of Lox, side by side with themselves.

  Each reader is paired with itself when the readers for what stands inside are, with the
  trees renamed. What is done about an abandoned declaration is left open here: the levels
  of statements and declarations are read by any handler of declarations, and they are
  paired when the handlers are. With `recover` as the handler they are the readers of the
  parser.

  - `paired_expression`: expressions, whatever the pairing.
  - `paired_programBy`: programs read by paired handlers.
  - `programBy_recover`: the parser's program is the one read by `recover`.
-/

import LoxSyntax.Proofs.Reading.Pairing

namespace LoxSyntax.Parse

variable {f : Renaming} {K : Pairing f}

/-! ## Primary expressions and calls -/

section Expressions

variable {inner inner' : Parse Expr}

theorem paired_superMethod (keyword : Token) :
    K.Paired (Expr.rename f) (superMethod keyword) (superMethod (f keyword)) :=
  paired_bind (paired_expect rfl) fun _ => paired_bind (paired_expect rfl) fun _ => paired_pure rfl

theorem paired_grouped (h : K.Paired (Expr.rename f) inner inner') :
    K.Paired (Expr.rename f) (grouped inner) (grouped inner') :=
  paired_bind h fun _ => paired_bind (paired_expect rfl) fun _ => paired_pure rfl

theorem rules_primary (h : K.Paired (Expr.rename f) inner inner') (t : Token) :
    K.Rules (Expr.rename f) (primaryRule inner t) (primaryRule inner' (f t)) := by
  unfold primaryRule
  rw [f.kind_token, f.literal_token]
  cases t.kind <;> first
    | exact .none
    | exact .some (paired_superMethod t)
    | exact .some (paired_grouped h)
    | exact .some (paired_pure rfl)

theorem paired_primary (h : K.Paired (Expr.rename f) inner inner') :
    K.Paired (Expr.rename f) (primary inner) (primary inner') :=
  paired_dispatch (rules_primary h) (paired_fail rfl)

theorem paired_arguments (h : K.Paired (Expr.rename f) inner inner') :
    K.Paired (Prod.map (List.map (Expr.rename f)) f) (arguments inner) (arguments inner') :=
  paired_bind (paired_itemsBeforeParen rfl h) fun _ => paired_bind (paired_expect rfl) fun _ => paired_pure rfl

theorem paired_finishCall (h : K.Paired (Expr.rename f) inner inner') (callee : Expr) :
    K.Paired (Expr.rename f) (finishCall inner callee) (finishCall inner' (callee.rename f)) :=
  paired_bind (paired_arguments h) fun _ => paired_pure (Expr.rename_call f callee _ _)

theorem paired_property (object : Expr) :
    K.Paired (Expr.rename f) (property object) (property (object.rename f)) :=
  paired_bind (paired_expect rfl) fun _ => paired_pure rfl

theorem rules_suffix (h : K.Paired (Expr.rename f) inner inner') (e : Expr) (t : Token) :
    K.Rules (Expr.rename f) (suffixRule inner e t) (suffixRule inner' (e.rename f) (f t)) := by
  unfold suffixRule
  rw [f.kind_token]
  cases t.kind <;> first
    | exact .none
    | exact .some (paired_finishCall h e)
    | exact .some (paired_property e)

theorem paired_suffixes (h : K.Paired (Expr.rename f) inner inner') (bound : List Token) :
    ∀ e, K.Paired (Expr.rename f) (suffixes inner bound e) (suffixes inner' (bound.map f) (e.rename f)) := by
  induction bound with
  | nil => exact fun e => paired_pure rfl
  | cons b bound ih =>
    intro e
    refine paired_dispatch ?_ (paired_pure rfl)
    intro t
    have hs := rules_suffix h e t
    generalize suffixRule inner e t = o at hs
    generalize suffixRule inner' (e.rename f) (f t) = o' at hs
    cases hs with
    | some hs => exact .some (paired_bind hs ih)
    | none => exact .none

theorem paired_call (h : K.Paired (Expr.rename f) inner inner') :
    K.Paired (Expr.rename f) (call inner) (call inner') :=
  paired_bind (paired_primary h) fun e => paired_bind paired_here fun ts => paired_suffixes h ts e

/-! ## Operators -/

theorem paired_unary (h : K.Paired (Expr.rename f) inner inner') :
    ∀ depth, K.Paired (Expr.rename f) (unary inner depth) (unary inner' depth)
  | 0 => paired_tooDeep
  | depth + 1 => by
    refine paired_whenNext ?_ (paired_call h)
    intro operator
    exact paired_bind (paired_unary h depth) fun _ => paired_pure rfl

theorem paired_binary {operand operand' : Parse Expr} (h : K.Paired (Expr.rename f) operand operand')
    (k : TokenKind → Bool) : K.Paired (Expr.rename f) (chain operand .binary k) (chain operand' .binary k) :=
  paired_chain h fun _ _ _ => rfl

theorem paired_logical {operand operand' : Parse Expr} (h : K.Paired (Expr.rename f) operand operand')
    (k : TokenKind → Bool) : K.Paired (Expr.rename f) (chain operand .logical k) (chain operand' .logical k) :=
  paired_chain h fun _ _ _ => rfl

/-- The levels above the unary operators add no nesting. -/
theorem paired_disjunction {depth depth' : Nat}
    (hu : K.Paired (Expr.rename f) (unary inner depth) (unary inner' depth')) :
    K.Paired (Expr.rename f) (disjunction inner depth) (disjunction inner' depth') :=
  paired_logical (paired_logical (paired_binary (paired_binary (paired_binary (paired_binary hu _) _) _) _) _) _

theorem paired_assigned (h : K.Paired (Expr.rename f) inner inner') (target : Expr) (place : List Token) :
    K.Paired (Expr.rename f) (assigned inner target place) (assigned inner' (target.rename f) (place.map f)) := by
  refine paired_bind h ?_
  intro value
  rw [Expr.assignTo?_rename]
  cases target.assignTo? value with
  | some e => exact paired_pure rfl
  | none => exact paired_bind (paired_report rfl place) fun _ => paired_pure rfl

theorem paired_assignment {depth depth' : Nat} (h : K.Paired (Expr.rename f) inner inner')
    (hu : K.Paired (Expr.rename f) (unary inner depth) (unary inner' depth')) :
    K.Paired (Expr.rename f) (assignment inner depth) (assignment inner' depth') :=
  paired_bind (paired_disjunction hu) fun target => paired_bind paired_here fun place =>
    paired_whenNext (fun _ => paired_assigned h target place) (paired_pure rfl)

end Expressions

theorem paired_expression : ∀ depth, K.Paired (Expr.rename f) (expression depth) (expression depth)
  | 0 => paired_tooDeep
  | depth + 1 => paired_assignment (paired_expression depth) (paired_unary (paired_expression depth) (depth + 1))

/-! ## Statements and declarations -/

/-- The readers for what stands inside are paired. -/
structure PairedInner (K : Pairing f) (inner inner' : Inner) : Prop where
  expression : K.Paired (Expr.rename f) inner.expression inner'.expression
  statement : K.Paired (Stmt.rename f) inner.statement inner'.statement
  declaration : K.Paired (Option.map (Stmt.rename f)) inner.declaration inner'.declaration

section Statements

variable {inner inner' : Inner}

theorem paired_toList {α α' : Type} {g : α → α'} {p : Parse (Option α)} {p' : Parse (Option α')}
    (h : K.Paired (Option.map g) p p') : K.Paired (List.map g) (Option.toList <$> p) (Option.toList <$> p') :=
  paired_map h fun o => by cases o <;> rfl

theorem paired_block (h : PairedInner K inner inner') :
    K.Paired (List.map (Stmt.rename f)) (block inner) (block inner') :=
  paired_bind paired_here fun ts => paired_bind (paired_repeatUntil (paired_toList h.declaration) ts) fun _ =>
    paired_bind (paired_expect rfl) fun _ => paired_pure rfl

theorem paired_function (h : PairedInner K inner inner') (what : String) :
    K.Paired (Function.rename f) (function inner what) (function inner' what) :=
  paired_bind (paired_expect rfl) fun _ => paired_bind (paired_expect rfl) fun _ =>
    paired_bind (paired_itemsBeforeParen rfl (paired_expect rfl)) fun _ =>
      paired_bind (paired_expect rfl) fun _ => paired_bind (paired_expect rfl) fun _ =>
        paired_bind (paired_block h) fun _ => paired_pure (Function.rename_mk f _ _ _)

theorem paired_superclass : K.Paired (Option.map f) superclass superclass :=
  paired_whenNext (fun _ => paired_map (paired_expect rfl) fun _ => rfl) (paired_pure rfl)

theorem paired_classDeclaration (h : PairedInner K inner inner') :
    K.Paired (Stmt.rename f) (classDeclaration inner) (classDeclaration inner') := by
  have hm : K.Paired (List.map (Function.rename f)) ((fun f => [f]) <$> function inner "method")
      ((fun f => [f]) <$> function inner' "method") := paired_map (paired_function h _) fun _ => rfl
  exact paired_bind (paired_expect rfl) fun _ => paired_bind paired_superclass fun _ =>
    paired_bind (paired_expect rfl) fun _ => paired_bind paired_here fun ts =>
      paired_bind (paired_repeatUntil hm ts) fun _ =>
        paired_bind (paired_expect rfl) fun _ => paired_pure (Stmt.rename_class f _ _ _)

theorem paired_initializer (h : PairedInner K inner inner') :
    K.Paired (Option.map (Expr.rename f)) (initializer inner) (initializer inner') :=
  paired_whenNext (fun _ => paired_map h.expression fun _ => rfl) (paired_pure rfl)

theorem paired_varDeclaration (h : PairedInner K inner inner') :
    K.Paired (Stmt.rename f) (varDeclaration inner) (varDeclaration inner') :=
  paired_bind (paired_expect rfl) fun _ => paired_bind (paired_initializer h) fun _ =>
    paired_bind (paired_expect rfl) fun _ => paired_pure rfl

theorem paired_expressionStatement (h : PairedInner K inner inner') :
    K.Paired (Stmt.rename f) (expressionStatement inner) (expressionStatement inner') :=
  paired_bind h.expression fun _ => paired_bind (paired_expect rfl) fun _ => paired_pure rfl

theorem paired_printStatement (h : PairedInner K inner inner') :
    K.Paired (Stmt.rename f) (printStatement inner) (printStatement inner') :=
  paired_bind h.expression fun _ => paired_bind (paired_expect rfl) fun _ => paired_pure rfl

theorem paired_expressionUnless (h : PairedInner K inner inner') (stop : TokenKind) :
    K.Paired (Option.map (Expr.rename f)) (expressionUnless inner stop) (expressionUnless inner' stop) := by
  refine paired_bind (paired_nextIs _) ?_
  intro b
  cases b with
  | true => exact paired_pure rfl
  | false => exact paired_map h.expression fun _ => rfl

theorem paired_returnStatement (h : PairedInner K inner inner') (keyword : Token) :
    K.Paired (Stmt.rename f) (returnStatement inner keyword) (returnStatement inner' (f keyword)) :=
  paired_bind (paired_expressionUnless h _) fun _ => paired_bind (paired_expect rfl) fun _ => paired_pure rfl

theorem paired_whileStatement (h : PairedInner K inner inner') :
    K.Paired (Stmt.rename f) (whileStatement inner) (whileStatement inner') :=
  paired_bind (paired_expect rfl) fun _ => paired_bind h.expression fun _ => paired_bind (paired_expect rfl) fun _ =>
    paired_bind h.statement fun _ => paired_pure rfl

theorem paired_ifStatement (h : PairedInner K inner inner') :
    K.Paired (Stmt.rename f) (ifStatement inner) (ifStatement inner') :=
  paired_bind (paired_expect rfl) fun _ => paired_bind h.expression fun _ => paired_bind (paired_expect rfl) fun _ =>
    paired_bind h.statement fun _ => paired_whenNext (fun _ => paired_map h.statement fun _ => rfl) (paired_pure rfl)

theorem rules_initializer (h : PairedInner K inner inner') (t : Token) :
    K.Rules (Option.map (Stmt.rename f)) (initializerRule inner t) (initializerRule inner' (f t)) := by
  unfold initializerRule
  rw [f.kind_token]
  cases t.kind <;> first
    | exact .none
    | exact .some (paired_pure rfl)
    | exact .some (paired_map (paired_varDeclaration h) fun _ => rfl)

theorem paired_loopInitializer (h : PairedInner K inner inner') :
    K.Paired (Option.map (Stmt.rename f)) (loopInitializer inner) (loopInitializer inner') :=
  paired_dispatch (rules_initializer h) (paired_map (paired_expressionStatement h) fun _ => rfl)

theorem paired_forStatement (h : PairedInner K inner inner') :
    K.Paired (Stmt.rename f) (forStatement inner) (forStatement inner') :=
  paired_bind (paired_expect rfl) fun _ => paired_bind (paired_loopInitializer h) fun _ =>
    paired_bind (paired_expressionUnless h _) fun _ => paired_bind (paired_expect rfl) fun _ =>
      paired_bind (paired_expressionUnless h _) fun _ => paired_bind (paired_expect rfl) fun _ =>
        paired_bind h.statement fun _ => paired_pure (Stmt.forLoop_rename f _ _ _ _)

theorem paired_blockStatement (h : PairedInner K inner inner') :
    K.Paired (Stmt.rename f) (Stmt.block <$> block inner) (Stmt.block <$> block inner') :=
  paired_map (paired_block h) (Stmt.rename_block f)

theorem rules_statement (h : PairedInner K inner inner') (t : Token) :
    K.Rules (Stmt.rename f) (statementRule inner t) (statementRule inner' (f t)) := by
  unfold statementRule
  rw [f.kind_token]
  cases t.kind <;> first
    | exact .none
    | exact .some (paired_forStatement h)
    | exact .some (paired_ifStatement h)
    | exact .some (paired_printStatement h)
    | exact .some (paired_returnStatement h t)
    | exact .some (paired_whileStatement h)
    | exact .some (paired_blockStatement h)

theorem paired_statementForm (h : PairedInner K inner inner') :
    K.Paired (Stmt.rename f) (statementForm inner) (statementForm inner') :=
  paired_dispatch (rules_statement h) (paired_expressionStatement h)

theorem rules_declaration (h : PairedInner K inner inner') (t : Token) :
    K.Rules (Stmt.rename f) (declarationRule inner t) (declarationRule inner' (f t)) := by
  unfold declarationRule
  rw [f.kind_token]
  cases t.kind <;> first
    | exact .none
    | exact .some (paired_classDeclaration h)
    | exact .some (paired_map (paired_function h _) fun _ => rfl)
    | exact .some (paired_varDeclaration h)

theorem paired_declarationForm (h : PairedInner K inner inner') :
    K.Paired (Stmt.rename f) (declarationForm inner) (declarationForm inner') :=
  paired_dispatch (rules_declaration h) (paired_statementForm h)

end Statements

/-! ## Levels -/

/-- What is done about a declaration that may be abandoned. -/
abbrev Handler := Parse Stmt → Parse (Option Stmt)

mutual

def statementBy (handle : Handler) : Nat → Parse Stmt
  | 0 => tooDeep
  | depth + 1 => statementForm ⟨expression (depth + 1), statementBy handle depth, declarationBy handle depth⟩

def declarationBy (handle : Handler) : Nat → Parse (Option Stmt)
  | 0 => tooDeep
  | depth + 1 =>
    handle (declarationForm ⟨expression (depth + 1), statementBy handle depth, declarationBy handle depth⟩)

end

def programBy (handle : Handler) (depth : Nat) : Parse (List Stmt) := do
  repeatUntil (fun _ => false) (Option.toList <$> declarationBy handle depth) (← here)

theorem levelsBy_recover : ∀ depth, statementBy recover depth = statement depth ∧
    declarationBy recover depth = declaration depth
  | 0 => ⟨rfl, rfl⟩
  | depth + 1 => by
    obtain ⟨hs, hd⟩ := levelsBy_recover depth
    constructor
    · rw [statementBy, statement, hs, hd]
    · rw [declarationBy, declaration, hs, hd]

theorem programBy_recover (depth : Nat) : programBy recover depth = program depth := by
  rw [programBy, program, (levelsBy_recover depth).2]

/-- Handlers of paired declarations do what corresponds. -/
def Pairing.Handles (K : Pairing f) (handle handle' : Handler) : Prop :=
  ∀ p p', K.Paired (Stmt.rename f) p p' → K.Paired (Option.map (Stmt.rename f)) (handle p) (handle' p')

theorem paired_levels {handle handle' : Handler} (hh : K.Handles handle handle') : ∀ depth,
    K.Paired (Stmt.rename f) (statementBy handle depth) (statementBy handle' depth) ∧
      K.Paired (Option.map (Stmt.rename f)) (declarationBy handle depth) (declarationBy handle' depth)
  | 0 => ⟨paired_tooDeep, paired_tooDeep⟩
  | depth + 1 => by
    obtain ⟨hs, hd⟩ := paired_levels hh depth
    have h : PairedInner K ⟨expression (depth + 1), statementBy handle depth, declarationBy handle depth⟩
        ⟨expression (depth + 1), statementBy handle' depth, declarationBy handle' depth⟩ :=
      ⟨paired_expression (depth + 1), hs, hd⟩
    exact ⟨paired_statementForm h, hh _ _ (paired_declarationForm h)⟩

theorem paired_programBy {handle handle' : Handler} (hh : K.Handles handle handle') (depth : Nat) :
    K.Paired (List.map (Stmt.rename f)) (programBy handle depth) (programBy handle' depth) :=
  paired_bind paired_here fun ts => paired_repeatUntil (paired_toList (paired_levels hh depth).2) ts

end LoxSyntax.Parse
