/-
  LoxSyntax.Proofs.Reading.Soundness — what is read as an expression, a statement or a
  declaration is derived by the grammar.

  Each reader recognizes the words of its part of the grammar, with the trees and the
  marks of their derivations. So a reading that reports nothing but soft errors gives the
  tree of a derivation, and one that breaks off does so behind tokens that a derivation
  can still go on from.

  - `recognizes_expression`, `recognizes_declarationForm`: so do the readers.
  - `meets_program`: a program is read to its end, or its first error that is not soft is
    behind the beginning of a program.
-/

import LoxSyntax.Proofs.Reading.Recognition
import LoxSyntax.Proofs.Reading.Statements

namespace LoxSyntax.Grammar

open Parse

/-- The words of a category, with their trees and marks. -/
def Category.words (c : Category) : TreeLanguage Expr :=
  fun w e ms => ∃ d : Phrase c, d.word = w ∧ d.tree = e ∧ d.marks = ms

/-- The words of a part of a program, with their trees and marks. -/
def Part.words (p : Part) : TreeLanguage p.Tree :=
  fun w a ms => ∃ d : Clause p, d.word = w ∧ d.tree = a ∧ d.marks = ms

theorem Category.productive (c : Category) : c.words.Productive := by
  have hp : Nonempty (Phrase .primary) := ⟨.name ⟨⟨.identifier, "", .nil, 0, 0⟩, rfl⟩⟩
  have hu : Nonempty (Phrase .unary) := hp.map fun e => .unsigned (.atom e)
  have hl : Nonempty (Phrase (.level .factor)) := hu.map (.one .factor)
  have ht : Nonempty (Phrase (.level .term)) := hl.map (.one .term)
  have hc : Nonempty (Phrase (.level .comparison)) := ht.map (.one .comparison)
  have he : Nonempty (Phrase (.level .equality)) := hc.map (.one .equality)
  have ha : Nonempty (Phrase (.level .conjunction)) := he.map (.one .conjunction)
  have ho : Nonempty (Phrase (.level .disjunction)) := ha.map (.one .disjunction)
  have : Nonempty (Phrase c) := by
    cases c with
    | expression => exact ho.map .plain
    | level l => cases l <;> assumption
    | unary => exact hu
    | call => exact hp.map .atom
    | primary => exact hp
  obtain ⟨d⟩ := this
  exact ⟨_, _, _, d, rfl, rfl, rfl⟩

theorem Category.words_ne_nil {c : Category} {w : List Token} {e : Expr} {ms : List Mark} (h : c.words w e ms) :
    w ≠ [] := by
  obtain ⟨d, rfl, -⟩ := h
  exact d.word_ne_nil

/-! ## Arguments -/

theorem arguments_of_following {count : Nat} {w : List Token} {xs : List Expr} {ms : List Mark}
    (h : Following .tooManyArguments Category.expression.words count w xs ms) :
    (w = [] ∧ xs = [] ∧ ms = []) ∨
      ∃ (comma : Terminal .comma) (as : Arguments), w = comma.1 :: as.word ∧ xs = as.trees ∧ ms = as.marks count := by
  induction h with
  | nil => exact .inl ⟨rfl, rfl, rfl⟩
  | cons comma h h' ih =>
    obtain ⟨d, rfl, rfl, rfl⟩ := h
    obtain ⟨rfl, rfl, rfl⟩ | ⟨comma', as, rfl, rfl, rfl⟩ := ih
    · exact .inr ⟨comma, .last d, by simp [Arguments.word], by simp [Arguments.trees], by simp [Arguments.marks]⟩
    · exact .inr ⟨comma, .more d comma' as, by simp [Arguments.word], by simp [Arguments.trees],
        by simp [Arguments.marks]⟩

theorem arguments_of_separated {w : List Token} {xs : List Expr} {ms : List Mark}
    (h : Separated .tooManyArguments Category.expression.words w xs ms) :
    ∃ as : Arguments, as.word = w ∧ as.trees = xs ∧ as.marks 0 = ms := by
  obtain ⟨_, _, _, _, _, _, ⟨d, rfl, rfl, rfl⟩, h, rfl, rfl, rfl⟩ := h
  obtain ⟨rfl, rfl, rfl⟩ | ⟨comma, as, rfl, rfl, rfl⟩ := arguments_of_following h
  · exact ⟨.last d, by simp [Arguments.word], by simp [Arguments.trees], by simp [Arguments.marks, excess_zero]⟩
  · exact ⟨.more d comma as, by simp [Arguments.word], by simp [Arguments.trees],
      by simp [Arguments.marks, excess_zero]⟩

/-- What stands between the parentheses of a call, and the closing one. -/
def argumentWords : TreeLanguage (List Expr × Token) := fun w r ms =>
  ∃ closing : Terminal .rightParen, r.2 = closing.1 ∧ ((w = [closing.1] ∧ r.1 = [] ∧ ms = []) ∨
    ∃ as : Arguments, w = as.word ++ [closing.1] ∧ r.1 = as.trees ∧ ms = as.marks 0)

variable {inner : Parse Expr} {i : Bool} {n : Nat}

theorem recognizes_arguments (h : Recognizes false n inner Category.expression.words) :
    Recognizes i n (arguments inner) argumentWords := by
  refine recognizes_bind (L := fun w xs ms => (w = [] ∧ xs = [] ∧ ms = []) ∨
      ∃ as : Arguments, as.word = w ∧ as.trees = xs ∧ as.marks 0 = ms)
    (recognizes_itemsBeforeParen rfl (fun _ _ _ => Category.words_ne_nil) (h.anywhere i) (.inl ⟨rfl, rfl, rfl⟩)
      fun w xs ms h => .inr (arguments_of_separated h)) ?_
  intro w xs ms h
  refine recognizes_expect_last rfl ?_
  intro closing
  refine ⟨closing, rfl, ?_⟩
  obtain ⟨rfl, rfl, rfl⟩ | ⟨as, rfl, rfl, rfl⟩ := h
  · exact .inl ⟨rfl, rfl, rfl⟩
  · exact .inr ⟨as, rfl, rfl, by simp⟩

/-! ## Calls -/

theorem recognizes_primary (h : Recognizes false (n - 1) inner Category.expression.words) :
    Recognizes i n (primary inner) Category.primary.words := by
  refine recognizes_dispatch (recognizes_fail rfl Category.primary.productive) ?_
  intro t p hp
  have hv : ∀ v, literalValue? t = some v → Category.primary.words [t] (.literal v) [] :=
    fun v hv => ⟨.literal t v hv, rfl, rfl, rfl⟩
  unfold literalValue? at hv
  unfold primaryRule at hp
  split at hp <;> cases hp
  case h_6 hk =>
    exact recognizes_expect rfl fun dot => recognizes_expect_last rfl fun method =>
      ⟨.super ⟨t, hk⟩ dot method, rfl, rfl, rfl⟩
  case h_7 hk => exact recognizes_pure ⟨.this ⟨t, hk⟩, rfl, rfl, rfl⟩
  case h_8 hk => exact recognizes_pure ⟨.name ⟨t, hk⟩, rfl, rfl, rfl⟩
  case h_9 hk =>
    apply recognizes_bind (h.anywhere _)
    intro w e ms hword
    rcases hword with ⟨d, hw, he, hm⟩
    subst hw he hm
    exact recognizes_expect_last rfl fun closing => ⟨.group ⟨t, hk⟩ d closing, rfl, rfl, by simp [Phrase.marks]⟩
  all_goals
    next hk =>
    rw [hk] at hv
    exact recognizes_pure (hv _ rfl)

theorem recognizes_finishCall (h : Recognizes false (n - 1) inner Category.expression.words) (d : Phrase .call)
    (opening : Terminal .leftParen) :
    Recognizes i (n - 1) (finishCall inner d.tree) (Category.call.words.after (d.word ++ [opening.1]) d.marks) := by
  apply recognizes_bind (recognizes_arguments h)
  intro w r ms hr
  obtain ⟨as, paren⟩ := r
  obtain ⟨closing, rfl, ⟨rfl, rfl, rfl⟩ | ⟨as, rfl, rfl, rfl⟩⟩ := hr
  · exact recognizes_pure ⟨.callEmpty d opening closing, by simp [Phrase.word], rfl, by simp [Phrase.marks]⟩
  · exact recognizes_pure ⟨.call d opening as closing, by simp [Phrase.word], rfl, by simp [Phrase.marks]⟩

theorem recognizes_property (d : Phrase .call) (dot : Terminal .dot) :
    Recognizes i n (property d.tree) (Category.call.words.after (d.word ++ [dot.1]) d.marks) :=
  recognizes_expect_last rfl fun name => ⟨.property d dot name, by simp [Phrase.word], rfl, by simp [Phrase.marks]⟩

/-- A row of suffixes extends the call in front of it. -/
theorem recognizes_suffixes (bound : List Token) : ∀ {n : Nat} (d : Phrase .call),
    Recognizes false (n - 1) inner Category.expression.words →
    Recognizes i n (suffixes inner bound d.tree) (Category.call.words.after d.word d.marks) := by
  induction bound generalizing i with
  | nil => exact fun d _ => recognizes_pure ⟨d, by simp, rfl, by simp⟩
  | cons b bound ih =>
    intro n d h
    have hd : Category.call.words.after d.word d.marks [] d.tree [] := ⟨d, by simp, rfl, by simp⟩
    refine recognizes_dispatch (recognizes_pure hd) ?_
    intro t p hp
    obtain ⟨q, hq, rfl⟩ := Option.map_eq_some_iff.1 hp
    have hs : Recognizes (t.kind == .leftBrace || i) (n - 1) q (Category.call.words.after (d.word ++ [t]) d.marks) := by
      unfold suffixRule at hq
      split at hq <;> cases hq
      · next hk => exact recognizes_finishCall h d ⟨t, hk⟩
      · next hk => exact recognizes_property d ⟨t, hk⟩
    apply recognizes_bind hs
    intro w e ms hword
    rcases hword with ⟨d', hw, he, hm⟩
    subst he
    refine (ih d' (h.mono (by omega))).imp fun w' e' ms' ⟨d'', hw', he', hm'⟩ => ⟨d'', ?_, he', ?_⟩
    · simp [hw', hw]
    · simp [hm', hm]

theorem recognizes_call (h : Recognizes false (n - 1) inner Category.expression.words) :
    Recognizes i n (call inner) Category.call.words := by
  refine recognizes_bind (recognizes_primary h) ?_
  rintro w e ms ⟨d, hw, he, hm⟩
  refine recognizes_here ?_
  intro ts
  subst hw he hm
  exact recognizes_suffixes ts (.atom d) (h.mono (by omega))

/-! ## Operators -/

theorem recognizes_unary (h : Recognizes false n inner Category.expression.words) : ∀ depth, depth ≤ n + 1 →
    Recognizes i depth (unary inner depth) Category.unary.words
  | 0, _ => ⟨Category.unary.productive, fun ts hl => absurd hl (Nat.not_lt_zero _)⟩
  | depth + 1, hd => by
    have hc : Recognizes i (depth + 1) (call inner) Category.unary.words :=
      (recognizes_call (h.mono (by omega))).imp fun w e ms ⟨d, hw, he, hm⟩ => ⟨.unsigned d, hw, he, hm⟩
    apply recognizes_whenNext hc
    intro t ht
    refine recognizes_bind (recognizes_unary h depth (by omega)) ?_
    rintro w e ms ⟨d, hw, he, hm⟩
    refine recognizes_pure ?_
    subst hw he hm
    exact ⟨.signed ⟨t, ht⟩ d, by simp [Phrase.word], rfl, by simp [Phrase.marks]⟩

/-- A row of operators extends the chain in front of it. -/
theorem recognizes_chainFrom (l : Level) {operand : Parse Expr} (bound : List Token) :
    ∀ {n : Nat} (d : Phrase (.level l)), Recognizes i n operand l.operand.words →
    Recognizes i n (chainFrom operand l.join l.isOperator bound d.tree)
      ((Category.level l).words.after d.word d.marks) := by
  induction bound with
  | nil => exact fun d _ => recognizes_pure ⟨d, by simp, rfl, by simp⟩
  | cons b bound ih =>
    intro n d h
    have hd : (Category.level l).words.after d.word d.marks [] d.tree [] := ⟨d, by simp, rfl, by simp⟩
    apply recognizes_whenNext (recognizes_pure hd)
    intro t ht
    apply recognizes_bind (h.mono (Nat.sub_le n 1))
    intro w e ms hword
    rcases hword with ⟨d', hw, he, hm⟩
    subst hw he hm
    refine (ih (.more l d ⟨t, ht⟩ d') (h.mono (by omega))).imp fun w e ms ⟨d'', hw, he, hm⟩ => ⟨d'', ?_, he, ?_⟩
    · simp [hw, Phrase.word]
    · simp [hm, Phrase.marks]

theorem recognizes_chain (l : Level) {operand : Parse Expr} (h : Recognizes i n operand l.operand.words) :
    Recognizes i n (chain operand l.join l.isOperator) (Category.level l).words := by
  refine recognizes_bind h ?_
  rintro w e ms ⟨d, hw, he, hm⟩
  refine recognizes_here ?_
  intro ts
  subst hw he hm
  exact recognizes_chainFrom l ts (.one l d) (h.mono (by omega))

theorem recognizes_disjunction (h : Recognizes false n inner Category.expression.words) :
    Recognizes i (n + 1) (disjunction inner (n + 1)) (Category.level .disjunction).words :=
  recognizes_chain .disjunction (recognizes_chain .conjunction (recognizes_chain .equality
    (recognizes_chain .comparison (recognizes_chain .term (recognizes_chain .factor
      (recognizes_unary h (n + 1) (Nat.le_refl _)))))))

theorem recognizes_assigned (h : Recognizes false n inner Category.expression.words)
    (target : Phrase (.level .disjunction)) (equals : Terminal .equal) (ts : List Token) :
    Recognizes i n (assigned inner target.tree (equals.1 :: ts))
      (Category.expression.words.after (target.word ++ [equals.1]) target.marks) := by
  apply recognizes_bind (h.anywhere i)
  intro w e ms hword
  rcases hword with ⟨d, hw, he, hm⟩
  subst hw he hm
  have hp := target.isTarget_iff
  rw [← Expr.assignTo?_isSome target.tree d.tree] at hp
  cases hq : target.tree.assignTo? d.tree with
  | some e =>
    have ht : target.isTarget = true := hp.2 (by rw [hq]; rfl)
    exact recognizes_pure ⟨.assign target equals d, by simp [Phrase.word], by simp [Phrase.tree, hq],
      by simp [Phrase.marks, ht]⟩
  | none =>
    have ht : target.isTarget = false := by simpa [hq] using hp
    refine recognizes_bind (L := fun w _ ms => w = [] ∧ ms = [(.invalidAssignmentTarget, equals.1)])
      (recognizes_report rfl rfl ⟨rfl, rfl⟩) fun w _ ms hw => recognizes_pure ?_
    obtain ⟨rfl, rfl⟩ := hw
    exact ⟨.assign target equals d, by simp [Phrase.word], by simp [Phrase.tree, hq], by simp [Phrase.marks, ht]⟩

theorem recognizes_expression : ∀ n, Recognizes false n (expression n) Category.expression.words
  | 0 => ⟨Category.expression.productive, fun ts hl => absurd hl (Nat.not_lt_zero _)⟩
  | n + 1 => by
    have h := recognizes_expression n
    apply recognizes_bind (recognizes_disjunction h)
    intro w e ms hword
    rcases hword with ⟨d, hw, he, hm⟩
    subst hw he hm
    have hd : Category.expression.words.after d.word d.marks [] d.tree [] :=
      ⟨.plain d, by simp [Phrase.word], rfl, by simp [Phrase.marks]⟩
    refine recognizes_whenNext_here (recognizes_pure hd) ?_
    intro t ts ht
    refine ((recognizes_assigned h d ⟨t, by simpa using ht⟩ ts).mono (by omega)).imp ?_
    intro w e ms hword
    rcases hword with ⟨d', hw, he, hm⟩
    exact ⟨d', by simp [hw], he, by simp [hm]⟩

/-! ## Parameters -/

theorem parameters_of_following {count : Nat} {w xs : List Token} {ms : List Mark}
    (h : Following .tooManyParameters
      (fun w t ms => ∃ name : Terminal .identifier, w = [name.1] ∧ t = name.1 ∧ ms = []) count w xs ms) :
    (w = [] ∧ xs = [] ∧ ms = []) ∨
      ∃ (comma : Terminal .comma) (ps : Parameters), w = comma.1 :: ps.word ∧ xs = ps.names ∧ ms = ps.marks count := by
  induction h with
  | nil => exact .inl ⟨rfl, rfl, rfl⟩
  | cons comma h h' ih =>
    obtain ⟨name, rfl, rfl, rfl⟩ := h
    obtain ⟨rfl, rfl, rfl⟩ | ⟨comma', ps, rfl, rfl, rfl⟩ := ih
    · exact .inr ⟨comma, .last name, rfl, rfl, by simp [Parameters.marks]⟩
    · exact .inr ⟨comma, .more name comma' ps, rfl, rfl, by simp [Parameters.marks]⟩

def parameterWords : TreeLanguage (List Token) := fun w xs ms =>
  ∃ ps : Option Parameters, w = ps.elim [] Parameters.word ∧ xs = ps.elim [] Parameters.names ∧
    ms = ps.elim [] (·.marks 0)

theorem recognizes_parameters :
    Recognizes i n (itemsBeforeParen (expect .identifier .noParameterName) .tooManyParameters) parameterWords := by
  refine recognizes_itemsBeforeParen rfl (fun w t ms h => ?_) (recognizes_token rfl) ⟨none, rfl, rfl, rfl⟩ ?_
  · obtain ⟨name, rfl, -⟩ := h
    exact List.cons_ne_nil _ _
  · intro w xs ms h
    obtain ⟨_, _, _, _, _, _, ⟨name, rfl, rfl, rfl⟩, h, rfl, rfl, rfl⟩ := h
    obtain ⟨rfl, rfl, rfl⟩ | ⟨comma, ps, rfl, rfl, rfl⟩ := parameters_of_following h
    · exact ⟨some (.last name), rfl, rfl, by simp [Parameters.marks, excess_zero]⟩
    · exact ⟨some (.more name comma ps), rfl, rfl, by simp [Parameters.marks, excess_zero]⟩

/-! ## Declarations -/

/-- The readers for what stands inside recognize it. -/
structure Sound (n : Nat) (inner : Inner) : Prop where
  expression : Recognizes false (n + 1) inner.expression Category.expression.words
  statement : Recognizes false n inner.statement Part.statement.words
  declaration : Recognizes true n inner.declaration fun w o ms => ∃ s, o = some s ∧ Part.declaration.words w s ms

/-- The words of a block behind its opening brace. -/
def blockWords : TreeLanguage (List Stmt) := fun w body ms =>
  ∃ (d : Clause .program) (closing : Terminal .rightBrace), w = d.word ++ [closing.1] ∧ body = d.tree ∧ ms = d.marks

variable {inner : Inner}

/-- The words of one declaration, read into a list. -/
def oneDeclaration : TreeLanguage (List Stmt) :=
  fun w xs ms => ∃ d : Clause .declaration, w = d.word ∧ xs = [d.tree] ∧ ms = d.marks

theorem recognizes_oneDeclaration {read : Parse (Option Stmt)}
    (h : Recognizes true n read fun w o ms => ∃ s, o = some s ∧ Part.declaration.words w s ms) :
    Recognizes true n (Option.toList <$> read) oneDeclaration :=
  recognizes_map _ h fun w o ms ⟨s, ho, d, hw, hs, hm⟩ => ⟨d, hw.symm, by rw [ho, hs]; rfl, hm.symm⟩

theorem oneDeclaration_ne_nil {w : List Token} {xs : List Stmt} {ms : List Mark} (h : oneDeclaration w xs ms) :
    w ≠ [] := by
  obtain ⟨d, rfl, -⟩ := h
  obtain ⟨t, w, hw, -⟩ := d.declaration_word_eq_cons
  simp [hw]

theorem Clause.program_words_nil : Part.program.words [] [] [] := ⟨.nil, rfl, rfl, rfl⟩

theorem Clause.program_words_cons (w : List Token) (xs : List Stmt) (ms : List Mark)
    (h : oneDeclaration w xs ms) (w' : List Token) (ys : List Stmt)
    (ms' : List Mark) (h' : Part.program.words w' ys ms') : Part.program.words (w ++ w') (xs ++ ys) (ms ++ ms') := by
  obtain ⟨d, rfl, rfl, rfl⟩ := h
  obtain ⟨d', rfl, rfl, rfl⟩ := h'
  exact ⟨.cons d d', rfl, rfl, rfl⟩

theorem recognizes_block (h : Sound n inner) : Recognizes true n (block inner) blockWords := by
  refine recognizes_here ?_
  intro ts
  refine recognizes_bind (recognizes_repeatUntil _ (recognizes_oneDeclaration h.declaration)
    (fun _ _ _ => oneDeclaration_ne_nil) Clause.program_words_nil Clause.program_words_cons ts)
    fun w body ms ⟨d, hw, hb, hm⟩ => ?_
  subst hw hb hm
  exact recognizes_expect_last rfl fun closing => ⟨d, closing, rfl, rfl, by simp⟩

theorem recognizes_function (h : Sound n inner) (what : String) :
    Recognizes i (n + 1) (Parse.function inner what) Part.function.words := by
  refine recognizes_expect rfl ?_
  intro name
  refine recognizes_expect rfl ?_
  intro opening
  apply recognizes_bind recognizes_parameters
  intro w ps ms hword
  rcases hword with ⟨parameters, hw, hp, hm⟩
  subst hw hp hm
  refine recognizes_expect rfl ?_
  intro closing
  refine recognizes_expect rfl ?_
  intro bodyOpening
  apply recognizes_bind ((recognizes_block h).mono (by omega))
  intro w body ms hword
  rcases hword with ⟨d, bodyClosing, hw, hb, hm⟩
  subst hw hb hm
  refine recognizes_pure ⟨.function name opening parameters closing bodyOpening d bodyClosing, ?_, rfl, ?_⟩
  · simp [Clause.word]
  · simp [Clause.marks]

theorem recognizes_superclass : Recognizes i n superclass fun w parent ms =>
    ∃ s : Option (Terminal .less × Terminal .identifier), w = superclassWord s ∧ parent = s.map (·.2.1) ∧ ms = [] := by
  apply recognizes_whenNext (recognizes_pure ⟨none, rfl, rfl, rfl⟩)
  intro t ht
  exact recognizes_expect_last rfl fun name => ⟨some (⟨t, by simpa using ht⟩, name), rfl, rfl, rfl⟩

theorem recognizes_methods (h : Sound n inner) (bound : List Token) :
    Recognizes true n (repeatUntil (· == .rightBrace) ((fun f => [f]) <$> Parse.function inner "method") bound)
      Part.methods.words := by
  have hf : Recognizes true n ((fun f => [f]) <$> Parse.function inner "method")
      fun w xs ms => ∃ d : Clause .function, w = d.word ∧ xs = [d.tree] ∧ ms = d.marks :=
    recognizes_map _ ((recognizes_function h _).mono (Nat.le_succ n)) fun w f ms ⟨d, hw, hf, hm⟩ =>
      ⟨d, hw.symm, by rw [hf], hm.symm⟩
  refine recognizes_repeatUntil _ hf ?_ ⟨.noMethods, rfl, rfl, rfl⟩ ?_ bound
  · rintro w xs ms ⟨d, rfl, -⟩
    obtain ⟨t, w, hw, -⟩ := d.function_word_eq_cons
    simp [hw]
  · rintro w xs ms ⟨d, rfl, rfl, rfl⟩ w' ys ms' ⟨d', rfl, rfl, rfl⟩
    exact ⟨.moreMethods d d', rfl, rfl, rfl⟩

theorem recognizes_classDeclaration (h : Sound n inner) (keyword : Terminal .kwClass) :
    Recognizes i n (classDeclaration inner) (Part.declaration.words.after [keyword.1] []) := by
  refine recognizes_expect rfl ?_
  intro name
  refine recognizes_bind recognizes_superclass ?_
  rintro w parent ms ⟨s, hw, hs, hm⟩
  refine recognizes_expect rfl ?_
  intro opening
  subst hw hs hm
  refine recognizes_here ?_
  intro ts
  refine recognizes_bind ((recognizes_methods h ts).mono (by omega)) ?_
  rintro w methods ms ⟨d, hw, hd, hm⟩
  subst hw hd hm
  refine recognizes_expect_last rfl fun closing => ⟨.class keyword name s opening d closing, ?_, rfl, ?_⟩
  · simp [Clause.word]
  · simp [Clause.marks]

theorem recognizes_varDeclaration (h : Sound n inner) (keyword : Terminal .kwVar) :
    Recognizes i n (varDeclaration inner) fun w s ms =>
      ∃ d : VarDeclaration, d.word = keyword.1 :: w ∧ d.tree = s ∧ d.marks = ms := by
  have hi : ∀ n' ≤ n, Recognizes i n' (initializer inner) fun w v ms =>
      ∃ o : Option (Terminal .equal × Phrase .expression), w = o.elim [] (fun i => i.1.1 :: i.2.word) ∧
        v = o.map (·.2.tree) ∧ ms = optionalMarks (o.map (·.2)) := by
    intro n' hn
    apply recognizes_whenNext (recognizes_pure ⟨none, rfl, rfl, rfl⟩)
    intro t ht
    apply recognizes_map _ ((h.expression.anywhere i).mono (by omega))
    intro w e ms hword
    rcases hword with ⟨d, hw, he, hm⟩
    subst hw he hm
    exact ⟨some (⟨t, by simpa using ht⟩, d), rfl, rfl, rfl⟩
  refine recognizes_expect rfl ?_
  intro name
  refine recognizes_bind (hi _ (by omega)) ?_
  rintro w v ms ⟨o, hw, hv, hm⟩
  subst hw hv hm
  refine recognizes_expect_last rfl fun semicolon => ⟨⟨keyword, name, o, semicolon⟩, ?_, rfl, ?_⟩
  · simp [VarDeclaration.word]
  · simp [VarDeclaration.marks]

/-! ## Statements -/

theorem recognizes_expressionStatement (h : Sound n inner) : Recognizes i (n + 1) (expressionStatement inner)
    fun w s ms => ∃ (d : Phrase .expression) (semicolon : Terminal .semicolon), w = d.word ++ [semicolon.1] ∧
      s = .expression d.tree ∧ ms = d.marks := by
  apply recognizes_bind (h.expression.anywhere i)
  intro w e ms hword
  rcases hword with ⟨d, hw, he, hm⟩
  subst hw he hm
  exact recognizes_expect_last rfl fun semicolon => ⟨d, semicolon, rfl, rfl, by simp⟩

theorem recognizes_expressionUnless (h : Sound n inner) (stop : TokenKind) :
    Recognizes i n (expressionUnless inner stop) fun w v ms =>
      ∃ o : Option (Phrase .expression), w = optionalWord o ∧ v = o.map Phrase.tree ∧ ms = optionalMarks o := by
  refine recognizes_nextIs ?_
  intro b
  cases b with
  | true => exact recognizes_pure ⟨none, rfl, rfl, rfl⟩
  | false =>
    apply recognizes_map _ ((h.expression.anywhere i).mono (Nat.le_succ n))
    intro w e ms hword
    rcases hword with ⟨d, hw, he, hm⟩
    exact ⟨some d, hw.symm, by rw [← he]; rfl, hm.symm⟩

theorem recognizes_printStatement (h : Sound n inner) (keyword : Terminal .kwPrint) :
    Recognizes i n (printStatement inner) (Part.statement.words.after [keyword.1] []) := by
  apply recognizes_bind ((h.expression.anywhere i).mono (Nat.le_succ n))
  intro w e ms hword
  rcases hword with ⟨d, hw, he, hm⟩
  subst hw he hm
  exact recognizes_expect_last rfl fun semicolon => ⟨.print keyword d semicolon, rfl, rfl, by simp [Clause.marks]⟩

theorem recognizes_returnStatement (h : Sound n inner) (keyword : Terminal .kwReturn) :
    Recognizes i n (returnStatement inner keyword.1) (Part.statement.words.after [keyword.1] []) := by
  apply recognizes_bind (recognizes_expressionUnless h _)
  intro w e ms hword
  rcases hword with ⟨o, hw, he, hm⟩
  subst hw he hm
  exact recognizes_expect_last rfl fun semicolon => ⟨.return keyword o semicolon, rfl, rfl, by simp [Clause.marks]⟩

theorem recognizes_whileStatement (h : Sound n inner) (keyword : Terminal .kwWhile) :
    Recognizes i n (whileStatement inner) (Part.statement.words.after [keyword.1] []) := by
  refine recognizes_expect rfl ?_
  intro opening
  apply recognizes_bind ((h.expression.anywhere i).mono (by omega))
  intro w e ms hword
  rcases hword with ⟨c, hw, he, hm⟩
  refine recognizes_expect rfl ?_
  intro closing
  apply recognizes_bind ((h.statement.anywhere i).mono (by omega))
  intro w' s ms' hword
  rcases hword with ⟨d, hw', hs, hm'⟩
  subst hw he hm hw' hs hm'
  refine recognizes_pure ⟨.while keyword opening c closing d, ?_, rfl, ?_⟩
  · simp [Clause.word]
  · simp [Clause.marks]

theorem recognizes_ifStatement (h : Sound n inner) (keyword : Terminal .kwIf) :
    Recognizes i n (ifStatement inner) (Part.statement.words.after [keyword.1] []) := by
  refine recognizes_expect rfl ?_
  intro opening
  apply recognizes_bind ((h.expression.anywhere i).mono (by omega))
  intro w e ms hword
  rcases hword with ⟨c, hw, he, hm⟩
  refine recognizes_expect rfl ?_
  intro closing
  apply recognizes_bind ((h.statement.anywhere i).mono (by omega))
  intro w' s ms' hword
  rcases hword with ⟨d, hw', hs, hm'⟩
  subst hw he hm hw' hs hm'
  have ht : Part.statement.words.after [keyword.1] [] (opening.1 :: (c.word ++ closing.1 :: d.word))
      (.ifThen c.tree d.tree) (c.marks ++ d.marks) := ⟨.ifThen keyword opening c closing d, rfl, rfl, rfl⟩
  apply recognizes_whenNext (recognizes_pure (by simpa [TreeLanguage.after] using ht))
  intro t hk
  apply recognizes_map _ ((h.statement.anywhere i).mono (by omega))
  intro w s ms hword
  rcases hword with ⟨d', hw, hs, hm⟩
  subst hw hs hm
  refine ⟨.ifElse keyword opening c closing d ⟨t, by simpa using hk⟩ d', ?_, rfl, ?_⟩
  · simp [Clause.word]
  · simp [Clause.marks]

theorem recognizes_loopInitializer (h : Sound n inner) : Recognizes i n (loopInitializer inner)
    fun w s ms => ∃ d : Initializer, d.word = w ∧ d.tree = s ∧ d.marks = ms := by
  refine recognizes_dispatch (recognizes_map _ ((recognizes_expressionStatement h).mono (Nat.le_succ n)) ?_)
    fun t p hp => ?_
  · rintro w s ms ⟨d, semicolon, rfl, rfl, rfl⟩
    exact ⟨.expression d semicolon, rfl, rfl, rfl⟩
  · unfold initializerRule at hp
    split at hp <;> cases hp
    · next hk => exact recognizes_pure ⟨.none ⟨t, hk⟩, rfl, rfl, rfl⟩
    · next hk =>
      refine recognizes_map _ ((recognizes_varDeclaration h ⟨t, hk⟩).mono (Nat.sub_le n 1)) ?_
      rintro w s ms ⟨d, hw, hs, hm⟩
      exact ⟨.var d, hw, by rw [← hs]; rfl, hm⟩

theorem recognizes_forStatement (h : Sound n inner) (keyword : Terminal .kwFor) :
    Recognizes i n (forStatement inner) (Part.statement.words.after [keyword.1] []) := by
  refine recognizes_expect rfl ?_
  intro opening
  apply recognizes_bind ((recognizes_loopInitializer h).mono (by omega))
  intro w₁ s ms₁ hword
  rcases hword with ⟨d, hw₁, hs, hm₁⟩
  apply recognizes_bind ((recognizes_expressionUnless h _).mono (by omega))
  intro w₂ c ms₂ hword
  rcases hword with ⟨o, hw₂, hc, hm₂⟩
  refine recognizes_expect rfl ?_
  intro semicolon
  apply recognizes_bind ((recognizes_expressionUnless h _).mono (by omega))
  intro w₃ c' ms₃ hword
  rcases hword with ⟨o', hw₃, hc', hm₃⟩
  refine recognizes_expect rfl ?_
  intro closing
  apply recognizes_bind ((h.statement.anywhere i).mono (by omega))
  intro w₄ body ms₄ hword
  rcases hword with ⟨b, hw₄, hb, hm₄⟩
  subst hw₁ hs hm₁ hw₂ hc hm₂ hw₃ hc' hm₃ hw₄ hb hm₄
  refine recognizes_pure ⟨.for keyword opening d o semicolon o' closing b, ?_, rfl, ?_⟩
  · simp [Clause.word]
  · simp [Clause.marks]

theorem recognizes_statementForm (h : Sound n inner) :
    Recognizes false (n + 1) (statementForm inner) Part.statement.words := by
  refine recognizes_dispatch ((recognizes_expressionStatement h).imp ?_) fun t p hp => ?_
  · rintro w s ms ⟨d, semicolon, rfl, rfl, rfl⟩
    exact ⟨.expression d semicolon, rfl, rfl, rfl⟩
  · unfold statementRule at hp
    split at hp <;> cases hp
    · next hk => exact recognizes_forStatement h ⟨t, hk⟩
    · next hk => exact recognizes_ifStatement h ⟨t, hk⟩
    · next hk => exact recognizes_printStatement h ⟨t, hk⟩
    · next hk => exact recognizes_returnStatement h ⟨t, hk⟩
    · next hk => exact recognizes_whileStatement h ⟨t, hk⟩
    · next hk =>
      rw [hk]
      apply recognizes_map _ (recognizes_block h)
      intro w body ms hword
      rcases hword with ⟨d, closing, hw, hb, hm⟩
      subst hw hb hm
      exact ⟨.block ⟨t, hk⟩ d closing, rfl, rfl, rfl⟩

theorem recognizes_declarationForm (h : Sound n inner) :
    Recognizes false (n + 1) (declarationForm inner) Part.declaration.words := by
  refine recognizes_dispatch ((recognizes_statementForm h).imp ?_) fun t p hp => ?_
  · rintro w s ms ⟨d, rfl, rfl, rfl⟩
    exact ⟨.statement d, rfl, rfl, rfl⟩
  · unfold declarationRule at hp
    split at hp <;> cases hp
    · next hk => exact recognizes_classDeclaration h ⟨t, hk⟩
    · next hk =>
      apply recognizes_map _ ((recognizes_function h _).mono (Nat.le_succ n))
      intro w f ms hword
      rcases hword with ⟨d, hw, hf, hm⟩
      subst hw hf hm
      exact ⟨.fun ⟨t, hk⟩ d, rfl, rfl, rfl⟩
    · next hk =>
      refine (recognizes_varDeclaration h ⟨t, hk⟩).imp ?_
      intro w s ms hword
      rcases hword with ⟨d, hw, hs, hm⟩
      exact ⟨.var d, hw, hs, hm⟩

/-! ## Programs -/

theorem statement_productive : Part.statement.words.Productive :=
  ⟨_, _, _, .return ⟨⟨.kwReturn, "", .nil, 0, 0⟩, rfl⟩ none ⟨⟨.semicolon, "", .nil, 0, 0⟩, rfl⟩, rfl, rfl, rfl⟩

theorem recognizes_levels : ∀ n, Recognizes false n (Parse.statement n) Part.statement.words ∧
    Recognizes true n (Parse.declaration n) fun w o ms => ∃ s, o = some s ∧ Part.declaration.words w s ms
  | 0 => by
    obtain ⟨w, s, ms, d, hw, hs, hm⟩ := statement_productive
    exact ⟨⟨⟨w, s, ms, d, hw, hs, hm⟩, fun ts hl => absurd hl (Nat.not_lt_zero _)⟩,
      ⟨⟨w, some s, ms, s, rfl, .statement d, hw, hs, hm⟩, fun ts hl => absurd hl (Nat.not_lt_zero _)⟩⟩
  | n + 1 => by
    obtain ⟨hs, hd⟩ := recognizes_levels n
    have h : Sound n (insideOf n) := ⟨recognizes_expression (n + 1), hs, hd⟩
    exact ⟨recognizes_statementForm h, recognizes_recover (recognizes_declarationForm h)⟩

theorem sound_insideOf (n : Nat) : Sound n (insideOf n) :=
  ⟨recognizes_expression (n + 1), (recognizes_levels n).1, (recognizes_levels n).2⟩

/-- A program is read to its end, or breaks off behind the beginning of one. -/
theorem meets_program {depth : Nat} {ts : List Token} (h : ts.length < depth) :
    Meets Part.program.words (· = []) true ts (Parse.program depth ts) := by
  have hp := meets_repeatUntil (fun _ => false) (recognizes_oneDeclaration (recognizes_levels depth).2)
    (fun _ _ _ => oneDeclaration_ne_nil) Clause.program_words_nil Clause.program_words_cons ts ts h
  refine hp.mono ?_
  intro rest he
  cases rest with
  | nil => rfl
  | cons t rest => exact absurd (he (Nat.le_refl _) t rfl) Bool.false_ne_true

end LoxSyntax.Grammar
