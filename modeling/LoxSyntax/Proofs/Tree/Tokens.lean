/-
  LoxSyntax.Proofs.Tree.Tokens — the tokens that a tree keeps, in source order.

  A call keeps its closing parenthesis behind the arguments; everything else keeps its
  tokens in the order of its parts. The tokens that the tree of a derivation keeps are
  among those of the word. They are in the order of the word too, unless there is a `for`
  loop: the tree has the increment behind the body, the word in front of it.

  - `Phrase.tokens_sublist`: an expression keeps tokens of its word, in order. An
    assignment keeps those of its target and those of its value, or those of the target.
  - `Clause.drawn`: so does every part of a program, in order where no loop is `for`.
-/

import Mathlib.Data.List.Perm.Subperm
import LoxSyntax.Proofs.Grammar.Clause

namespace LoxSyntax

mutual

def Expr.tokens : Expr → List Token
  | .literal _ => []
  | .grouping inner => inner.tokens
  | .unary operator operand => operator :: operand.tokens
  | .binary left operator right => left.tokens ++ operator :: right.tokens
  | .logical left operator right => left.tokens ++ operator :: right.tokens
  | .ident name => [name]
  | .assign name value => name :: value.tokens
  | .call callee paren arguments => callee.tokens ++ (exprsTokens arguments ++ [paren])
  | .get object name => object.tokens ++ [name]
  | .set object name value => object.tokens ++ name :: value.tokens
  | .this keyword => [keyword]
  | .super keyword method => [keyword, method]

def exprsTokens : List Expr → List Token
  | [] => []
  | e :: es => e.tokens ++ exprsTokens es

end

def optionalTokens (e : Option Expr) : List Token := e.elim [] Expr.tokens

mutual

def Stmt.tokens : Stmt → List Token
  | .expression value => value.tokens
  | .print value => value.tokens
  | .var name value => name :: optionalTokens value
  | .block body => stmtsTokens body
  | .ifThen condition thenBranch => condition.tokens ++ thenBranch.tokens
  | .ifElse condition thenBranch elseBranch => condition.tokens ++ (thenBranch.tokens ++ elseBranch.tokens)
  | .while condition body => condition.tokens ++ body.tokens
  | .function declaration => declaration.tokens
  | .return keyword value => keyword :: optionalTokens value
  | .class name superclass methods => name :: (superclass.toList ++ functionsTokens methods)

def Function.tokens : Function → List Token
  | .mk name params body => name :: (params ++ stmtsTokens body)

def stmtsTokens : List Stmt → List Token
  | [] => []
  | s :: ss => s.tokens ++ stmtsTokens ss

def functionsTokens : List Function → List Token
  | [] => []
  | d :: ds => d.tokens ++ functionsTokens ds

end

/-- An assignment keeps the tokens of its target in front of those of its value. -/
theorem Expr.tokens_assignTo? {target value e : Expr} (h : target.assignTo? value = some e) :
    e.tokens = target.tokens ++ value.tokens := by
  cases target <;> cases h
  · rfl
  · simp [tokens]

theorem Stmt.tokens_forLoop (initializer : Option Stmt) (condition increment : Option Expr) (body : Stmt) :
    (forLoop initializer condition increment body).tokens = initializer.elim [] Stmt.tokens ++
      (optionalTokens condition ++ (body.tokens ++ optionalTokens increment)) := by
  cases initializer <;> cases condition <;> cases increment <;>
    simp [forLoop, precededBy, followedBy, tokens, stmtsTokens, optionalTokens, Expr.tokens]

namespace Grammar

def Part.tokens : (p : Part) → p.Tree → List Token
  | .program => stmtsTokens
  | .declaration => Stmt.tokens
  | .statement => Stmt.tokens
  | .function => Function.tokens
  | .methods => functionsTokens

/-! ## Expressions -/

theorem Level.tokens_join (l : Level) (left right : Expr) (operator : Token) :
    (l.join left operator right).tokens = left.tokens ++ operator :: right.tokens := by
  cases l <;> rfl

mutual

theorem Phrase.tokens_sublist {c : Category} : ∀ d : Phrase c, d.tree.tokens.Sublist d.word
  | .plain e => e.tokens_sublist
  | .assign target equals value => by
    rw [Phrase.tree, Phrase.word]
    cases h : target.tree.assignTo? value.tree with
    | some e =>
      rw [Option.getD_some, Expr.tokens_assignTo? h]
      exact target.tokens_sublist.append (value.tokens_sublist.cons equals.1)
    | none => exact target.tokens_sublist.trans (List.sublist_append_left _ _)
  | .one _ e => e.tokens_sublist
  | .more l left operator right => by
    rw [Phrase.tree, Level.tokens_join]
    exact left.tokens_sublist.append (right.tokens_sublist.cons_cons operator.1)
  | .signed operator e => e.tokens_sublist.cons_cons operator.1
  | .unsigned e => e.tokens_sublist
  | .atom e => e.tokens_sublist
  | .callEmpty callee opening closing =>
    callee.tokens_sublist.append ((List.Sublist.refl [closing.1]).cons opening.1)
  | .call callee opening as closing =>
    callee.tokens_sublist.append ((as.tokens_sublist.append (List.Sublist.refl [closing.1])).cons opening.1)
  | .property object dot name => object.tokens_sublist.append ((List.Sublist.refl [name.1]).cons dot.1)
  | .literal t _ _ => List.nil_sublist [t]
  | .this keyword => List.Sublist.refl [keyword.1]
  | .super keyword dot method => ((List.Sublist.refl [method.1]).cons dot.1).cons_cons keyword.1
  | .name t => List.Sublist.refl [t.1]
  | .group opening e closing => (e.tokens_sublist.trans (List.sublist_append_left _ [closing.1])).cons opening.1

theorem Arguments.tokens_sublist : ∀ as : Arguments, (exprsTokens as.trees).Sublist as.word
  | .last e => by
    rw [Arguments.trees, exprsTokens, exprsTokens, List.append_nil]
    exact e.tokens_sublist
  | .more e comma others => e.tokens_sublist.append (others.tokens_sublist.cons comma.1)

end

theorem optionalTokens_sublist (e : Option (Phrase .expression)) :
    (optionalTokens (e.map Phrase.tree)).Sublist (optionalWord e) := by
  cases e with
  | none => exact List.Sublist.refl []
  | some d => exact d.tokens_sublist

/-! ## Declarations and statements -/

theorem Parameters.names_sublist : ∀ ps : Parameters, ps.names.Sublist ps.word
  | .last name => List.Sublist.refl [name.1]
  | .more name comma others => (others.names_sublist.cons comma.1).cons_cons name.1

theorem parameters_sublist (ps : Option Parameters) :
    (ps.elim [] Parameters.names).Sublist (ps.elim [] Parameters.word) := by
  cases ps with
  | none => exact List.Sublist.refl []
  | some ps => exact ps.names_sublist

theorem superclass_sublist (s : Option (Terminal .less × Terminal .identifier)) :
    (s.map (·.2.1)).toList.Sublist (superclassWord s) := by
  cases s with
  | none => exact List.Sublist.refl []
  | some s => exact (List.Sublist.refl [s.2.1]).cons s.1.1

theorem VarDeclaration.tokens_sublist (d : VarDeclaration) : d.tree.tokens.Sublist d.word := by
  obtain ⟨keyword, name, initializer, semicolon⟩ := d
  cases initializer with
  | none => exact ((List.nil_sublist [semicolon.1]).cons_cons name.1).cons keyword.1
  | some i =>
    have hi := (i.2.tokens_sublist.cons i.1.1).trans (List.sublist_append_left _ [semicolon.1])
    exact (hi.cons_cons name.1).cons keyword.1

theorem Initializer.tokens_sublist (i : Initializer) : (i.tree.elim [] Stmt.tokens).Sublist i.word := by
  cases i with
  | none semicolon => exact List.nil_sublist [semicolon.1]
  | var d => exact d.tokens_sublist
  | expression e semicolon => exact e.tokens_sublist.trans (List.sublist_append_left _ [semicolon.1])

/-- The tokens of `u` are among those of `w`, each of them used once at most, and they are
    in the order of `w` if no `for` is there. -/
structure Drawn (u w : List Token) : Prop where
  subperm : u.Subperm w
  sublist : (∀ t ∈ w, t.kind ≠ .kwFor) → u.Sublist w

namespace Drawn

variable {u u' w w' : List Token}

theorem of_sublist (h : u.Sublist w) : Drawn u w := ⟨h.subperm, fun _ => h⟩

theorem append (h : Drawn u w) (h' : Drawn u' w') : Drawn (u ++ u') (w ++ w') := by
  refine ⟨h.subperm.append h'.subperm, ?_⟩
  intro ho
  obtain ⟨hw, hw'⟩ := List.forall_mem_append.1 ho
  exact (h.sublist hw).append (h'.sublist hw')

theorem cons (h : Drawn u w) (t : Token) : Drawn u (t :: w) := (of_sublist (List.nil_sublist [t])).append h

theorem cons_cons (h : Drawn u w) (t : Token) : Drawn (t :: u) (t :: w) :=
  (of_sublist (List.Sublist.refl [t])).append h

theorem concat (h : Drawn u w) (t : Token) : Drawn u (w ++ [t]) := by
  have ht := h.append (of_sublist (List.nil_sublist [t]))
  rwa [List.append_nil] at ht

end Drawn

theorem Clause.drawn {p : Part} (d : Clause p) : Drawn (p.tokens d.tree) d.word := by
  induction d with
  | nil | noMethods => exact .of_sublist (List.Sublist.refl [])
  | cons _ _ ih1 ih2 | moreMethods _ _ ih1 ih2 => exact ih1.append ih2
  | «class» keyword name superclass opening _ closing ih =>
    have hs := (Drawn.of_sublist (superclass_sublist superclass)).append ((ih.concat closing.1).cons opening.1)
    exact (hs.cons_cons name.1).cons keyword.1
  | «fun» keyword _ ih => exact ih.cons keyword.1
  | var d => exact .of_sublist d.tokens_sublist
  | statement _ ih => exact ih
  | function name opening parameters closing bodyOpening _ bodyClosing ih =>
    have hp := (Drawn.of_sublist (parameters_sublist parameters)).append
      (((ih.concat bodyClosing.1).cons bodyOpening.1).cons closing.1)
    exact (hp.cons opening.1).cons_cons name.1
  | expression e semicolon => exact (Drawn.of_sublist e.tokens_sublist).concat semicolon.1
  | print keyword e semicolon => exact ((Drawn.of_sublist e.tokens_sublist).concat semicolon.1).cons keyword.1
  | «return» keyword e semicolon =>
    exact ((Drawn.of_sublist (optionalTokens_sublist e)).concat semicolon.1).cons_cons keyword.1
  | block opening _ closing ih => exact (ih.concat closing.1).cons opening.1
  | «while» keyword opening condition closing _ ih | ifThen keyword opening condition closing _ ih =>
    have hc := (Drawn.of_sublist condition.tokens_sublist).append (ih.cons closing.1)
    exact (hc.cons opening.1).cons keyword.1
  | ifElse keyword opening condition closing _ otherwise _ ih1 ih2 =>
    have hb := ih1.append (ih2.cons otherwise.1)
    have hc := (Drawn.of_sublist condition.tokens_sublist).append (hb.cons closing.1)
    exact (hc.cons opening.1).cons keyword.1
  | «for» keyword opening initializer condition semicolon increment closing body ih =>
    refine ⟨?_, fun h => absurd keyword.2 (h keyword.1 List.mem_cons_self)⟩
    -- the body stands behind the increment in the word, and in front of it in the tree
    have hb : (body.tree.tokens ++ optionalTokens (increment.map Phrase.tree)).Subperm
        (optionalWord increment ++ closing.1 :: body.word) :=
      List.perm_append_comm.subperm.trans
        ((optionalTokens_sublist increment).subperm.append (ih.subperm.cons_right closing.1))
    have hc := (optionalTokens_sublist condition).subperm.append (hb.cons_right semicolon.1)
    rw [tree, Part.tokens, Stmt.tokens_forLoop]
    exact ((initializer.tokens_sublist.subperm.append hc).cons_right opening.1).cons_right keyword.1

end Grammar

end LoxSyntax
