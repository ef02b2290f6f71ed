/-
  LoxSyntax.Proofs.Grammar.ForLoop — the loop that a `for` loop stands for, written by hand.

      for ( I C ; N ) B   is   { I while ( C ) { B N ; } }

  The outer braces are there when there is an initializer, the inner ones when there is an
  increment, and a missing condition is `true`. Where the `for` loop is derived, so is the
  loop written by hand, with the same tree; it is open only where the body is.

  - `ForLoop.word_clauseByHand`, `ForLoop.tree_clauseByHand`: its word and its tree.
  - `ForLoop.documented_clauseByHand`, `ForLoop.nearestElse_clauseByHand`: what it keeps.
-/

import LoxSyntax.Proofs.Grammar.Clause

namespace LoxSyntax.Grammar

/-- A `for` loop up to its body. -/
structure ForLoop where
  keyword : Terminal .kwFor
  opening : Terminal .leftParen
  initializer : Initializer
  condition : Option (Phrase .expression)
  semicolon : Terminal .semicolon
  increment : Option (Phrase .expression)
  closing : Terminal .rightParen

/-- The tokens of the loop written by hand that are not in the `for` loop. -/
structure LoopTokens where
  loopOpening : Terminal .leftBrace
  keyword : Terminal .kwWhile
  opening : Terminal .leftParen
  always : Terminal .kwTrue
  closing : Terminal .rightParen
  bodyOpening : Terminal .leftBrace
  semicolon : Terminal .semicolon
  bodyClosing : Terminal .rightBrace
  loopClosing : Terminal .rightBrace

/-! ## Words -/

namespace ForLoop

def word (f : ForLoop) (body : List Token) : List Token :=
  f.keyword.1 :: f.opening.1 :: (f.initializer.word ++ (optionalWord f.condition ++
    f.semicolon.1 :: (optionalWord f.increment ++ f.closing.1 :: body)))

def conditionByHand (f : ForLoop) (g : LoopTokens) : List Token :=
  match f.condition with
  | some c => c.word
  | none => [g.always.1]

def bodyByHand (f : ForLoop) (g : LoopTokens) (body : List Token) : List Token :=
  match f.increment with
  | some n => g.bodyOpening.1 :: (body ++ (n.word ++ [g.semicolon.1, g.bodyClosing.1]))
  | none => body

def whileByHand (f : ForLoop) (g : LoopTokens) (body : List Token) : List Token :=
  g.keyword.1 :: g.opening.1 :: (f.conditionByHand g ++ g.closing.1 :: f.bodyByHand g body)

/-- The tokens of the loop written by hand. -/
def byHand (f : ForLoop) (g : LoopTokens) (body : List Token) : List Token :=
  match f.initializer with
  | .none _ => f.whileByHand g body
  | i => g.loopOpening.1 :: (i.word ++ (f.whileByHand g body ++ [g.loopClosing.1]))

end ForLoop

/-! ## Derivations -/

/-- The expression `true`. -/
def Phrase.always (t : Terminal .kwTrue) : Phrase .expression :=
  .plain (.one .disjunction (.one .conjunction (.one .equality (.one .comparison (.one .term (.one .factor
    (.unsigned (.atom (.literal t.1 (.boolean true) (by simp [literalValue?, t.2]))))))))))

/-- The initializer as a declaration in front of the loop. -/
def Initializer.declaration? : Initializer → Option (Clause .declaration)
  | .none _ => Option.none
  | .var d => some (.var d)
  | .expression e semicolon => some (.statement (.expression e semicolon))

namespace ForLoop

def clause (f : ForLoop) (body : Clause .statement) : Clause .statement :=
  .for f.keyword f.opening f.initializer f.condition f.semicolon f.increment f.closing body

def clauseBodyByHand (f : ForLoop) (g : LoopTokens) (body : Clause .statement) : Clause .statement :=
  match f.increment with
  | some n =>
    .block g.bodyOpening (.cons (.statement body) (.cons (.statement (.expression n g.semicolon)) .nil)) g.bodyClosing
  | none => body

def clauseWhileByHand (f : ForLoop) (g : LoopTokens) (body : Clause .statement) : Clause .statement :=
  .while g.keyword g.opening (f.condition.getD (.always g.always)) g.closing (f.clauseBodyByHand g body)

/-- The derivation of the loop written by hand. -/
def clauseByHand (f : ForLoop) (g : LoopTokens) (body : Clause .statement) : Clause .statement :=
  match f.initializer.declaration? with
  | some d => .block g.loopOpening (.cons d (.cons (.statement (f.clauseWhileByHand g body)) .nil)) g.loopClosing
  | none => f.clauseWhileByHand g body

variable (f : ForLoop) (g : LoopTokens) (body : Clause .statement)

theorem word_clause : (f.clause body).word = f.word body.word := rfl

theorem word_clauseBodyByHand : (f.clauseBodyByHand g body).word = f.bodyByHand g body.word := by
  rw [clauseBodyByHand, bodyByHand]
  cases f.increment <;> simp [Clause.word]

theorem word_clauseWhileByHand : (f.clauseWhileByHand g body).word = f.whileByHand g body.word := by
  rw [clauseWhileByHand, Clause.word, word_clauseBodyByHand, whileByHand, conditionByHand]
  cases f.condition <;> rfl

theorem word_clauseByHand : (f.clauseByHand g body).word = f.byHand g body.word := by
  rw [clauseByHand, byHand]
  cases f.initializer <;>
    simp [Initializer.declaration?, Clause.word, Initializer.word, word_clauseWhileByHand]

theorem tree_clauseBodyByHand :
    (f.clauseBodyByHand g body).tree = body.tree.followedBy (f.increment.map Phrase.tree) := by
  rw [clauseBodyByHand]
  cases f.increment <;> rfl

theorem tree_clauseWhileByHand : (f.clauseWhileByHand g body).tree =
    .while ((f.condition.map Phrase.tree).getD (.literal (.boolean true)))
      (body.tree.followedBy (f.increment.map Phrase.tree)) := by
  rw [clauseWhileByHand, Clause.tree, tree_clauseBodyByHand]
  cases f.condition <;> rfl

/-- The loop written by hand has the tree of the `for` loop. -/
theorem tree_clauseByHand : (f.clauseByHand g body).tree = (f.clause body).tree := by
  rw [clauseByHand, clause, Clause.tree, Stmt.forLoop, ← tree_clauseWhileByHand f g]
  cases f.initializer <;> rfl

variable {f body}

theorem documented_clauseByHand (h : (f.clause body).Documented) : (f.clauseByHand g body).Documented := by
  obtain ⟨hi, hc, hn, hb⟩ := h
  have hbody : (f.clauseBodyByHand g body).Documented := by
    rw [clauseBodyByHand]
    cases hf : f.increment with
    | none => exact hb
    | some n => exact ⟨hb, hn n hf, trivial⟩
  have hwhile : (f.clauseWhileByHand g body).Documented := by
    refine ⟨?_, hbody⟩
    cases hf : f.condition with
    | none => exact trivial
    | some c => exact hc c hf
  rw [clauseByHand]
  cases hf : f.initializer <;> rw [hf] at hi
  · exact hwhile
  · exact ⟨hi, hwhile, trivial⟩
  · exact ⟨hi, hwhile, trivial⟩

theorem nearestElse_clauseByHand (h : body.NearestElse) : (f.clauseByHand g body).NearestElse := by
  have hbody : (f.clauseBodyByHand g body).NearestElse := by
    rw [clauseBodyByHand]
    cases f.increment with
    | none => exact h
    | some n => exact ⟨h, trivial, trivial⟩
  rw [clauseByHand]
  cases f.initializer
  · exact hbody
  · exact ⟨trivial, hbody, trivial⟩
  · exact ⟨trivial, hbody, trivial⟩

/-- A brace behind the body closes it. -/
theorem isOpen_of_clauseByHand (h : (f.clauseByHand g body).isOpen = true) : body.isOpen = true := by
  rw [clauseByHand] at h
  cases hi : f.initializer with
  | none =>
    rw [hi] at h
    have hb : (f.clauseBodyByHand g body).isOpen = true := h
    rw [clauseBodyByHand] at hb
    cases hn : f.increment with
    | none => rwa [hn] at hb
    | some n =>
      rw [hn] at hb
      cases hb
  | var d | expression e semicolon =>
    rw [hi] at h
    cases h

end ForLoop

end LoxSyntax.Grammar
