/-
  LoxSyntax.Proofs.Grammar.Phrase — the grammar of expressions, and its derivations.

  A derivation holds the tokens that it derives, each in its place and of the kind that
  the place asks for. Its word is the tokens in order; its tree is what the reader makes
  of it. An operator level is a chain of operands, grouped to the left.

      expression  → disjunction ( "=" expression )?
      disjunction → conjunction ( "or" conjunction )*
      conjunction → equality ( "and" equality )*
      equality    → comparison ( ( "!=" | "==" ) comparison )*
      comparison  → term ( ( ">" | ">=" | "<" | "<=" ) term )*
      term        → factor ( ( "-" | "+" ) factor )*
      factor      → unary ( ( "/" | "*" ) unary )*
      unary       → ( "!" | "-" ) unary | call
      call        → primary ( "(" arguments? ")" | "." IDENTIFIER )*
      arguments   → expression ( "," expression )*
      primary     → "true" | "false" | "nil" | "this" | NUMBER | STRING | IDENTIFIER
                  | "(" expression ")" | "super" "." IDENTIFIER

  This is the relaxed grammar. A derivation is documented when each target of an
  assignment is an IDENTIFIER or a call "." IDENTIFIER, and no list is longer than the
  limit. What is relaxed is marked: an equals sign behind no target, and the first token
  of each argument beyond the limit.

  - `Phrase.documented_iff`: documented are the derivations without a mark.
  - `Phrase.isTarget_iff`: the targets are those whose tree names a place.
-/

import LoxSyntax.Parse.Expression

namespace LoxSyntax.Grammar

/-- A token of a kind. -/
abbrev Terminal (k : TokenKind) := { t : Token // t.kind = k }

/-- A soft error and the token it blames. -/
abbrev Mark := SyntaxError × Token

inductive Level where
  | disjunction | conjunction | equality | comparison | term | factor
  deriving DecidableEq, Repr

inductive Category where
  | expression
  | level (l : Level)
  | unary
  | call
  | primary
  deriving DecidableEq, Repr

namespace Level

/-- What stands between the operators. -/
def operand : Level → Category
  | .disjunction => .level .conjunction
  | .conjunction => .level .equality
  | .equality => .level .comparison
  | .comparison => .level .term
  | .term => .level .factor
  | .factor => .unary

def isOperator : Level → TokenKind → Bool
  | .disjunction => (· == .kwOr)
  | .conjunction => (· == .kwAnd)
  | .equality => Parse.isEqualityOperator
  | .comparison => Parse.isComparisonOperator
  | .term => Parse.isTermOperator
  | .factor => Parse.isFactorOperator

def join : Level → Expr → Token → Expr → Expr
  | .disjunction | .conjunction => .logical
  | _ => .binary

end Level

/-- The value of a word of the grammar that is a literal. -/
def literalValue? (t : Token) : Option Literal :=
  match t.kind with
  | .kwTrue => some (.boolean true)
  | .kwFalse => some (.boolean false)
  | .kwNil => some .nil
  | .number | .string => some t.literal
  | _ => none

mutual

inductive Phrase : Category → Type where
  | plain (e : Phrase (.level .disjunction)) : Phrase .expression
  | assign (target : Phrase (.level .disjunction)) (equals : Terminal .equal) (value : Phrase .expression) :
      Phrase .expression
  | one (l : Level) (e : Phrase l.operand) : Phrase (.level l)
  | more (l : Level) (left : Phrase (.level l)) (operator : { t : Token // l.isOperator t.kind = true })
      (right : Phrase l.operand) : Phrase (.level l)
  | signed (operator : { t : Token // Parse.isUnaryOperator t.kind = true }) (e : Phrase .unary) : Phrase .unary
  | unsigned (e : Phrase .call) : Phrase .unary
  | atom (e : Phrase .primary) : Phrase .call
  | callEmpty (callee : Phrase .call) (opening : Terminal .leftParen) (closing : Terminal .rightParen) : Phrase .call
  | call (callee : Phrase .call) (opening : Terminal .leftParen) (arguments : Arguments)
      (closing : Terminal .rightParen) : Phrase .call
  | property (object : Phrase .call) (dot : Terminal .dot) (name : Terminal .identifier) : Phrase .call
  | literal (t : Token) (value : Literal) (h : literalValue? t = some value) : Phrase .primary
  | this (keyword : Terminal .kwThis) : Phrase .primary
  | super (keyword : Terminal .kwSuper) (dot : Terminal .dot) (method : Terminal .identifier) : Phrase .primary
  | name (t : Terminal .identifier) : Phrase .primary
  | group (opening : Terminal .leftParen) (e : Phrase .expression) (closing : Terminal .rightParen) : Phrase .primary

inductive Arguments : Type where
  | last (e : Phrase .expression) : Arguments
  | more (e : Phrase .expression) (comma : Terminal .comma) (others : Arguments) : Arguments

end

/-! ## Words -/

mutual

def Phrase.word {c : Category} : Phrase c → List Token
  | .plain e => e.word
  | .assign target equals value => target.word ++ equals.1 :: value.word
  | .one _ e => e.word
  | .more _ left operator right => left.word ++ operator.1 :: right.word
  | .signed operator e => operator.1 :: e.word
  | .unsigned e => e.word
  | .atom e => e.word
  | .callEmpty callee opening closing => callee.word ++ [opening.1, closing.1]
  | .call callee opening as closing => callee.word ++ opening.1 :: (as.word ++ [closing.1])
  | .property object dot name => object.word ++ [dot.1, name.1]
  | .literal t _ _ => [t]
  | .this keyword => [keyword.1]
  | .super keyword dot method => [keyword.1, dot.1, method.1]
  | .name t => [t.1]
  | .group opening e closing => opening.1 :: (e.word ++ [closing.1])

def Arguments.word : Arguments → List Token
  | .last e => e.word
  | .more e comma others => e.word ++ comma.1 :: others.word

end

/-! ## Trees -/

mutual

def Phrase.tree {c : Category} : Phrase c → Expr
  | .plain e => e.tree
  | .assign target _ value => (target.tree.assignTo? value.tree).getD target.tree
  | .one _ e => e.tree
  | .more l left operator right => l.join left.tree operator.1 right.tree
  | .signed operator e => .unary operator.1 e.tree
  | .unsigned e => e.tree
  | .atom e => e.tree
  | .callEmpty callee _ closing => .call callee.tree closing.1 []
  | .call callee _ as closing => .call callee.tree closing.1 as.trees
  | .property object _ name => .get object.tree name.1
  | .literal _ value _ => .literal value
  | .this keyword => .this keyword.1
  | .super keyword _ method => .super keyword.1 method.1
  | .name t => .ident t.1
  | .group _ e _ => .grouping e.tree

def Arguments.trees : Arguments → List Expr
  | .last e => [e.tree]
  | .more e _ others => e.tree :: others.trees

end

/-! ## What is documented -/

/-- The derivation is that of an IDENTIFIER or of a call "." IDENTIFIER. -/
def Phrase.isTarget {c : Category} : Phrase c → Bool
  | .plain e => e.isTarget
  | .one _ e => e.isTarget
  | .unsigned e => e.isTarget
  | .atom e => e.isTarget
  | .property _ _ _ => true
  | .name _ => true
  | _ => false

def Arguments.length : Arguments → Nat
  | .last _ => 1
  | .more _ _ others => others.length + 1

mutual

def Phrase.Documented {c : Category} : Phrase c → Prop
  | .plain e => e.Documented
  | .assign target _ value => target.isTarget = true ∧ target.Documented ∧ value.Documented
  | .one _ e => e.Documented
  | .more _ left _ right => left.Documented ∧ right.Documented
  | .signed _ e => e.Documented
  | .unsigned e => e.Documented
  | .atom e => e.Documented
  | .callEmpty callee _ _ => callee.Documented
  | .call callee _ as _ => callee.Documented ∧ as.Documented ∧ as.length ≤ maxItems
  | .property object _ _ => object.Documented
  | .group _ e _ => e.Documented
  | _ => True

def Arguments.Documented : Arguments → Prop
  | .last e => e.Documented
  | .more e _ others => e.Documented ∧ others.Documented

end

/-- The mark of an item whose word is `w`, `count` items having been read. -/
def excess (e : SyntaxError) (count : Nat) (w : List Token) : List Mark :=
  if maxItems ≤ count then (w.take 1).map (e, ·) else []

mutual

def Phrase.marks {c : Category} : Phrase c → List Mark
  | .plain e => e.marks
  | .assign target equals value =>
    target.marks ++ (value.marks ++ if target.isTarget then [] else [(.invalidAssignmentTarget, equals.1)])
  | .one _ e => e.marks
  | .more _ left _ right => left.marks ++ right.marks
  | .signed _ e => e.marks
  | .unsigned e => e.marks
  | .atom e => e.marks
  | .callEmpty callee _ _ => callee.marks
  | .call callee _ as _ => callee.marks ++ as.marks 0
  | .property object _ _ => object.marks
  | .group _ e _ => e.marks
  | _ => []

/-- `count` arguments stand in front. -/
def Arguments.marks (count : Nat) : Arguments → List Mark
  | .last e => excess .tooManyArguments count e.word ++ e.marks
  | .more e _ others => (excess .tooManyArguments count e.word ++ e.marks) ++ others.marks (count + 1)

end

/-! ## Documented derivations have no mark -/

theorem Level.not_isPlace_join (l : Level) (a b : Expr) (t : Token) : ¬(l.join a t b).IsPlace := by
  cases l <;> exact id

theorem Phrase.isTarget_iff {c : Category} : ∀ d : Phrase c, d.isTarget = true ↔ d.tree.IsPlace
  | .plain e => e.isTarget_iff
  | .assign target equals value => by
    have h := target.isTarget_iff
    cases ht : target.tree <;> rw [ht] at h <;> simp [isTarget, tree, ht, Expr.assignTo?, Expr.IsPlace]
  | .one _ e => e.isTarget_iff
  | .more l left operator right => by
    simp only [isTarget, tree, Bool.false_eq_true, false_iff]
    exact l.not_isPlace_join _ _ _
  | .unsigned e => e.isTarget_iff
  | .atom e => e.isTarget_iff
  | .property _ _ _ => by simp [isTarget, tree, Expr.IsPlace]
  | .name _ => by simp [isTarget, tree, Expr.IsPlace]
  | .signed _ _ => by simp [isTarget, tree, Expr.IsPlace]
  | .callEmpty _ _ _ => by simp [isTarget, tree, Expr.IsPlace]
  | .call _ _ _ _ => by simp [isTarget, tree, Expr.IsPlace]
  | .literal _ _ _ => by simp [isTarget, tree, Expr.IsPlace]
  | .this _ => by simp [isTarget, tree, Expr.IsPlace]
  | .super _ _ _ => by simp [isTarget, tree, Expr.IsPlace]
  | .group _ _ _ => by simp [isTarget, tree, Expr.IsPlace]

/-! ## First tokens -/

/-- The kinds of token that begin a call or a primary expression. -/
def startsPrimary : TokenKind → Bool
  | .kwFalse | .kwTrue | .kwNil | .number | .string | .kwSuper | .kwThis | .identifier | .leftParen => true
  | _ => false

/-- The kinds of token that begin an expression. -/
def startsExpression (k : TokenKind) : Bool := Parse.isUnaryOperator k || startsPrimary k

/-- The kinds of token that begin an expression of the category. -/
def Category.starts : Category → TokenKind → Bool
  | .call | .primary => startsPrimary
  | _ => startsExpression

theorem startsPrimary_of_literalValue? {t : Token} {v : Literal} (h : literalValue? t = some v) :
    startsPrimary t.kind = true := by
  unfold literalValue? at h
  cases hk : t.kind <;> simp [hk] at h <;> rfl

theorem startsExpression_of_starts {c : Category} {k : TokenKind} (h : c.starts k = true) :
    startsExpression k = true := by
  cases c <;> simp_all [Category.starts, startsExpression]

theorem startsExpression_of_isUnaryOperator {k : TokenKind} (h : Parse.isUnaryOperator k = true) :
    startsExpression k = true := by
  simp [startsExpression, h]

theorem Phrase.word_eq_cons {c : Category} : ∀ d : Phrase c, ∃ t w, d.word = t :: w ∧ c.starts t.kind = true
  | .plain e => e.word_eq_cons
  | .assign target _ _ => by
    obtain ⟨t, w, h, hs⟩ := target.word_eq_cons
    exact ⟨t, _, by rw [word, h]; rfl, hs⟩
  | .one _ e => by
    obtain ⟨t, w, h, hs⟩ := e.word_eq_cons
    exact ⟨t, w, h, startsExpression_of_starts hs⟩
  | .more _ left _ _ => by
    obtain ⟨t, w, h, hs⟩ := left.word_eq_cons
    exact ⟨t, _, by rw [word, h]; rfl, hs⟩
  | .signed operator _ => ⟨operator.1, _, rfl, startsExpression_of_isUnaryOperator operator.2⟩
  | .unsigned e => by
    obtain ⟨t, w, h, hs⟩ := e.word_eq_cons
    exact ⟨t, w, h, startsExpression_of_starts hs⟩
  | .atom e => e.word_eq_cons
  | .callEmpty callee _ _ => by
    obtain ⟨t, w, h, hs⟩ := callee.word_eq_cons
    exact ⟨t, _, by rw [word, h]; rfl, hs⟩
  | .call callee _ _ _ => by
    obtain ⟨t, w, h, hs⟩ := callee.word_eq_cons
    exact ⟨t, _, by rw [word, h]; rfl, hs⟩
  | .property object _ _ => by
    obtain ⟨t, w, h, hs⟩ := object.word_eq_cons
    exact ⟨t, _, by rw [word, h]; rfl, hs⟩
  | .literal t _ h => ⟨t, [], rfl, startsPrimary_of_literalValue? h⟩
  | .this keyword => ⟨keyword.1, [], rfl, by rw [keyword.2]; rfl⟩
  | .super keyword _ _ => ⟨keyword.1, _, rfl, by rw [keyword.2]; rfl⟩
  | .name t => ⟨t.1, [], rfl, by rw [t.2]; rfl⟩
  | .group opening _ _ => ⟨opening.1, _, rfl, by rw [opening.2]; rfl⟩

theorem Arguments.word_eq_cons (as : Arguments) : ∃ t w, as.word = t :: w ∧ startsExpression t.kind = true := by
  cases as with
  | last e => exact e.word_eq_cons
  | more e comma others =>
    obtain ⟨t, w, h, hs⟩ := e.word_eq_cons
    exact ⟨t, _, by rw [word, h]; rfl, hs⟩

theorem excess_eq_nil_iff {e : SyntaxError} {count : Nat} {w : List Token} (h : w ≠ []) :
    excess e count w = [] ↔ count < maxItems := by
  cases w with
  | nil => exact absurd rfl h
  | cons t w =>
    by_cases hc : maxItems ≤ count
    · simp [excess, hc]
    · simpa [excess, hc] using Nat.lt_of_not_le hc

theorem excess_zero (e : SyntaxError) (w : List Token) : excess e 0 w = [] := if_neg (by decide)

theorem Phrase.word_ne_nil {c : Category} (d : Phrase c) : d.word ≠ [] := by
  obtain ⟨t, w, h, -⟩ := d.word_eq_cons
  simp [h]

theorem Arguments.length_pos (as : Arguments) : 0 < as.length := by
  cases as <;> simp [length]

mutual

theorem Phrase.documented_iff {c : Category} : ∀ d : Phrase c, d.Documented ↔ d.marks = []
  | .plain e => e.documented_iff
  | .assign target _ value => by
    simp only [Phrase.Documented, Phrase.marks, List.append_eq_nil_iff, target.documented_iff, value.documented_iff]
    cases target.isTarget <;> simp
  | .one _ e => e.documented_iff
  | .more _ left _ right => by
    simp only [Phrase.Documented, Phrase.marks, List.append_eq_nil_iff, left.documented_iff, right.documented_iff]
  | .signed _ e => e.documented_iff
  | .unsigned e => e.documented_iff
  | .atom e => e.documented_iff
  | .callEmpty callee _ _ => callee.documented_iff
  | .call callee _ as _ => by
    simp only [Phrase.Documented, Phrase.marks, List.append_eq_nil_iff, callee.documented_iff, as.marks_eq_nil_iff 0]
    simp
  | .property object _ _ => object.documented_iff
  | .group _ e _ => e.documented_iff
  | .literal _ _ _ => by simp [Phrase.Documented, Phrase.marks]
  | .this _ => by simp [Phrase.Documented, Phrase.marks]
  | .super _ _ _ => by simp [Phrase.Documented, Phrase.marks]
  | .name _ => by simp [Phrase.Documented, Phrase.marks]

theorem Arguments.marks_eq_nil_iff :
    ∀ (as : Arguments) (count : Nat), as.marks count = [] ↔ as.Documented ∧ count + as.length ≤ maxItems
  | .last e, count => by
    simp only [Arguments.marks, Arguments.Documented, Arguments.length, List.append_eq_nil_iff,
      excess_eq_nil_iff e.word_ne_nil, e.documented_iff]
    exact and_comm
  | .more e _ others, count => by
    have := others.length_pos
    simp only [Arguments.marks, Arguments.Documented, Arguments.length, List.append_eq_nil_iff,
      excess_eq_nil_iff e.word_ne_nil, e.documented_iff, others.marks_eq_nil_iff (count + 1)]
    constructor
    · rintro ⟨⟨-, he⟩, ho, hl⟩
      exact ⟨⟨he, ho⟩, by omega⟩
    · rintro ⟨⟨he, ho⟩, hl⟩
      exact ⟨⟨by omega, he⟩, ho, by omega⟩

end

/-! ## What stands in no expression -/

/-- The kinds of token that may stand in an expression. -/
def inExpression : TokenKind → Bool
  | .leftBrace | .rightBrace | .semicolon | .kwClass | .kwElse | .kwFun | .kwFor | .kwIf | .kwPrint | .kwReturn | .kwVar
  | .kwWhile | .eof => false
  | _ => true

theorem inExpression_of_startsExpression {k : TokenKind} (h : startsExpression k = true) : inExpression k = true := by
  cases k <;> first | rfl | exact absurd h (by decide)

theorem Level.inExpression_of_isOperator (l : Level) {k : TokenKind} (h : l.isOperator k = true) :
    inExpression k = true := by
  cases l <;> cases k <;> first | rfl | exact absurd h (by decide)

theorem Terminal.inExpression {k : TokenKind} (t : Terminal k) (h : inExpression k = true) :
    Grammar.inExpression t.1.kind = true := by
  rw [t.2]; exact h

mutual

theorem Phrase.inExpression_of_mem {c : Category} : ∀ (d : Phrase c), ∀ t ∈ d.word, inExpression t.kind = true
  | .plain e => e.inExpression_of_mem
  | .assign target equals value => by
    simp only [Phrase.word, List.forall_mem_append, List.forall_mem_cons]
    exact ⟨target.inExpression_of_mem, equals.inExpression rfl, value.inExpression_of_mem⟩
  | .one _ e => e.inExpression_of_mem
  | .more l left operator right => by
    simp only [Phrase.word, List.forall_mem_append, List.forall_mem_cons]
    exact ⟨left.inExpression_of_mem, l.inExpression_of_isOperator operator.2, right.inExpression_of_mem⟩
  | .signed operator e => by
    simp only [Phrase.word, List.forall_mem_cons]
    exact ⟨inExpression_of_startsExpression (startsExpression_of_isUnaryOperator operator.2), e.inExpression_of_mem⟩
  | .unsigned e => e.inExpression_of_mem
  | .atom e => e.inExpression_of_mem
  | .callEmpty callee opening closing => by
    simp only [Phrase.word, List.forall_mem_append, List.forall_mem_cons]
    exact ⟨callee.inExpression_of_mem, opening.inExpression rfl, closing.inExpression rfl, by simp⟩
  | .call callee opening as closing => by
    simp only [Phrase.word, List.forall_mem_append, List.forall_mem_cons]
    exact ⟨callee.inExpression_of_mem, opening.inExpression rfl, as.inExpression_of_mem, closing.inExpression rfl,
      by simp⟩
  | .property object dot name => by
    simp only [Phrase.word, List.forall_mem_append, List.forall_mem_cons]
    exact ⟨object.inExpression_of_mem, dot.inExpression rfl, name.inExpression rfl, by simp⟩
  | .literal t _ h => by
    have hs : startsExpression t.kind = true := by simp [startsExpression, startsPrimary_of_literalValue? h]
    simpa [Phrase.word] using inExpression_of_startsExpression hs
  | .this keyword => by simpa [Phrase.word] using keyword.inExpression rfl
  | .super keyword dot method => by
    simp only [Phrase.word, List.forall_mem_cons]
    exact ⟨keyword.inExpression rfl, dot.inExpression rfl, method.inExpression rfl, by simp⟩
  | .name t => by simpa [Phrase.word] using t.inExpression rfl
  | .group opening e closing => by
    simp only [Phrase.word, List.forall_mem_append, List.forall_mem_cons]
    exact ⟨opening.inExpression rfl, e.inExpression_of_mem, closing.inExpression rfl, by simp⟩

theorem Arguments.inExpression_of_mem : ∀ (as : Arguments), ∀ t ∈ as.word, inExpression t.kind = true
  | .last e => e.inExpression_of_mem
  | .more e comma others => by
    simp only [Arguments.word, List.forall_mem_append, List.forall_mem_cons]
    exact ⟨e.inExpression_of_mem, comma.inExpression rfl, others.inExpression_of_mem⟩

end

end LoxSyntax.Grammar
