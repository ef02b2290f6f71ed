/-
  LoxSyntax.Proofs.Tree.Values — the values of the literals in a tree, in order.

  A tree keeps the value of a literal and not its token. The values in the tree of a
  derivation are those of literal tokens of the word; only the condition that a `for` loop
  lacks is a truth value without a token.

  - `Phrase.values_among`: the values of an expression are those of its word.
  - `Clause.values_among`: so are those of every part of a program.
-/

import LoxSyntax.Proofs.Grammar.Clause

namespace LoxSyntax

mutual

def Expr.values : Expr → List Literal
  | .literal value => [value]
  | .grouping inner => inner.values
  | .unary _ operand => operand.values
  | .binary left _ right => left.values ++ right.values
  | .logical left _ right => left.values ++ right.values
  | .ident _ => []
  | .assign _ value => value.values
  | .call callee _ arguments => callee.values ++ exprsValues arguments
  | .get object _ => object.values
  | .set object _ value => object.values ++ value.values
  | .this _ => []
  | .super _ _ => []

def exprsValues : List Expr → List Literal
  | [] => []
  | e :: es => e.values ++ exprsValues es

end

def optionalValues (e : Option Expr) : List Literal := e.elim [] Expr.values

mutual

def Stmt.values : Stmt → List Literal
  | .expression value => value.values
  | .print value => value.values
  | .var _ value => optionalValues value
  | .block body => stmtsValues body
  | .ifThen condition thenBranch => condition.values ++ thenBranch.values
  | .ifElse condition thenBranch elseBranch => condition.values ++ (thenBranch.values ++ elseBranch.values)
  | .while condition body => condition.values ++ body.values
  | .function declaration => declaration.values
  | .return _ value => optionalValues value
  | .class _ _ methods => functionsValues methods

def Function.values : Function → List Literal
  | .mk _ _ body => stmtsValues body

def stmtsValues : List Stmt → List Literal
  | [] => []
  | s :: ss => s.values ++ stmtsValues ss

def functionsValues : List Function → List Literal
  | [] => []
  | d :: ds => d.values ++ functionsValues ds

end

/-- An assignment has the values of its target in front of those of its value. -/
theorem Expr.values_assignTo? {target value e : Expr} (h : target.assignTo? value = some e) :
    e.values = target.values ++ value.values := by
  cases target <;> cases h <;> rfl

/-- A condition that is missing is true. -/
theorem Stmt.values_forLoop (initializer : Option Stmt) (condition increment : Option Expr) (body : Stmt) :
    (forLoop initializer condition increment body).values = initializer.elim [] Stmt.values ++
      (condition.elim [.boolean true] Expr.values ++ (body.values ++ optionalValues increment)) := by
  cases initializer <;> cases condition <;> cases increment <;>
    simp [forLoop, precededBy, followedBy, values, stmtsValues, optionalValues, Expr.values]

namespace Grammar

def Part.values : (p : Part) → p.Tree → List Literal
  | .program => stmtsValues
  | .declaration => Stmt.values
  | .statement => Stmt.values
  | .function => Function.values
  | .methods => functionsValues

/-- Each value is that of a literal among the tokens, or else it is true. -/
def Among (vs : List Literal) (w : List Token) : Prop :=
  ∀ v ∈ vs, v = .boolean true ∨ ∃ t ∈ w, literalValue? t = some v

namespace Among

variable {vs vs' : List Literal} {u w : List Token}

theorem nil (w : List Token) : Among [] w := List.forall_mem_nil _

theorem mono (h : Among vs u) (hw : ∀ t ∈ u, t ∈ w) : Among vs w :=
  fun v hv => (h v hv).imp_right fun ⟨t, ht, he⟩ => ⟨t, hw t ht, he⟩

theorem append (h : Among vs u) (h' : Among vs' w) : Among (vs ++ vs') (u ++ w) :=
  List.forall_mem_append.2 ⟨h.mono fun _ => List.mem_append_left w, h'.mono fun _ => List.mem_append_right u⟩

theorem cons (h : Among vs w) (t : Token) : Among vs (t :: w) := h.mono fun _ => List.mem_cons_of_mem t

theorem concat (h : Among vs w) (more : List Token) : Among vs (w ++ more) := h.mono fun _ => List.mem_append_left more

end Among

/-! ## Expressions -/

theorem Level.values_join (l : Level) (left right : Expr) (operator : Token) :
    (l.join left operator right).values = left.values ++ right.values := by
  cases l <;> rfl

mutual

theorem Phrase.values_among {c : Category} : ∀ d : Phrase c, Among d.tree.values d.word
  | .plain e => e.values_among
  | .assign target equals value => by
    rw [Phrase.tree, Phrase.word]
    cases h : target.tree.assignTo? value.tree with
    | some e =>
      rw [Option.getD_some, Expr.values_assignTo? h]
      exact target.values_among.append (value.values_among.cons equals.1)
    | none => exact target.values_among.concat _
  | .one _ e => e.values_among
  | .more l left operator right => by
    rw [Phrase.tree, Level.values_join]
    exact left.values_among.append (right.values_among.cons operator.1)
  | .signed operator e => e.values_among.cons operator.1
  | .unsigned e => e.values_among
  | .atom e => e.values_among
  | .callEmpty callee opening closing => by
    rw [Phrase.tree, Expr.values, exprsValues, List.append_nil]
    exact callee.values_among.concat _
  | .call callee opening as closing => callee.values_among.append ((as.values_among.concat _).cons opening.1)
  | .property object dot name => object.values_among.concat _
  | .literal t value h => by simp [Among, Phrase.tree, Phrase.word, Expr.values, h]
  | .this keyword => .nil _
  | .super keyword dot method => .nil _
  | .name t => .nil _
  | .group opening e closing => (e.values_among.concat _).cons opening.1

theorem Arguments.values_among : ∀ as : Arguments, Among (exprsValues as.trees) as.word
  | .last e => by
    rw [Arguments.trees, exprsValues, exprsValues, List.append_nil]
    exact e.values_among
  | .more e comma others => e.values_among.append (others.values_among.cons comma.1)

end

theorem optionalValues_among (e : Option (Phrase .expression)) :
    Among (optionalValues (e.map Phrase.tree)) (optionalWord e) := by
  cases e with
  | none => exact .nil _
  | some d => exact d.values_among

/-! ## Declarations and statements -/

theorem VarDeclaration.values_among (d : VarDeclaration) : Among d.tree.values d.word := by
  obtain ⟨keyword, name, initializer, semicolon⟩ := d
  cases initializer with
  | none => exact .nil _
  | some i => exact (((i.2.values_among.cons i.1.1).concat [semicolon.1]).cons name.1).cons keyword.1

theorem Initializer.values_among (i : Initializer) : Among (i.tree.elim [] Stmt.values) i.word := by
  cases i with
  | none semicolon => exact .nil _
  | var d => exact d.values_among
  | expression e semicolon => exact e.values_among.concat _

theorem condition_among (e : Option (Phrase .expression)) :
    Among ((e.map Phrase.tree).elim [.boolean true] Expr.values) (optionalWord e) := by
  cases e with
  | none => simp [Among]
  | some d => exact d.values_among

theorem Clause.values_among {p : Part} (d : Clause p) : Among (p.values d.tree) d.word := by
  induction d with
  | nil | noMethods => exact .nil _
  | cons _ _ ih1 ih2 | moreMethods _ _ ih1 ih2 => exact ih1.append ih2
  | «class» keyword name superclass opening _ closing ih =>
    have hs := (Among.nil (superclassWord superclass)).append ((ih.concat [closing.1]).cons opening.1)
    exact (hs.cons name.1).cons keyword.1
  | «fun» keyword _ ih => exact ih.cons keyword.1
  | var d => exact d.values_among
  | statement _ ih => exact ih
  | function name opening parameters closing bodyOpening _ bodyClosing ih =>
    have hp := (Among.nil (parameters.elim [] Parameters.word)).append
      (((ih.concat [bodyClosing.1]).cons bodyOpening.1).cons closing.1)
    exact (hp.cons opening.1).cons name.1
  | expression e semicolon => exact e.values_among.concat _
  | print keyword e semicolon => exact (e.values_among.concat _).cons keyword.1
  | «return» keyword e semicolon => exact ((optionalValues_among e).concat _).cons keyword.1
  | block opening _ closing ih => exact (ih.concat _).cons opening.1
  | «while» keyword opening condition closing _ ih | ifThen keyword opening condition closing _ ih =>
    exact ((condition.values_among.append (ih.cons closing.1)).cons opening.1).cons keyword.1
  | ifElse keyword opening condition closing _ otherwise _ ih1 ih2 =>
    have hb := ih1.append (ih2.cons otherwise.1)
    exact ((condition.values_among.append (hb.cons closing.1)).cons opening.1).cons keyword.1
  | «for» keyword opening initializer condition semicolon increment closing body ih =>
    -- the body stands behind the increment in the word, and in front of it in the tree
    have hb : Among (body.tree.values ++ optionalValues (increment.map Phrase.tree))
        (optionalWord increment ++ closing.1 :: body.word) :=
      (ih.append (optionalValues_among increment)).mono fun t ht => by
        simp only [List.mem_append, List.mem_cons] at ht ⊢
        exact ht.elim (fun h => .inr (.inr h)) .inl
    have hc := (condition_among condition).append (hb.cons semicolon.1)
    rw [tree, Part.values, Stmt.values_forLoop]
    exact ((initializer.values_among.append hc).cons opening.1).cons keyword.1

end Grammar

end LoxSyntax
