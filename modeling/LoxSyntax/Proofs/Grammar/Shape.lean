/-
  LoxSyntax.Proofs.Grammar.Shape — the trees that a program can have.

  An expression fits a place when it binds at least as tightly as the place asks, the
  operands inside fit theirs, and the tokens that it keeps are of the kinds that belong
  there. A group, a name, a literal fit everywhere; an assignment fits only where a whole
  expression stands. A statement is shaped when its expressions fit, no declaration stands
  in a branch or as the body of a loop, and no branch in front of an `else` ends with an
  `if` that could take it. How long the lists of arguments and parameters may be is left
  open.

  - `Fits.loosen`: what fits a place fits every place that asks for less.
  - `Phrase.fits`: a derivation of an expression has a tree that fits, since what is not a
    target of an assignment is kept without the value. Only how long the lists are depends
    on whether the derivation is documented.
  - `Clause.shaped`: a documented derivation in which each `else` belongs to the nearest
    `if` has a shaped tree, also where the derivation has a `for` loop and the tree none.
-/

import LoxSyntax.Proofs.Reading.Expressions
import LoxSyntax.Proofs.Grammar.Clause

namespace LoxSyntax

/-- The statement ends with an `if` without an `else`. -/
def Stmt.endsOpen : Stmt → Bool
  | .ifThen _ _ => true
  | .ifElse _ _ elseBranch => elseBranch.endsOpen
  | .while _ body => body.endsOpen
  | _ => false

/-- What the tree of a loop ends with, its body ends with. -/
theorem Stmt.endsOpen_of_forLoop {initializer : Option Stmt} {condition increment : Option Expr} {body : Stmt}
    (h : (forLoop initializer condition increment body).endsOpen = true) : body.endsOpen = true := by
  cases initializer with
  | some s => cases h
  | none =>
    cases increment with
    | some e => cases h
    | none => exact h

namespace Grammar

/-- The expression may stand where one of the category is asked for; `Short` are the
    lengths that a list of arguments may have. -/
inductive Fits (Short : Nat → Prop) : Category → Expr → Prop
  | literal {c : Category} (value : Literal) : Fits Short c (.literal value)
  | this {c : Category} (keyword : Terminal .kwThis) : Fits Short c (.this keyword.1)
  | super {c : Category} (keyword : Terminal .kwSuper) (method : Terminal .identifier) :
      Fits Short c (.super keyword.1 method.1)
  | ident {c : Category} (name : Terminal .identifier) : Fits Short c (.ident name.1)
  | grouping {c : Category} {inner : Expr} : Fits Short .expression inner → Fits Short c (.grouping inner)
  | get {c : Category} {object : Expr} (name : Terminal .identifier) : c.rank ≤ Category.call.rank →
      Fits Short .call object → Fits Short c (.get object name.1)
  | call {c : Category} {callee : Expr} (paren : Terminal .rightParen) {arguments : List Expr} :
      c.rank ≤ Category.call.rank → Fits Short .call callee → (∀ e ∈ arguments, Fits Short .expression e) →
      Short arguments.length → Fits Short c (.call callee paren.1 arguments)
  | unary {c : Category} (operator : { t : Token // Parse.isUnaryOperator t.kind = true }) {operand : Expr} :
      c.rank ≤ Category.unary.rank → Fits Short .unary operand → Fits Short c (.unary operator.1 operand)
  | operator {c : Category} (l : Level) (operator : { t : Token // l.isOperator t.kind = true }) {left right : Expr} :
      c.rank ≤ (Category.level l).rank → Fits Short (.level l) left → Fits Short l.operand right →
      Fits Short c (l.join left operator.1 right)
  | assign {c : Category} (name : Terminal .identifier) {value : Expr} : c.rank ≤ Category.expression.rank →
      Fits Short .expression value → Fits Short c (.assign name.1 value)
  | set {c : Category} (name : Terminal .identifier) {object value : Expr} : c.rank ≤ Category.expression.rank →
      Fits Short .call object → Fits Short .expression value → Fits Short c (.set object name.1 value)

/-- The tree may be that of the part; `Short` are the lengths that a list of arguments or
    parameters may have. -/
inductive Shaped (Short : Nat → Prop) : (p : Part) → p.Tree → Prop
  | nil : Shaped Short .program []
  | cons {s : Stmt} {ss : List Stmt} : Shaped Short .declaration s → Shaped Short .program ss →
      Shaped Short .program (s :: ss)
  | class (name : Terminal .identifier) (superclass : Option (Terminal .identifier)) {methods : List Function} :
      Shaped Short .methods methods →
      Shaped Short .declaration (.class name.1 (superclass.map Subtype.val) methods)
  | fun {f : Function} : Shaped Short .function f → Shaped Short .declaration (.function f)
  | var (name : Terminal .identifier) {value : Option Expr} : (∀ e ∈ value, Fits Short .expression e) →
      Shaped Short .declaration (.var name.1 value)
  | statement {s : Stmt} : Shaped Short .statement s → Shaped Short .declaration s
  | function (name : Terminal .identifier) (params : List (Terminal .identifier)) {body : List Stmt} :
      Short params.length → Shaped Short .program body →
      Shaped Short .function (.mk name.1 (params.map Subtype.val) body)
  | noMethods : Shaped Short .methods []
  | moreMethods {f : Function} {fs : List Function} : Shaped Short .function f → Shaped Short .methods fs →
      Shaped Short .methods (f :: fs)
  | expression {value : Expr} : Fits Short .expression value → Shaped Short .statement (.expression value)
  | print {value : Expr} : Fits Short .expression value → Shaped Short .statement (.print value)
  | return (keyword : Terminal .kwReturn) {value : Option Expr} : (∀ e ∈ value, Fits Short .expression e) →
      Shaped Short .statement (.return keyword.1 value)
  | block {body : List Stmt} : Shaped Short .program body → Shaped Short .statement (.block body)
  | while {condition : Expr} {body : Stmt} : Fits Short .expression condition → Shaped Short .statement body →
      Shaped Short .statement (.while condition body)
  | ifThen {condition : Expr} {thenBranch : Stmt} : Fits Short .expression condition →
      Shaped Short .statement thenBranch → Shaped Short .statement (.ifThen condition thenBranch)
  | ifElse {condition : Expr} {thenBranch elseBranch : Stmt} : Fits Short .expression condition →
      Shaped Short .statement thenBranch → thenBranch.endsOpen = false → Shaped Short .statement elseBranch →
      Shaped Short .statement (.ifElse condition thenBranch elseBranch)

def Part.endsOpen : (p : Part) → p.Tree → Bool
  | .declaration => Stmt.endsOpen
  | .statement => Stmt.endsOpen
  | _ => fun _ => false

variable {Short : Nat → Prop}

/-! ## Places -/

namespace Fits

/-- What fits a place fits every place that asks for less. -/
theorem loosen {c c' : Category} {e : Expr} (h : Fits Short c' e) (hc : c.rank ≤ c'.rank) : Fits Short c e := by
  cases h with
  | literal value => exact .literal value
  | this keyword => exact .this keyword
  | super keyword method => exact .super keyword method
  | ident name => exact .ident name
  | grouping hi => exact .grouping hi
  | get name hr ho => exact .get name (Nat.le_trans hc hr) ho
  | call paren hr hf ha hs => exact .call paren (Nat.le_trans hc hr) hf ha hs
  | unary operator hr he => exact .unary operator (Nat.le_trans hc hr) he
  | operator l operator hr ha hb => exact .operator l operator (Nat.le_trans hc hr) ha hb
  | assign name hr hv => exact .assign name (Nat.le_trans hc hr) hv
  | set name hr ho hv => exact .set name (Nat.le_trans hc hr) ho hv

/-- The assignment to what fits as a target. -/
theorem assignTo? {c : Category} {target value e : Expr} (ht : Fits Short c target) (hv : Fits Short .expression value)
    (he : target.assignTo? value = some e) : Fits Short .expression e := by
  cases ht with
  | ident name =>
    cases he
    exact .assign name (Nat.le_refl _) hv
  | get name hr ho =>
    cases he
    exact .set name (Nat.le_refl _) ho hv
  | operator l => cases l <;> cases he
  | _ => cases he

end Fits

/-! ## Trees of derivations -/

theorem Arguments.length_trees (as : Arguments) : as.trees.length = as.length := by
  cases as with
  | last e => rfl
  | more e comma others => rw [trees, List.length_cons, others.length_trees, length]

/-- The lists of a derivation may be as long as they are: not beyond the limit, if it is
    documented. -/
def Allows (Short : Nat → Prop) (documented : Prop) : Prop := ∀ n, (documented → n ≤ maxItems) → Short n

theorem Allows.imp {whole part : Prop} (h : Allows Short whole) (hp : whole → part) : Allows Short part :=
  fun n hn => h n fun hw => hn (hp hw)

mutual

theorem Phrase.fits {c : Category} : ∀ d : Phrase c, Allows Short d.Documented → Fits Short c d.tree
  | .plain e, h => (e.fits h).loosen (by decide)
  | .assign target _ value, h => by
    have ht := target.fits (h.imp fun h => h.2.1)
    rw [Phrase.tree]
    cases he : target.tree.assignTo? value.tree with
    | some e => exact ht.assignTo? (value.fits (h.imp fun h => h.2.2)) he
    | none => exact ht.loosen (by decide)
  | .one l e, h => (e.fits h).loosen (by rw [Category.rank_operand]; exact Nat.le_succ _)
  | .more l left operator right, h =>
    .operator l operator (Nat.le_refl _) (left.fits (h.imp And.left)) (right.fits (h.imp And.right))
  | .signed operator e, h => .unary operator (Nat.le_refl _) (e.fits h)
  | .unsigned e, h => (e.fits h).loosen (by decide)
  | .atom e, h => (e.fits h).loosen (by decide)
  | .callEmpty callee _ closing, h =>
    .call closing (Nat.le_refl _) (callee.fits h) (by simp) (h 0 fun _ => Nat.zero_le _)
  | .call callee _ as closing, h =>
    .call closing (Nat.le_refl _) (callee.fits (h.imp And.left)) (as.fits (h.imp fun h => h.2.1))
      (by rw [as.length_trees]; exact h _ fun h => h.2.2)
  | .property object _ name, h => .get name (Nat.le_refl _) (object.fits h)
  | .literal _ value _, _ => .literal value
  | .this keyword, _ => .this keyword
  | .super keyword _ method, _ => .super keyword method
  | .name t, _ => .ident t
  | .group _ e _, h => .grouping (e.fits h)

theorem Arguments.fits : ∀ as : Arguments, Allows Short as.Documented → ∀ e ∈ as.trees, Fits Short .expression e
  | .last e, h => by simpa [Arguments.trees] using e.fits h
  | .more e _ others, h => by
    simp only [Arguments.trees, List.forall_mem_cons]
    exact ⟨e.fits (h.imp And.left), others.fits (h.imp And.right)⟩

end

theorem optional_fits {e : Option (Phrase .expression)} (h : Allows Short (OptionalDocumented e)) :
    ∀ x ∈ e.map Phrase.tree, Fits Short .expression x := by
  cases e with
  | none => simp
  | some d => simpa using d.fits (h.imp fun h => h d rfl)

theorem Parameters.exists_terminals : ∀ ps : Parameters,
    ∃ params : List (Terminal .identifier), params.map Subtype.val = ps.names
  | .last name => ⟨[name], rfl⟩
  | .more name _ others => by
    obtain ⟨params, h⟩ := others.exists_terminals
    exact ⟨name :: params, by rw [List.map_cons, h, names]⟩

theorem exists_params {parameters : Option Parameters}
    (h : Allows Short (∀ ps ∈ parameters, ps.names.length ≤ maxItems)) :
    ∃ params : List (Terminal .identifier),
      params.map Subtype.val = parameters.elim [] Parameters.names ∧ Short params.length := by
  cases parameters with
  | none => exact ⟨[], rfl, h 0 fun _ => Nat.zero_le _⟩
  | some ps =>
    obtain ⟨params, hp⟩ := ps.exists_terminals
    refine ⟨params, hp, h _ ?_⟩
    intro hd
    rw [← List.length_map Subtype.val, hp]
    exact hd ps rfl

theorem VarDeclaration.shaped {d : VarDeclaration} (h : Allows Short d.Documented) :
    Shaped Short .declaration d.tree := by
  refine .var d.name ?_
  have hf := optional_fits h
  rwa [Option.map_map] at hf

/-- A body with the increment of a loop behind it. -/
theorem Shaped.followedBy {body : Stmt} {increment : Option Expr} (hb : Shaped Short .statement body)
    (hi : ∀ e ∈ increment, Fits Short .expression e) : Shaped Short .statement (body.followedBy increment) := by
  cases increment with
  | none => exact hb
  | some e => exact .block (.cons (.statement hb) (.cons (.statement (.expression (hi e rfl))) .nil))

/-- A loop with an initializer in front of it. -/
theorem Shaped.precededBy {loop : Stmt} {initializer : Option Stmt} (hl : Shaped Short .statement loop)
    (hi : ∀ s ∈ initializer, Shaped Short .declaration s) : Shaped Short .statement (loop.precededBy initializer) := by
  cases initializer with
  | none => exact hl
  | some s => exact .block (.cons (hi s rfl) (.cons (.statement hl) .nil))

theorem Shaped.forLoop {initializer : Option Stmt} {condition increment : Option Expr} {body : Stmt}
    (hs : ∀ s ∈ initializer, Shaped Short .declaration s) (hc : ∀ e ∈ condition, Fits Short .expression e)
    (hi : ∀ e ∈ increment, Fits Short .expression e) (hb : Shaped Short .statement body) :
    Shaped Short .statement (.forLoop initializer condition increment body) := by
  refine Shaped.precededBy (.while ?_ (hb.followedBy hi)) hs
  cases condition with
  | none => exact .literal (.boolean true)
  | some e => exact hc e rfl

theorem Initializer.shaped {i : Initializer} (h : Allows Short i.Documented) :
    ∀ s ∈ i.tree, Shaped Short .declaration s := by
  cases i with
  | none semicolon => simp [tree]
  | var d => simpa [tree] using d.shaped h
  | expression e semicolon => simpa [tree] using Shaped.statement (.expression (e.fits h))

/-- The converse fails for a loop with an increment, whose body the tree puts into a block. -/
theorem Clause.isOpen_of_endsOpen {p : Part} (d : Clause p) (h : p.endsOpen d.tree = true) : d.isOpen = true := by
  induction d with
  | statement s ih => exact ih h
  | «while» _ _ _ _ _ ih => exact ih h
  | ifThen => rfl
  | ifElse _ _ _ _ _ _ _ _ ih => exact ih h
  | «for» _ _ _ _ _ _ _ _ ih => exact ih (Stmt.endsOpen_of_forLoop h)
  | _ => cases h

theorem Clause.shapedWithin {p : Part} (d : Clause p) (h : Allows Short d.Documented) (hn : d.NearestElse) :
    Shaped Short p d.tree := by
  induction d with
  | nil => exact .nil
  | cons _ _ ih1 ih2 => exact .cons (ih1 (h.imp And.left) hn.1) (ih2 (h.imp And.right) hn.2)
  | «class» _ name superclass _ _ _ ih =>
    have hs := Shaped.class name (superclass.map Prod.snd) (ih h hn)
    rwa [Option.map_map] at hs
  | «fun» _ _ ih => exact .fun (ih h hn)
  | var d => exact VarDeclaration.shaped h
  | statement _ ih => exact .statement (ih h hn)
  | function name _ parameters _ _ _ _ ih =>
    obtain ⟨params, hp, hl⟩ := exists_params (h.imp And.left)
    have hs := Shaped.function name params hl (ih (h.imp And.right) hn)
    rwa [hp] at hs
  | noMethods => exact .noMethods
  | moreMethods _ _ ih1 ih2 => exact .moreMethods (ih1 (h.imp And.left) hn.1) (ih2 (h.imp And.right) hn.2)
  | expression e _ => exact .expression (e.fits h)
  | print _ e _ => exact .print (e.fits h)
  | «return» keyword e _ => exact .return keyword (optional_fits h)
  | block _ _ _ ih => exact .block (ih h hn)
  | «while» _ _ condition _ _ ih => exact .while (condition.fits (h.imp And.left)) (ih (h.imp And.right) hn)
  | ifThen _ _ condition _ _ ih => exact .ifThen (condition.fits (h.imp And.left)) (ih (h.imp And.right) hn)
  | ifElse _ _ condition _ thenBranch _ _ ih1 ih2 =>
    -- an open tree comes from an open derivation only, and no `else` stands behind one
    have ho : thenBranch.tree.endsOpen = false := by
      rw [← Bool.not_eq_true]
      intro ho
      have := thenBranch.isOpen_of_endsOpen ho
      rw [hn.1] at this
      cases this
    exact .ifElse (condition.fits (h.imp And.left)) (ih1 (h.imp fun h => h.2.1) hn.2.1) ho
      (ih2 (h.imp fun h => h.2.2) hn.2.2)
  | «for» _ _ initializer condition _ increment _ _ ih =>
    exact .forLoop (initializer.shaped (h.imp And.left)) (optional_fits (h.imp fun h => h.2.1))
      (optional_fits (h.imp fun h => h.2.2.1)) (ih (h.imp fun h => h.2.2.2) hn)

theorem Clause.shaped {p : Part} (d : Clause p) (h : d.Documented) (hn : d.NearestElse) :
    Shaped (· ≤ maxItems) p d.tree :=
  d.shapedWithin (fun _ hl => hl h) hn

end Grammar

end LoxSyntax
