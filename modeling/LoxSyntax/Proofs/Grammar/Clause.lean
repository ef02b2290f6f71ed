/-
  LoxSyntax.Proofs.Grammar.Clause — the grammar of programs, and its derivations.

      program     → declaration*
      declaration → classDecl | "fun" function | varDecl | statement
      classDecl   → "class" IDENTIFIER ( "<" IDENTIFIER )? "{" function* "}"
      function    → IDENTIFIER "(" parameters? ")" "{" declaration* "}"
      parameters  → IDENTIFIER ( "," IDENTIFIER )*
      varDecl     → "var" IDENTIFIER ( "=" expression )? ";"
      statement   → expression ";" | "print" expression ";" | "return" expression? ";"
                  | "{" declaration* "}" | "while" "(" expression ")" statement
                  | "if" "(" expression ")" statement ( "else" statement )?
                  | "for" "(" ( varDecl | expression ";" | ";" ) expression? ";" expression? ")" statement

  The tree of a derivation has no `for`: such a loop is the `while` loop that it stands
  for. An `else` may belong to more than one `if`; a statement is open when it ends with
  an `if` that has none, and each `else` belongs to the nearest `if` when no statement in
  front of one is open.

  - `Clause.documented_iff`: documented are the derivations without a mark.
  - `Clause.kind_ne_eof`: an end of file is in no derivation.
-/

import LoxSyntax.Parse.Statement
import LoxSyntax.Proofs.Grammar.Phrase

namespace LoxSyntax.Grammar

inductive Part where
  | program
  | declaration
  | statement
  | function
  | methods
  deriving DecidableEq, Repr

@[reducible] def Part.Tree : Part → Type
  | .program => List Stmt
  | .declaration => Stmt
  | .statement => Stmt
  | .function => Function
  | .methods => List Function

inductive Parameters where
  | last (name : Terminal .identifier)
  | more (name : Terminal .identifier) (comma : Terminal .comma) (others : Parameters)

structure VarDeclaration where
  keyword : Terminal .kwVar
  name : Terminal .identifier
  initializer : Option (Terminal .equal × Phrase .expression)
  semicolon : Terminal .semicolon

/-- The first clause of a `for` loop. -/
inductive Initializer where
  | none (semicolon : Terminal .semicolon)
  | var (declaration : VarDeclaration)
  | expression (e : Phrase .expression) (semicolon : Terminal .semicolon)

inductive Clause : Part → Type where
  | nil : Clause .program
  | cons (first : Clause .declaration) (others : Clause .program) : Clause .program
  | class (keyword : Terminal .kwClass) (name : Terminal .identifier)
      (superclass : Option (Terminal .less × Terminal .identifier)) (opening : Terminal .leftBrace)
      (methods : Clause .methods) (closing : Terminal .rightBrace) : Clause .declaration
  | fun (keyword : Terminal .kwFun) (f : Clause .function) : Clause .declaration
  | var (declaration : VarDeclaration) : Clause .declaration
  | statement (s : Clause .statement) : Clause .declaration
  | function (name : Terminal .identifier) (opening : Terminal .leftParen) (parameters : Option Parameters)
      (closing : Terminal .rightParen) (bodyOpening : Terminal .leftBrace) (body : Clause .program)
      (bodyClosing : Terminal .rightBrace) : Clause .function
  | noMethods : Clause .methods
  | moreMethods (f : Clause .function) (others : Clause .methods) : Clause .methods
  | expression (e : Phrase .expression) (semicolon : Terminal .semicolon) : Clause .statement
  | print (keyword : Terminal .kwPrint) (e : Phrase .expression) (semicolon : Terminal .semicolon) : Clause .statement
  | return (keyword : Terminal .kwReturn) (e : Option (Phrase .expression)) (semicolon : Terminal .semicolon) :
      Clause .statement
  | block (opening : Terminal .leftBrace) (body : Clause .program) (closing : Terminal .rightBrace) : Clause .statement
  | while (keyword : Terminal .kwWhile) (opening : Terminal .leftParen) (condition : Phrase .expression)
      (closing : Terminal .rightParen) (body : Clause .statement) : Clause .statement
  | ifThen (keyword : Terminal .kwIf) (opening : Terminal .leftParen) (condition : Phrase .expression)
      (closing : Terminal .rightParen) (thenBranch : Clause .statement) : Clause .statement
  | ifElse (keyword : Terminal .kwIf) (opening : Terminal .leftParen) (condition : Phrase .expression)
      (closing : Terminal .rightParen) (thenBranch : Clause .statement) (otherwise : Terminal .kwElse)
      (elseBranch : Clause .statement) : Clause .statement
  | for (keyword : Terminal .kwFor) (opening : Terminal .leftParen) (initializer : Initializer)
      (condition : Option (Phrase .expression)) (semicolon : Terminal .semicolon)
      (increment : Option (Phrase .expression)) (closing : Terminal .rightParen) (body : Clause .statement) :
      Clause .statement

/-! ## Words -/

def optionalWord (e : Option (Phrase .expression)) : List Token := e.elim [] Phrase.word

def Parameters.names : Parameters → List Token
  | .last name => [name.1]
  | .more name _ others => name.1 :: others.names

def Parameters.word : Parameters → List Token
  | .last name => [name.1]
  | .more name comma others => name.1 :: comma.1 :: others.word

def VarDeclaration.word (d : VarDeclaration) : List Token :=
  d.keyword.1 :: d.name.1 :: (d.initializer.elim [] (fun i => i.1.1 :: i.2.word) ++ [d.semicolon.1])

def Initializer.word : Initializer → List Token
  | .none semicolon => [semicolon.1]
  | .var d => d.word
  | .expression e semicolon => e.word ++ [semicolon.1]

def superclassWord (s : Option (Terminal .less × Terminal .identifier)) : List Token :=
  s.elim [] fun s => [s.1.1, s.2.1]

def Clause.word {p : Part} : Clause p → List Token
  | .nil => []
  | .cons first others => first.word ++ others.word
  | .class keyword name superclass opening methods closing =>
    keyword.1 :: name.1 :: (superclassWord superclass ++ opening.1 :: (methods.word ++ [closing.1]))
  | .fun keyword f => keyword.1 :: f.word
  | .var d => d.word
  | .statement s => s.word
  | .function name opening parameters closing bodyOpening body bodyClosing =>
    name.1 :: opening.1 :: (parameters.elim [] Parameters.word ++
      closing.1 :: bodyOpening.1 :: (body.word ++ [bodyClosing.1]))
  | .noMethods => []
  | .moreMethods f others => f.word ++ others.word
  | .expression e semicolon => e.word ++ [semicolon.1]
  | .print keyword e semicolon => keyword.1 :: (e.word ++ [semicolon.1])
  | .return keyword e semicolon => keyword.1 :: (optionalWord e ++ [semicolon.1])
  | .block opening body closing => opening.1 :: (body.word ++ [closing.1])
  | .while keyword opening condition closing body =>
    keyword.1 :: opening.1 :: (condition.word ++ closing.1 :: body.word)
  | .ifThen keyword opening condition closing thenBranch =>
    keyword.1 :: opening.1 :: (condition.word ++ closing.1 :: thenBranch.word)
  | .ifElse keyword opening condition closing thenBranch otherwise elseBranch =>
    keyword.1 :: opening.1 :: (condition.word ++ closing.1 :: (thenBranch.word ++ otherwise.1 :: elseBranch.word))
  | .for keyword opening initializer condition semicolon increment closing body =>
    keyword.1 :: opening.1 :: (initializer.word ++ (optionalWord condition ++
      semicolon.1 :: (optionalWord increment ++ closing.1 :: body.word)))

/-! ## Trees -/

def VarDeclaration.tree (d : VarDeclaration) : Stmt := .var d.name.1 (d.initializer.map (·.2.tree))

def Initializer.tree : Initializer → Option Stmt
  | .none _ => Option.none
  | .var d => some d.tree
  | .expression e _ => some (.expression e.tree)

def Clause.tree {p : Part} : Clause p → p.Tree
  | .nil => []
  | .cons first others => first.tree :: others.tree
  | .class _ name superclass _ methods _ => .class name.1 (superclass.map (·.2.1)) methods.tree
  | .fun _ f => .function f.tree
  | .var d => d.tree
  | .statement s => s.tree
  | .function name _ parameters _ _ body _ => .mk name.1 (parameters.elim [] Parameters.names) body.tree
  | .noMethods => []
  | .moreMethods f others => f.tree :: others.tree
  | .expression e _ => .expression e.tree
  | .print _ e _ => .print e.tree
  | .return keyword e _ => .return keyword.1 (e.map Phrase.tree)
  | .block _ body _ => .block body.tree
  | .while _ _ condition _ body => .while condition.tree body.tree
  | .ifThen _ _ condition _ thenBranch => .ifThen condition.tree thenBranch.tree
  | .ifElse _ _ condition _ thenBranch _ elseBranch => .ifElse condition.tree thenBranch.tree elseBranch.tree
  | .for _ _ initializer condition _ increment _ body =>
    Stmt.forLoop initializer.tree (condition.map Phrase.tree) (increment.map Phrase.tree) body.tree

/-! ## Open statements -/

/-- The derivation ends with an `if` without an `else`. -/
def Clause.isOpen {p : Part} : Clause p → Bool
  | .statement s => s.isOpen
  | .while _ _ _ _ body => body.isOpen
  | .ifThen _ _ _ _ _ => true
  | .ifElse _ _ _ _ _ _ elseBranch => elseBranch.isOpen
  | .for _ _ _ _ _ _ _ body => body.isOpen
  | _ => false

/-- Each `else` belongs to the nearest `if` that can take it. -/
def Clause.NearestElse {p : Part} : Clause p → Prop
  | .cons first others => first.NearestElse ∧ others.NearestElse
  | .class _ _ _ _ methods _ => methods.NearestElse
  | .fun _ f => f.NearestElse
  | .statement s => s.NearestElse
  | .function _ _ _ _ _ body _ => body.NearestElse
  | .moreMethods f others => f.NearestElse ∧ others.NearestElse
  | .block _ body _ => body.NearestElse
  | .while _ _ _ _ body => body.NearestElse
  | .ifThen _ _ _ _ thenBranch => thenBranch.NearestElse
  | .ifElse _ _ _ _ thenBranch _ elseBranch =>
    thenBranch.isOpen = false ∧ thenBranch.NearestElse ∧ elseBranch.NearestElse
  | .for _ _ _ _ _ _ _ body => body.NearestElse
  | _ => True

/-! ## What is documented -/

def OptionalDocumented (e : Option (Phrase .expression)) : Prop := ∀ d ∈ e, d.Documented

def VarDeclaration.Documented (d : VarDeclaration) : Prop := OptionalDocumented (d.initializer.map (·.2))

def Initializer.Documented : Initializer → Prop
  | .none _ => True
  | .var d => d.Documented
  | .expression e _ => e.Documented

def Clause.Documented {p : Part} : Clause p → Prop
  | .nil => True
  | .cons first others => first.Documented ∧ others.Documented
  | .class _ _ _ _ methods _ => methods.Documented
  | .fun _ f => f.Documented
  | .var d => d.Documented
  | .statement s => s.Documented
  | .function _ _ parameters _ _ body _ => (∀ ps ∈ parameters, ps.names.length ≤ maxItems) ∧ body.Documented
  | .noMethods => True
  | .moreMethods f others => f.Documented ∧ others.Documented
  | .expression e _ => e.Documented
  | .print _ e _ => e.Documented
  | .return _ e _ => OptionalDocumented e
  | .block _ body _ => body.Documented
  | .while _ _ condition _ body => condition.Documented ∧ body.Documented
  | .ifThen _ _ condition _ thenBranch => condition.Documented ∧ thenBranch.Documented
  | .ifElse _ _ condition _ thenBranch _ elseBranch =>
    condition.Documented ∧ thenBranch.Documented ∧ elseBranch.Documented
  | .for _ _ initializer condition _ increment _ body =>
    initializer.Documented ∧ OptionalDocumented condition ∧ OptionalDocumented increment ∧ body.Documented

def optionalMarks (e : Option (Phrase .expression)) : List Mark := e.elim [] Phrase.marks

/-- `count` parameters stand in front. -/
def Parameters.marks (count : Nat) : Parameters → List Mark
  | .last name => excess .tooManyParameters count [name.1]
  | .more name _ others => excess .tooManyParameters count [name.1] ++ others.marks (count + 1)

def VarDeclaration.marks (d : VarDeclaration) : List Mark := optionalMarks (d.initializer.map (·.2))

def Initializer.marks : Initializer → List Mark
  | .none _ => []
  | .var d => d.marks
  | .expression e _ => e.marks

def Clause.marks {p : Part} : Clause p → List Mark
  | .nil => []
  | .cons first others => first.marks ++ others.marks
  | .class _ _ _ _ methods _ => methods.marks
  | .fun _ f => f.marks
  | .var d => d.marks
  | .statement s => s.marks
  | .function _ _ parameters _ _ body _ => parameters.elim [] (·.marks 0) ++ body.marks
  | .noMethods => []
  | .moreMethods f others => f.marks ++ others.marks
  | .expression e _ => e.marks
  | .print _ e _ => e.marks
  | .return _ e _ => optionalMarks e
  | .block _ body _ => body.marks
  | .while _ _ condition _ body => condition.marks ++ body.marks
  | .ifThen _ _ condition _ thenBranch => condition.marks ++ thenBranch.marks
  | .ifElse _ _ condition _ thenBranch _ elseBranch => condition.marks ++ (thenBranch.marks ++ elseBranch.marks)
  | .for _ _ initializer condition _ increment _ body =>
    initializer.marks ++ (optionalMarks condition ++ (optionalMarks increment ++ body.marks))

/-! ## First tokens -/

/-- The kinds of token that begin a statement. -/
def startsStatement : TokenKind → Bool
  | .kwFor | .kwIf | .kwPrint | .kwReturn | .kwWhile | .leftBrace => true
  | k => startsExpression k

/-- The kinds of token that begin a declaration. -/
def startsDeclaration : TokenKind → Bool
  | .kwClass | .kwFun | .kwVar => true
  | k => startsStatement k

theorem startsStatement_of_startsExpression {k : TokenKind} (h : startsExpression k = true) :
    startsStatement k = true := by
  cases k <;> first | rfl | exact h

theorem startsDeclaration_of_startsStatement {k : TokenKind} (h : startsStatement k = true) :
    startsDeclaration k = true := by
  cases k <;> first | rfl | exact h

theorem Clause.statement_word_eq_cons (s : Clause .statement) :
    ∃ t w, s.word = t :: w ∧ startsStatement t.kind = true := by
  cases s with
  | expression e semicolon =>
    obtain ⟨t, w, h, hs⟩ := e.word_eq_cons
    exact ⟨t, _, by rw [word, h]; rfl, startsStatement_of_startsExpression hs⟩
  | print keyword | «return» keyword | «while» keyword | ifThen keyword | ifElse keyword | «for» keyword =>
    exact ⟨keyword.1, _, rfl, by rw [keyword.2]; rfl⟩
  | block opening => exact ⟨opening.1, _, rfl, by rw [opening.2]; rfl⟩

theorem Clause.function_word_eq_cons (f : Clause .function) : ∃ t w, f.word = t :: w ∧ t.kind = .identifier := by
  cases f with
  | function name => exact ⟨name.1, _, rfl, name.2⟩

theorem Clause.declaration_word_eq_cons (d : Clause .declaration) :
    ∃ t w, d.word = t :: w ∧ startsDeclaration t.kind = true := by
  cases d with
  | «class» keyword | «fun» keyword => exact ⟨keyword.1, _, rfl, by rw [keyword.2]; rfl⟩
  | var d => exact ⟨d.keyword.1, _, rfl, by rw [d.keyword.2]; rfl⟩
  | statement s =>
    obtain ⟨t, w, h, hs⟩ := s.statement_word_eq_cons
    exact ⟨t, w, h, startsDeclaration_of_startsStatement hs⟩

/-! ## Documented derivations have no mark -/

theorem optionalDocumented_iff (e : Option (Phrase .expression)) : OptionalDocumented e ↔ optionalMarks e = [] := by
  cases e <;> simp [OptionalDocumented, optionalMarks, Phrase.documented_iff]

theorem Parameters.marks_eq_nil_iff (ps : Parameters) :
    ∀ count, ps.marks count = [] ↔ count + ps.names.length ≤ maxItems := by
  induction ps with
  | last name =>
    intro count
    simp only [marks, names, excess_eq_nil_iff (List.cons_ne_nil _ _), List.length_singleton]
    exact Iff.rfl
  | more name comma others ih =>
    intro count
    simp only [marks, names, List.append_eq_nil_iff, excess_eq_nil_iff (List.cons_ne_nil _ _), ih, List.length_cons]
    omega

theorem Initializer.documented_iff (i : Initializer) : i.Documented ↔ i.marks = [] := by
  cases i with
  | none semicolon => simp [Documented, marks]
  | var d => exact optionalDocumented_iff _
  | expression e semicolon => exact e.documented_iff

theorem Clause.documented_iff {p : Part} (d : Clause p) : d.Documented ↔ d.marks = [] := by
  induction d with
  | nil | noMethods => simp [Documented, marks]
  | var d => exact optionalDocumented_iff _
  | «class» _ _ _ _ _ _ ih | «fun» _ _ ih | statement _ ih | block _ _ _ ih => exact ih
  | cons _ _ ih1 ih2 | moreMethods _ _ ih1 ih2 => simp [Documented, marks, ih1, ih2]
  | function _ _ parameters _ _ _ _ ih =>
    cases parameters <;> simp [Documented, marks, ih, Parameters.marks_eq_nil_iff]
  | expression e _ | print _ e _ => exact e.documented_iff
  | «return» _ e _ => exact optionalDocumented_iff e
  | «while» _ _ condition _ _ ih | ifThen _ _ condition _ _ ih =>
    simp [Documented, marks, condition.documented_iff, ih]
  | ifElse _ _ condition _ _ _ _ ih1 ih2 => simp [Documented, marks, condition.documented_iff, ih1, ih2]
  | «for» _ _ initializer condition _ increment _ _ ih =>
    simp [Documented, marks, initializer.documented_iff, optionalDocumented_iff, ih]

/-! ## No end of file -/

theorem Terminal.kind_eq {k : TokenKind} (t : Terminal k) : t.1.kind = k := t.2

theorem Phrase.kind_ne_eof {c : Category} (d : Phrase c) : ∀ t ∈ d.word, t.kind ≠ .eof := by
  intro t ht he
  have h := d.inExpression_of_mem t ht
  rw [he] at h
  cases h

theorem optionalWord_ne_eof (e : Option (Phrase .expression)) : ∀ t ∈ optionalWord e, t.kind ≠ .eof := by
  cases e with
  | none => simp [optionalWord]
  | some d => exact d.kind_ne_eof

theorem Parameters.kind_ne_eof (ps : Parameters) : ∀ t ∈ ps.word, t.kind ≠ .eof := by
  induction ps with
  | last name => simp [word, Terminal.kind_eq]
  | more name comma others ih => simpa [word, Terminal.kind_eq] using ih

theorem VarDeclaration.kind_ne_eof (d : VarDeclaration) : ∀ t ∈ d.word, t.kind ≠ .eof := by
  obtain ⟨keyword, name, initializer, semicolon⟩ := d
  cases initializer with
  | none => simp [word, Terminal.kind_eq]
  | some i => simpa [word, Terminal.kind_eq, or_imp, forall_and] using i.2.kind_ne_eof

theorem Initializer.kind_ne_eof (i : Initializer) : ∀ t ∈ i.word, t.kind ≠ .eof := by
  cases i with
  | none semicolon => simp [word, Terminal.kind_eq]
  | var d => exact d.kind_ne_eof
  | expression e semicolon => simpa [word, Terminal.kind_eq, or_imp, forall_and] using e.kind_ne_eof

theorem Clause.kind_ne_eof {p : Part} (d : Clause p) : ∀ t ∈ d.word, t.kind ≠ .eof := by
  induction d with
  | nil | noMethods => simp [word]
  | cons _ _ ih1 ih2 | moreMethods _ _ ih1 ih2 => exact List.forall_mem_append.2 ⟨ih1, ih2⟩
  | «class» _ _ superclass _ _ _ ih =>
    have hs : ∀ t ∈ superclassWord superclass, t.kind ≠ .eof := by
      cases superclass <;> simp [superclassWord, Terminal.kind_eq]
    simpa [word, Terminal.kind_eq, or_imp, forall_and] using ⟨hs, ih⟩
  | «fun» _ _ ih => simpa [word, Terminal.kind_eq] using ih
  | var d => exact d.kind_ne_eof
  | statement _ ih => exact ih
  | function _ _ parameters _ _ _ _ ih =>
    have hp : ∀ t ∈ parameters.elim [] Parameters.word, t.kind ≠ .eof := by
      cases parameters with
      | none => simp
      | some ps => exact ps.kind_ne_eof
    simpa [word, Terminal.kind_eq, or_imp, forall_and] using ⟨hp, ih⟩
  | expression e _ | print _ e _ => simpa [word, Terminal.kind_eq, or_imp, forall_and] using e.kind_ne_eof
  | «return» _ e _ => simpa [word, Terminal.kind_eq, or_imp, forall_and] using optionalWord_ne_eof e
  | block _ _ _ ih => simpa [word, Terminal.kind_eq, or_imp, forall_and] using ih
  | «while» _ _ condition _ _ ih | ifThen _ _ condition _ _ ih =>
    simpa [word, Terminal.kind_eq, or_imp, forall_and] using ⟨condition.kind_ne_eof, ih⟩
  | ifElse _ _ condition _ _ _ _ ih1 ih2 =>
    simpa [word, Terminal.kind_eq, or_imp, forall_and] using ⟨condition.kind_ne_eof, ih1, ih2⟩
  | «for» _ _ initializer condition _ increment _ _ ih =>
    simpa [word, Terminal.kind_eq, or_imp, forall_and] using
      ⟨initializer.kind_ne_eof, optionalWord_ne_eof condition, optionalWord_ne_eof increment, ih⟩

end LoxSyntax.Grammar
