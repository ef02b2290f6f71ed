/-
  LoxSyntax.Token — the tokens of Lox: their kinds, the literal values they may carry,
  and where they stand in the source.

  A token's line is the line it ends on, its column the one it starts in. Equality of
  tokens compares every field; literals compare as numbers and truth values do, so true
  and 1 are the same literal and nan is not even itself (`Literal.same`).

  - `TokenKind.ofName?_name`: a kind is determined by its name.
  - `Literal.same_comm`: sameness of literals does not depend on their order.
-/

import LoxSyntax.Number.NumberText

namespace LoxSyntax

inductive TokenKind where
  | leftParen | rightParen | leftBrace | rightBrace | comma | dot | minus | plus | semicolon | slash | star
  | bang | bangEqual | equal | equalEqual | greater | greaterEqual | less | lessEqual | identifier | string
  | number | kwAnd | kwClass | kwElse | kwFalse | kwFun | kwFor | kwIf | kwNil | kwOr | kwPrint | kwReturn
  | kwSuper | kwThis | kwTrue | kwVar | kwWhile | eof
  deriving DecidableEq, Repr

namespace TokenKind

def name : TokenKind → String
  | .leftParen => "LEFT_PAREN"
  | .rightParen => "RIGHT_PAREN"
  | .leftBrace => "LEFT_BRACE"
  | .rightBrace => "RIGHT_BRACE"
  | .comma => "COMMA"
  | .dot => "DOT"
  | .minus => "MINUS"
  | .plus => "PLUS"
  | .semicolon => "SEMICOLON"
  | .slash => "SLASH"
  | .star => "STAR"
  | .bang => "BANG"
  | .bangEqual => "BANG_EQUAL"
  | .equal => "EQUAL"
  | .equalEqual => "EQUAL_EQUAL"
  | .greater => "GREATER"
  | .greaterEqual => "GREATER_EQUAL"
  | .less => "LESS"
  | .lessEqual => "LESS_EQUAL"
  | .identifier => "IDENTIFIER"
  | .string => "STRING"
  | .number => "NUMBER"
  | .kwAnd => "AND"
  | .kwClass => "CLASS"
  | .kwElse => "ELSE"
  | .kwFalse => "FALSE"
  | .kwFun => "FUN"
  | .kwFor => "FOR"
  | .kwIf => "IF"
  | .kwNil => "NIL"
  | .kwOr => "OR"
  | .kwPrint => "PRINT"
  | .kwReturn => "RETURN"
  | .kwSuper => "SUPER"
  | .kwThis => "THIS"
  | .kwTrue => "TRUE"
  | .kwVar => "VAR"
  | .kwWhile => "WHILE"
  | .eof => "EOF"

def all : List TokenKind :=
  [.leftParen, .rightParen, .leftBrace, .rightBrace, .comma, .dot, .minus, .plus, .semicolon, .slash, .star,
   .bang, .bangEqual, .equal, .equalEqual, .greater, .greaterEqual, .less, .lessEqual, .identifier, .string,
   .number, .kwAnd, .kwClass, .kwElse, .kwFalse, .kwFun, .kwFor, .kwIf, .kwNil, .kwOr, .kwPrint, .kwReturn,
   .kwSuper, .kwThis, .kwTrue, .kwVar, .kwWhile, .eof]

def ofName? (s : String) : Option TokenKind := all.find? (·.name == s)

theorem ofName?_name (k : TokenKind) : ofName? k.name = some k := by
  cases k <;> decide +kernel

/-- The reserved words; every other identifier is a name. -/
def ofWord? : String → Option TokenKind
  | "and" => some .kwAnd
  | "class" => some .kwClass
  | "else" => some .kwElse
  | "false" => some .kwFalse
  | "fun" => some .kwFun
  | "for" => some .kwFor
  | "if" => some .kwIf
  | "nil" => some .kwNil
  | "or" => some .kwOr
  | "print" => some .kwPrint
  | "return" => some .kwReturn
  | "super" => some .kwSuper
  | "this" => some .kwThis
  | "true" => some .kwTrue
  | "var" => some .kwVar
  | "while" => some .kwWhile
  | _ => none

/-- The keywords that begin a declaration or a statement. -/
def startsStatement : TokenKind → Bool
  | .kwClass | .kwFun | .kwVar | .kwFor | .kwIf | .kwWhile | .kwPrint | .kwReturn => true
  | _ => false

end TokenKind

/-! ## Literals -/

inductive Literal where
  | nil
  | boolean (b : Bool)
  | number (x : Binary64)
  | text (s : String)
  deriving DecidableEq, Repr

namespace Literal

/-- The number that a truth value counts as. -/
def ofTruth (b : Bool) : Binary64 := if b then .one else .zero false

def same : Literal → Literal → Bool
  | .nil, .nil => true
  | .boolean a, .boolean b => a == b
  | .number x, .number y => x.same y
  | .boolean a, .number y => (ofTruth a).same y
  | .number x, .boolean b => x.same (ofTruth b)
  | .text s, .text t => s == t
  | _, _ => false

/-- The value in a token's description. -/
def described : Literal → String
  | .nil => "null"
  | .boolean true => "True"
  | .boolean false => "False"
  | .number x => x.text
  | .text s => s

def dropPointZero (cs : List Char) : List Char :=
  if cs.drop (cs.length - 2) = ['.', '0'] then cs.take (cs.length - 2) else cs

/-- The value as Lox source spells it, a string without its quotes. -/
def spelling : Literal → String
  | .nil => "nil"
  | .boolean true => "true"
  | .boolean false => "false"
  | .number x => String.ofList (dropPointZero x.chars)
  | .text s => s

end Literal

theorem Binary64.same_comm (x y : Binary64) : x.same y = y.same x := by
  unfold Binary64.same
  by_cases h : x = y
  · subst h; rfl
  · have h1 : (x == y) = false := by simpa using h
    have h2 : (y == x) = false := by simpa using fun e => h e.symm
    simp [h1, h2, Bool.and_comm]

theorem Literal.same_comm (a b : Literal) : a.same b = b.same a := by
  cases a <;> cases b <;> simp only [Literal.same]
  · exact Bool.eq_iff_iff.2 (by simp only [beq_iff_eq]; exact eq_comm)
  · exact Binary64.same_comm _ _
  · exact Binary64.same_comm _ _
  · exact Binary64.same_comm _ _
  · exact Bool.eq_iff_iff.2 (by simp only [beq_iff_eq]; exact eq_comm)

/-! ## Tokens -/

structure Token where
  kind : TokenKind
  lexeme : String
  literal : Literal
  line : Int
  column : Int
  deriving DecidableEq, Repr

namespace Token

def isEof (t : Token) : Bool := t.kind == .eof

/-- Kind, lexeme and literal, as a token listing shows them. -/
def described (t : Token) : String := t.kind.name ++ " " ++ t.lexeme ++ " " ++ t.literal.described

def same (a b : Token) : Bool :=
  a.kind == b.kind && a.lexeme == b.lexeme && a.literal.same b.literal && a.line == b.line &&
    a.column == b.column

end Token

end LoxSyntax
