/-
  LoxSyntax.Proofs.Lexical.Listing — the tokens and the problems of a row of segments.

  An operator, a string, a number and a word give one token each, a character that starts
  nothing and a quote that nothing closes one problem each; blanks and comments give
  neither. A token has the line where its segment ends and the column where it starts.

  - `ofWord?_eq_lookup`: the reserved words are the sixteen of the table.
-/

import LoxSyntax.Proofs.Lexical.NumberLexeme

namespace LoxSyntax.Lexical

/-! ## Lines and columns -/

structure Spot where
  line : Int
  column : Int
  deriving DecidableEq, Repr

namespace Spot

def start : Spot := ⟨1, 1⟩

/-- Behind a character. -/
def past (p : Spot) (c : Char) : Spot := if c = '\n' then ⟨p.line + 1, 1⟩ else ⟨p.line, p.column + 1⟩

def pastAll (p : Spot) (cs : List Char) : Spot := cs.foldl past p

theorem pastAll_append (p : Spot) (cs ds : List Char) : p.pastAll (cs ++ ds) = (p.pastAll cs).pastAll ds :=
  List.foldl_append

end Spot

/-! ## Segments -/

def reservedWords : List (String × TokenKind) :=
  [("and", .kwAnd), ("class", .kwClass), ("else", .kwElse), ("false", .kwFalse), ("for", .kwFor), ("fun", .kwFun),
   ("if", .kwIf), ("nil", .kwNil), ("or", .kwOr), ("print", .kwPrint), ("return", .kwReturn), ("super", .kwSuper),
   ("this", .kwThis), ("true", .kwTrue), ("var", .kwVar), ("while", .kwWhile)]

namespace Segment

def lexeme (s : Segment) : String := String.ofList s.text

/-- The kind of the segment's token, if it gives one. -/
def kind? (s : Segment) : Option TokenKind :=
  match s.form with
  | .operator kind => some kind
  | .string _ => some .string
  | .number _ _ => some .number
  | .word => some ((reservedWords.lookup s.lexeme).getD .identifier)
  | .blank | .comment | .unclosed | .other => none

def literal (s : Segment) : Literal :=
  match s.form with
  | .string value => .text (String.ofList value)
  | .number whole fraction => .number (.ofDecimal false (.ofNumeral whole fraction))
  | _ => .nil

/-- What is reported about the segment, if anything is. -/
def problem? (s : Segment) : Option String :=
  match s.form with
  | .unclosed => some "Unterminated string."
  | .other => some "Unexpected character."
  | _ => none

def token? (s : Segment) (p : Spot) : Option Token :=
  s.kind?.map fun kind => ⟨kind, s.lexeme, s.literal, (p.pastAll s.text).line, p.column⟩

def diagnostic? (s : Segment) (p : Spot) : Option Diagnostic :=
  s.problem?.map (.lexical (p.pastAll s.text).line)

end Segment

/-! ## Rows of segments -/

def tokens : Spot → List Segment → List Token
  | _, [] => []
  | p, s :: ss => (s.token? p).toList ++ tokens (p.pastAll s.text) ss

def diagnostics : Spot → List Segment → List Diagnostic
  | _, [] => []
  | p, s :: ss => (s.diagnostic? p).toList ++ diagnostics (p.pastAll s.text) ss

/-- The end of file behind the segments. -/
def eofToken (p : Spot) (ss : List Segment) : Token :=
  let p := p.pastAll (ss.flatMap (·.text))
  ⟨.eof, "", .nil, p.line, p.column⟩

/-- The words that have a kind of their own are those of the table. -/
theorem ofWord?_eq_lookup (word : String) : TokenKind.ofWord? word = reservedWords.lookup word := by
  unfold TokenKind.ofWord?
  split
  case h_17 =>
    symm
    rw [List.lookup_eq_none_iff]
    simp only [reservedWords, List.forall_mem_cons, bne_iff_ne]
    and_intros <;> first | assumption | simp
  all_goals rfl

end LoxSyntax.Lexical
