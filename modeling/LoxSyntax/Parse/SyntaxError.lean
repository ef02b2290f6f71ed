/-
  LoxSyntax.Parse.SyntaxError — what can be wrong with a program, and the words for it.

  Three errors are soft: the declaration around them is read on and kept. All others
  abandon it. A declaration of a name carries the word for what it declares.

  - `isSoft_iff`: which errors are soft.
-/

namespace LoxSyntax

/-- How many parameters or arguments a list may have. -/
def maxItems : Nat := 255

inductive SyntaxError where
  | invalidAssignmentTarget
  | tooManyParameters
  | tooManyArguments
  | noExpression
  | noParenAfterExpression
  | noParenAfterArguments
  | noPropertyName
  | noDotAfterSuper
  | noSuperMethodName
  | noClassName
  | noSuperclassName
  | noBraceBeforeClassBody
  | noBraceAfterClassBody
  | noDeclaredName (what : String)
  | noParenAfterName (what : String)
  | noParameterName
  | noParenAfterParameters
  | noBraceBeforeBody (what : String)
  | noBraceAfterBlock
  | noVariableName
  | noSemicolonAfterVariable
  | noParenAfterFor
  | noSemicolonAfterLoopCondition
  | noParenAfterClauses
  | noParenAfterIf
  | noParenAfterIfCondition
  | noParenAfterWhile
  | noParenAfterCondition
  | noSemicolonAfterValue
  | noSemicolonAfterReturnValue
  | noSemicolonAfterExpression
  deriving DecidableEq, Repr

namespace SyntaxError

def message : SyntaxError → String
  | .invalidAssignmentTarget => "Invalid assignment target."
  | .tooManyParameters => "Can't have more than " ++ toString maxItems ++ " parameters."
  | .tooManyArguments => "Can't have more than " ++ toString maxItems ++ " arguments."
  | .noExpression => "Expect expression."
  | .noParenAfterExpression => "Expect ')' after expression."
  | .noParenAfterArguments => "Expect ')' after arguments."
  | .noPropertyName => "Expect property name after '.'."
  | .noDotAfterSuper => "Expect '.' after 'super'."
  | .noSuperMethodName => "Expect superclass method name."
  | .noClassName => "Expect class name."
  | .noSuperclassName => "Expect superclass name."
  | .noBraceBeforeClassBody => "Expect '\x7b' before class body."
  | .noBraceAfterClassBody => "Expect '\x7d' after class body."
  | .noDeclaredName what => "Expect " ++ what ++ " name."
  | .noParenAfterName what => "Expect '(' after " ++ what ++ " name."
  | .noParameterName => "Expect parameter name."
  | .noParenAfterParameters => "Expect ')' after parameters."
  | .noBraceBeforeBody what => "Expect '\x7b' before " ++ what ++ " body."
  | .noBraceAfterBlock => "Expect '\x7d' after block."
  | .noVariableName => "Expect variable name."
  | .noSemicolonAfterVariable => "Expect ';' after variable declaration."
  | .noParenAfterFor => "Expect '(' after 'for'."
  | .noSemicolonAfterLoopCondition => "Expect ';' after loop condition."
  | .noParenAfterClauses => "Expect ')' after for clauses."
  | .noParenAfterIf => "Expect '(' after 'if'."
  | .noParenAfterIfCondition => "Expect ')' after if condition."
  | .noParenAfterWhile => "Expect '(' after 'while'."
  | .noParenAfterCondition => "Expect ')' after condition."
  | .noSemicolonAfterValue => "Expect ';' after value."
  | .noSemicolonAfterReturnValue => "Expect ';' after return value."
  | .noSemicolonAfterExpression => "Expect ';' after expression."

def isSoft : SyntaxError → Bool
  | .invalidAssignmentTarget | .tooManyParameters | .tooManyArguments => true
  | _ => false

theorem isSoft_iff (e : SyntaxError) : e.isSoft = true ↔
    e = .invalidAssignmentTarget ∨ e = .tooManyParameters ∨ e = .tooManyArguments := by
  cases e <;> simp [isSoft]

end SyntaxError

end LoxSyntax
