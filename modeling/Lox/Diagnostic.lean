import Lox.Token

/-!
# Diagnostics

What can be wrong with a list of tokens.  Some causes end the statement at hand, others are only
reported and reading goes on (`Cause.isReported`).
-/

namespace Lox

/-- What is wrong at a token. -/
inductive Cause where
  | expectExpression
  | expectFunctionName
  | expectParenAfterFunctionName
  | expectParameterName
  | expectParenAfterParameters
  | expectBraceBeforeBody
  | expectVariableName
  | expectSemicolonAfterDeclaration
  | expectParenAfterFor
  | expectSemicolonAfterLoopCondition
  | expectParenAfterForClauses
  | expectParenAfterIf
  | expectParenAfterIfCondition
  | expectSemicolonAfterValue
  | expectSemicolonAfterReturnValue
  | expectParenAfterWhile
  | expectParenAfterCondition
  | expectBraceAfterBlock
  | expectSemicolonAfterExpression
  | expectParenAfterArguments
  | expectParenAfterExpression
  | invalidAssignmentTarget
  | tooManyParameters
  | tooManyArguments
  | returnAtTopLevel
  | nestingTooDeep
deriving DecidableEq, Inhabited, Repr

/-- The largest number of parameters or arguments. -/
def maxArguments : Nat := 255

namespace Cause

/-- The wording of a cause. -/
def text : Cause → String
  | .expectExpression => "Expect expression."
  | .expectFunctionName => "Expect function name."
  | .expectParenAfterFunctionName => "Expect '(' after function name."
  | .expectParameterName => "Expect parameter name."
  | .expectParenAfterParameters => "Expect ')' after parameters."
  | .expectBraceBeforeBody => "Expect '\x7b' before function body."
  | .expectVariableName => "Expect variable name."
  | .expectSemicolonAfterDeclaration => "Expect ';' after variable declaration."
  | .expectParenAfterFor => "Expect '(' after 'for'."
  | .expectSemicolonAfterLoopCondition => "Expect ';' after loop condition."
  | .expectParenAfterForClauses => "Expect ')' after for clauses."
  | .expectParenAfterIf => "Expect '(' after 'if'."
  | .expectParenAfterIfCondition => "Expect ')' after if condition."
  | .expectSemicolonAfterValue => "Expect ';' after value."
  | .expectSemicolonAfterReturnValue => "Expect ';' after return value."
  | .expectParenAfterWhile => "Expect '(' after 'while'."
  | .expectParenAfterCondition => "Expect ')' after condition."
  | .expectBraceAfterBlock => "Expect '\x7d' after block."
  | .expectSemicolonAfterExpression => "Expect ';' after expression."
  | .expectParenAfterArguments => "Expect ')' after arguments."
  | .expectParenAfterExpression => "Expect ')' after expression."
  | .invalidAssignmentTarget => "Invalid assignment target."
  | .tooManyParameters => "Can't have more than " ++ toString maxArguments ++ " parameters."
  | .tooManyArguments => "Can't have more than " ++ toString maxArguments ++ " arguments."
  | .returnAtTopLevel => "Can't return from top-level code."
  | .nestingTooDeep => "Expression nesting too deep."

/-- Causes that are reported without giving the statement up. -/
def isReported : Cause → Bool
  | .invalidAssignmentTarget | .tooManyParameters | .tooManyArguments | .returnAtTopLevel => true
  | _ => false

end Cause

/-- A cause, the token it is found at, and how many tokens had been taken when it was found. -/
structure Diagnostic where
  cause : Cause
  token : Token
  position : Nat
deriving DecidableEq, Inhabited

namespace Diagnostic

/-- The whole message. -/
def message (d : Diagnostic) : Text :=
  let place : Text := if d.token.kind = .eof then " at end" else " at '" ++ d.token.lexemeText ++ "'"
  d.token.lineMark ++ " Error" ++ place ++ ": " ++ d.cause.text

end Diagnostic

end Lox
