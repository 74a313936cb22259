import Lox.Parser
import Lox.Node

/-!
# Parsing expressions

From loosest to tightest: assignment, `or`, `and`, equality, comparison, sums, products, operators
in front, calls, and what stands by itself.  The levels with an operator between two operands join
to the left, assignment and the operators in front to the right.  Every expression inside another
uses up one of the nesting budget, so that deep nesting is a diagnostic.
-/

namespace Lox

namespace Parser

/-- One level of arithmetic operators or comparisons. -/
def binaryLevel (kinds : List Kind) (operand : Parser Node) : Parser Node :=
  leftAssoc kinds Node.binary operand

/-- One level of logical operators. -/
def logicalLevel (kinds : List Kind) (operand : Parser Node) : Parser Node :=
  leftAssoc kinds Node.logical operand

/-- All levels with an operator between two operands, over operands of the tightest level. -/
def operatorLevels (operand : Parser Node) : Parser Node :=
  let factor := binaryLevel [.slash, .star] operand
  let term := binaryLevel [.minus, .plus] factor
  let comparison := binaryLevel [.greater, .greaterEqual, .less, .lessEqual] term
  let equality := binaryLevel [.bangEqual, .equalEqual] comparison
  let conjunction := logicalLevel [.andWord] equality
  logicalLevel [.orWord] conjunction

/-- Literals, variables, and an expression in parentheses. -/
def primary (expression : Parser Node) : Parser Node := fun s =>
  match s.rest with
  | [] => .stop .offEnd s
  | t :: rest =>
    let taken : State := { s with rest := rest, position := s.position + 1 }
    match t.kind with
    | .falseWord => .done (.literal (.bool false)) taken
    | .trueWord => .done (.literal (.bool true)) taken
    | .nilWord => .done (.literal .nil) taken
    | .number => .done (.literal (Node.ofLiteral t.literal)) taken
    | .string => .done (.literal (Node.ofLiteral t.literal)) taken
    | .identifier => .done (.reference t) taken
    | .leftParen =>
      (do let inner ← expression
          let _ ← expect .rightParen .expectParenAfterExpression
          pure (.grouping inner) : Parser Node) taken
    | _ => .stop (.refused ⟨.expectExpression, t, s.position⟩) s

/-- The arguments of a call behind its opening parenthesis, and the closing one. -/
def argumentList (expression : Parser Node) : Parser (List Node × Token) := do
  let arguments ← entries .tooManyArguments expression
  let paren ← expect .rightParen .expectParenAfterArguments
  pure (arguments, paren)

/-- Goes on with argument lists behind a callee. -/
def callsFrom (expression : Parser Node) : List Token → Node → State → Outcome Node
  | [], _, s => .stop .offEnd s
  | _ :: bound, callee, s =>
    match accept [.leftParen] s with
    | .stop why s' => .stop why s'
    | .done none s' => .done callee s'
    | .done (some _) s' =>
      match argumentList expression s' with
      | .stop why s'' => .stop why s''
      | .done (arguments, paren) s'' =>
        callsFrom expression bound (.call callee paren arguments) s''

/-- A primary expression with any number of argument lists behind it. -/
def call (expression : Parser Node) : Parser Node := fun s =>
  match primary expression s with
  | .stop why s' => .stop why s'
  | .done callee s' => callsFrom expression s'.rest callee s'

/-- What an assignment to a target is; any target but a variable is reported. -/
def assignTo (target : Node) (equals : Token) (value : Node) : Parser Node :=
  match target with
  | .reference name => pure (.assign name value)
  | _ => do
    report .invalidAssignmentTarget equals
    pure target

mutual

/-- An expression, nested at most so deep. -/
def assignment : Nat → Parser Node
  | 0 => fail .tooDeep
  | depth + 1 => do
    let target ← operatorLevels (unary depth)
    match ← accept [.equal] with
    | none => pure target
    | some equals => do
      let value ← assignment depth
      assignTo target equals value

/-- An operand: operators in front of calls. -/
def unary : Nat → Parser Node
  | 0 => fail .tooDeep
  | depth + 1 => do
    match ← accept [.bang, .minus] with
    | some operator => do
      let right ← unary depth
      pure (.unary operator right)
    | none => call (assignment depth)

end

end Parser

end Lox
