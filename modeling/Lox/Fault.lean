import Lox.Value

/-!
# Faults

How a run can go wrong.  The faults of the language have a name, a text and a place; the others
arise only from trees that no program text gives, or from a native, or from a bound on the run, or
from a text that cannot be told.
-/

namespace Lox

/-- A value of the wrong kind for what is done with it. -/
inductive Misuse where
  | operand (given : String)
  | unsupportedUnary (operator : Text)
  | additionOperands (left right : String)
  | operands (left right : String)
  | unknownOperator (operator : Text)
  | notCallable (given : String)
  | arity (expected : Int) (given : Nat)
deriving DecidableEq, Repr

namespace Misuse

/-- The wording of a misuse. -/
def text : Misuse → Text
  | .operand given => "Operand must be a number, got " ++ given ++ "."
  | .unsupportedUnary operator => "Unsupported unary operator " ++ operator ++ "."
  | .additionOperands left right =>
    "Operands must be two numbers or two strings, got " ++ left ++ " and " ++ right ++ "."
  | .operands left right => "Operands must be numbers, got " ++ left ++ " and " ++ right ++ "."
  | .unknownOperator operator => "Unknown operator " ++ operator ++ "."
  | .notCallable given => "Can only call functions, got " ++ given ++ "."
  | .arity expected given =>
    "Expected " ++ toString expected ++ " arguments but got " ++ toString given ++ "."

end Misuse

/-- How a run goes wrong. -/
inductive Fault where
  /-- A variable is not bound. -/
  | undefined (name : Token)
  /-- A value is of the wrong kind. -/
  | misuse (place : Token) (cause : Misuse)
  /-- Calls are nested too deep; the place is the latest call, if there was one. -/
  | overflow (place : Option Token)
  /-- What should be a statement or an expression is none. -/
  | malformed
  /-- What should name a variable is no name. -/
  | notAName
  /-- A native gives up, with an error of the host. -/
  | raised (error : String)
  /-- What is to be told holds a half that stands alone, which no file can hold. -/
  | unwritable
  /-- A tree is no list of statements. -/
  | notAProgram
  /-- The bound on the rounds of a loop is used up, or a native does not end. -/
  | unfinished
deriving DecidableEq

namespace Fault

/-- The name of a fault of the language, as it is shown in a trace. -/
def label? : Fault → Option String
  | .undefined _ => some "LoxRuntimeError"
  | .misuse .. => some "InterpreterError"
  | .overflow _ => some "StackDepthError"
  | _ => none

/-- The wording of a fault. -/
def text : Fault → Text
  | .undefined name => "Undefined variable '" ++ name.lexemeText ++ "'."
  | .misuse _ cause => cause.text
  | .overflow _ => "Stack overflow."
  | _ => ""

/-- The token at which a fault is found. -/
def place? : Fault → Option Token
  | .undefined name => some name
  | .misuse place _ => some place
  | .overflow place => place
  | _ => none

/-- The whole message: the wording, and the line if there is one. -/
def message (f : Fault) : Text :=
  match f.place? with
  | some t => f.text ++ "\n" ++ t.lineMark
  | none => f.text

end Fault

end Lox
