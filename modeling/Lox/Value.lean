import Lox.Node

/-!
# Values

What expressions evaluate to: texts, numbers, booleans, `nil`, functions and natives.  A tree that
was put into a literal by hand is a value too; it can be stored and printed, and nothing else.
-/

namespace Lox

/-- The function of the host that a native stands for. -/
inductive HostFunction where
  /-- The one that reads the clock. -/
  | clock
  /-- One that was handed in, by its number. -/
  | given (number : Nat)
deriving DecidableEq, Inhabited, Repr

/-- A value of a running program. -/
inductive Value where
  | text (t : Text)
  | number (x : Number)
  | bool (b : Bool)
  | nil
  /-- A function of the program, with the number of the scope it was declared in. -/
  | function (name : Json) (params : List Json) (body : List Node) (closure : Nat)
  | native (name : Text) (arity : Int) (function : HostFunction)
  /-- A tree that is none of the above. -/
  | tree (node : Node)
deriving Inhabited

namespace Value

/-- The value of a literal. -/
def ofNode : Node → Value
  | .text t => .text t
  | .number x => .number x
  | .bool b => .bool b
  | .nil => .nil
  | node => .tree node

/-! ### Kinds, truth and equality -/

/-- Whether a value is a number. -/
def isNumber : Value → Bool
  | .number _ => true
  | _ => false

/-- Everything but `false` and `nil` counts as true. -/
def isTruthy : Value → Bool
  | .nil => false
  | .bool b => b
  | _ => true

/-- Equality of the language.  Values of different kinds differ, numbers are compared by value, and
functions differ from everything. -/
def equals : Value → Value → Bool
  | .bool a, .bool b => a == b
  | .number a, .number b => a.sameValue b
  | .text s, .text t => s == t
  | .nil, .nil => true
  | _, _ => false

/-- The name of a value's kind in messages. -/
def kindName : Value → String
  | .bool _ => "boolean"
  | .number _ => "number"
  | .text _ => "string"
  | .nil => "nil"
  | .function .. => "function"
  | .native .. => "function"
  | .tree _ => "function"

/-! ### Spelling -/

/-- The spelling of a value as data. -/
def dataText : Value → Text
  | .text t => quoted t
  | .number x => x.short Json.dataNames
  | .bool true => "True"
  | .bool false => "False"
  | .nil => "nil"
  | .function name _ _ _ => "<fn " ++ name.subject ++ ">"
  | .native .. => "<native fn>"
  | .tree node => node.dataText

/-- What `print` writes. -/
def display : Value → Text
  | .text t => t
  | .number x => x.display
  | .bool true => "true"
  | .bool false => "false"
  | v => v.dataText

/-- How many arguments a value takes, if it can be called. -/
def arity? : Value → Option Int
  | .function _ params _ _ => some params.length
  | .native _ arity _ => some arity
  | _ => none

end Value

end Lox
