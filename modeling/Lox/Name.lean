import Lox.Json

/-!
# Names

What a variable is known by.  In a program text a name is a text, but a loaded token may hold other
data in its place.  Plain data makes a name, and two such names are the same when they are equal as
values: `1`, `1.0` and `true` name the same variable.  A list or an object makes no name.
-/

namespace Lox

/-- The name of a variable. -/
inductive Name where
  | text (t : Text)
  /-- An integer, a number without a fraction, or a truth value. -/
  | integer (n : Int)
  /-- Any other number. -/
  | number (x : Number)
  | nothing
deriving DecidableEq, Inhabited, Repr

namespace Name

/-- The name that a number stands for. -/
def ofNumber (x : Number) : Name :=
  match x.integer? with
  | some n => .integer n
  | none => .number x

/-- The name that data stands for. -/
def ofJson? : Json → Option Name
  | .null => some .nothing
  | .bool b => some (.integer (if b then 1 else 0))
  | .int n => some (.integer n)
  | .float x => some (ofNumber x)
  | .str t => some (.text t)
  | .arr _ => none
  | .obj _ => none

/-- The names that a list of data stands for. -/
def ofJsonAll? : List Json → Option (List Name)
  | [] => some []
  | v :: rest =>
    match ofJson? v, ofJsonAll? rest with
    | some name, some names => some (name :: names)
    | _, _ => none

/-- A text is its own name. -/
@[simp] theorem ofJson?_str (t : Text) : ofJson? (.str t) = some (.text t) := rfl

end Name

end Lox
