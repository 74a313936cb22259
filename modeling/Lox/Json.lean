import Lox.Number.Text
import Lox.Text.Quoted

/-!
# JSON values

A value of the format in which syntax trees are stored.  Integers of any size and numbers are kept
apart, because a line number is an integer and a literal is not, and an object is the list of its
members in the order in which they were first written.  Its texts may hold lone halves, which an
escape can name.
-/

namespace Lox

/-- A JSON value. -/
inductive Json where
  | null
  | bool (b : Bool)
  | int (n : Int)
  | float (x : Number)
  | str (t : Text)
  | arr (items : List Json)
  | obj (members : List (Text × Json))
deriving Inhabited

namespace Json

/-- A string as a value. -/
@[match_pattern] abbrev word (s : String) : Json := .str ⟨s, []⟩

/-! ### Equality -/

mutual

/-- Whether two values are the same, numbers compared by their patterns. -/
def same : Json → Json → Bool
  | .null, .null => true
  | .bool a, .bool b => a == b
  | .int a, .int b => a == b
  | .float a, .float b => a == b
  | .str a, .str b => a == b
  | .arr a, .arr b => sameItems a b
  | .obj a, .obj b => sameMembers a b
  | _, _ => false

/-- Whether two lists of items are the same. -/
def sameItems : List Json → List Json → Bool
  | [], [] => true
  | a :: as, b :: bs => same a b && sameItems as bs
  | _, _ => false

/-- Whether two lists of members are the same, order included. -/
def sameMembers : List (Text × Json) → List (Text × Json) → Bool
  | [], [] => true
  | (n, a) :: as, (m, b) :: bs => n == m && same a b && sameMembers as bs
  | _, _ => false

end

mutual

/-- `same` decides equality of values. -/
theorem same_iff : ∀ a b : Json, same a b = true ↔ a = b
  | .null, b => by cases b <;> simp [same]
  | .bool _, b => by cases b <;> simp [same]
  | .int _, b => by cases b <;> simp [same]
  | .float _, b => by cases b <;> simp [same]
  | .str _, b => by cases b <;> simp [same]
  | .arr as, b => by cases b <;> simp [same, sameItems_iff as]
  | .obj as, b => by cases b <;> simp [same, sameMembers_iff as]

/-- `sameItems` decides equality of lists of items. -/
theorem sameItems_iff : ∀ as bs : List Json, sameItems as bs = true ↔ as = bs
  | [], bs => by cases bs <;> simp [sameItems]
  | a :: as, bs => by cases bs <;> simp [sameItems, same_iff a, sameItems_iff as]

/-- `sameMembers` decides equality of lists of members. -/
theorem sameMembers_iff : ∀ as bs : List (Text × Json), sameMembers as bs = true ↔ as = bs
  | [], bs => by cases bs <;> simp [sameMembers]
  | (n, a) :: as, bs => by
    cases bs with
    | nil => simp [sameMembers]
    | cons b bs => cases b; simp [sameMembers, same_iff a, sameMembers_iff as, and_assoc]

end

instance : DecidableEq Json := fun a b => decidable_of_iff _ (same_iff a b)

/-! ### Members and spelling -/

/-- The value of the first member with this name. -/
def member? (members : List (Text × Json)) (name : Text) : Option Json :=
  members.lookup name

/-- Adds a member; a member of the same name keeps its place and takes the new value. -/
def setMember (name : Text) (value : Json) : List (Text × Json) → List (Text × Json)
  | [] => [(name, value)]
  | (other, old) :: rest =>
    if other = name then (name, value) :: rest else (other, old) :: setMember name value rest

/-- The names of infinity and of not-a-number in quoted data. -/
def dataNames : Number.Names := ⟨"nan", "inf"⟩

mutual

/-- The spelling of a value as data inside a message, with text in quotes. -/
def dataText : Json → String
  | .null => "None"
  | .bool true => "True"
  | .bool false => "False"
  | .int n => toString n
  | .float x => x.short dataNames
  | .str t => quoted t
  | .arr items => "[" ++ dataItems items ++ "]"
  | .obj members => "\x7b" ++ dataMembers members ++ "\x7d"

/-- The items of an array, with commas between them. -/
def dataItems : List Json → String
  | [] => ""
  | [v] => dataText v
  | v :: rest => dataText v ++ ", " ++ dataItems rest

/-- The members of an object, with commas between them. -/
def dataMembers : List (Text × Json) → String
  | [] => ""
  | [(name, v)] => quoted name ++ ": " ++ dataText v
  | (name, v) :: rest => quoted name ++ ": " ++ dataText v ++ ", " ++ dataMembers rest

end

/-- The spelling of a value as the subject of a message: as data, but a text as it stands. -/
def subject : Json → Text
  | .str t => t
  | v => v.dataText

end Json

end Lox
