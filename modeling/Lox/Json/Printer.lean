import Lox.Json

/-!
# Writing JSON

A writer that puts the text of a value in front of what follows it.  There are two layouts: all on
one line, and one item a line with two blanks for each level.  Text keeps every character but the
quote, the backslash and the controls, and a half that stands alone is written as its escape, since no
file can hold it.
-/

namespace Lox

namespace Json

/-- Where line breaks go. -/
inductive Layout where
  /-- Everything on one line. -/
  | line
  /-- Every item on a line of its own, inside so many levels. -/
  | indented (level : Nat)
deriving DecidableEq, Repr

namespace Layout

/-- A line break and the blanks in front of an item at a level. -/
def breakAt (level : Nat) : List Char := '\n' :: List.replicate (2 * level) ' '

/-- What stands between an opening bracket and the first item. -/
def opening : Layout → List Char
  | .line => []
  | .indented level => breakAt (level + 1)

/-- What stands between two items. -/
def separator : Layout → List Char
  | .line => [',', ' ']
  | .indented level => ',' :: breakAt (level + 1)

/-- What stands between the last item and the closing bracket. -/
def closing : Layout → List Char
  | .line => []
  | .indented level => breakAt level

/-- The layout of the items. -/
def inner : Layout → Layout
  | .line => .line
  | .indented level => .indented (level + 1)

end Layout

/-- The names of infinity and of not-a-number in JSON. -/
def numberNames : Number.Names := ⟨"NaN", "Infinity"⟩

/-- One character of a text. -/
def writeChar (c : Char) (rest : List Char) : List Char :=
  if c = '"' then '\\' :: '"' :: rest
  else if c = '\\' then '\\' :: '\\' :: rest
  else if c = '\n' then '\\' :: 'n' :: rest
  else if c = '\r' then '\\' :: 'r' :: rest
  else if c = '\t' then '\\' :: 't' :: rest
  else if c = '\x08' then '\\' :: 'b' :: rest
  else if c = '\x0c' then '\\' :: 'f' :: rest
  else if c.toNat < 0x20 then '\\' :: 'u' :: ((hexadecimal 4 c.toNat).toList ++ rest)
  else c :: rest

/-- One character or half of a text. -/
def writePoint (point : Text.Point) (rest : List Char) : List Char :=
  match point with
  | .char c => writeChar c rest
  | .half h => '\\' :: 'u' :: ((hexadecimal 4 h.code).toList ++ rest)

/-- A text between quotes. -/
def writeText (t : Text) (rest : List Char) : List Char :=
  '"' :: t.points.foldr writePoint ('"' :: rest)

mutual

/-- The text of a value, followed by what is given. -/
def write (layout : Layout) : Json → List Char → List Char
  | .null, rest => 'n' :: 'u' :: 'l' :: 'l' :: rest
  | .bool true, rest => 't' :: 'r' :: 'u' :: 'e' :: rest
  | .bool false, rest => 'f' :: 'a' :: 'l' :: 's' :: 'e' :: rest
  | .int n, rest => (toString n).toList ++ rest
  | .float x, rest => (x.short numberNames).toList ++ rest
  | .str t, rest => writeText t rest
  | .arr [], rest => '[' :: ']' :: rest
  | .arr (v :: items), rest =>
    '[' :: (layout.opening ++
      write layout.inner v (writeItems layout items (layout.closing ++ ']' :: rest)))
  | .obj [], rest => '\x7b' :: '\x7d' :: rest
  | .obj ((name, v) :: members), rest =>
    '\x7b' :: (layout.opening ++ writeText name (':' :: ' ' ::
      write layout.inner v (writeMembers layout members (layout.closing ++ '\x7d' :: rest))))

/-- The items behind the first one. -/
def writeItems (layout : Layout) : List Json → List Char → List Char
  | [], rest => rest
  | v :: items, rest =>
    layout.separator ++ write layout.inner v (writeItems layout items rest)

/-- The members behind the first one. -/
def writeMembers (layout : Layout) : List (Text × Json) → List Char → List Char
  | [], rest => rest
  | (name, v) :: members, rest =>
    layout.separator ++ writeText name (':' :: ' ' ::
      write layout.inner v (writeMembers layout members rest))

end

/-- The whole text of a value. -/
def render (layout : Layout) (v : Json) : String := String.ofList (v.write layout [])

end Json

end Lox
