import Lox.Text
import Lox.Text.Printable

/-!
# Quoted text

The spelling of a text inside a message: between quotes, with escapes for the backslash, for the
quote in use, for every character that is not printable and for a half that stands alone.  Single
quotes are used unless the text holds a single quote and no double quote.
-/

namespace Lox

/-- A number in lower-case hexadecimal, filled up with zeros to the given width. -/
def hexadecimal (width n : Nat) : String :=
  let ds := Nat.toDigits 16 n
  String.ofList (List.replicate (width - ds.length) '0' ++ ds)

/-- The spelling of one character between quotes of the given kind. -/
def escapeIn (quote c : Char) : String :=
  if c = '\\' then "\\\\"
  else if c = quote then String.ofList ['\\', quote]
  else if c = '\t' then "\\t"
  else if c = '\n' then "\\n"
  else if c = '\r' then "\\r"
  else if isPrintable c then String.singleton c
  else if c.toNat < 0x100 then "\\x" ++ hexadecimal 2 c.toNat
  else if c.toNat < 0x10000 then "\\u" ++ hexadecimal 4 c.toNat
  else "\\U" ++ hexadecimal 8 c.toNat

/-- The spelling of a character or a half between quotes of the given kind. -/
def escapePoint (quote : Char) : Text.Point → String
  | .char c => escapeIn quote c
  | .half h => "\\u" ++ hexadecimal 4 h.code

/-- The quote that surrounds a text. -/
def quoteFor (points : List Text.Point) : Char :=
  if points.contains (.char '\'') && !points.contains (.char '"') then '"' else '\''

/-- A text between quotes. -/
def quoted (text : Text) : String :=
  let points := text.points
  let quote := quoteFor points
  String.singleton quote ++ String.join (points.map (escapePoint quote)) ++ String.singleton quote

end Lox
