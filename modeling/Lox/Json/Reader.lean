import Lox.Json
import Lox.Text.Integer

/-!
# Reading JSON

A reader over the characters that are left: each piece takes what belongs to it and hands back the
rest.  Besides the standard values it takes the names `NaN`, `Infinity` and `-Infinity`.  A number
with a fraction or an exponent is a number, any other is an integer, which must not have too many
digits.  Of two members with the same name the later value counts.  Of several errors in a text the
first one counts.
-/

namespace Lox

namespace Json

/-- Why a text gives no value. -/
inductive ReadError where
  /-- It is no JSON. -/
  | malformed
  /-- An integer has so many digits, which are too many. -/
  | tooManyDigits (digits : Nat)
deriving DecidableEq, Repr

namespace ReadError

/-- The wording of an error. -/
def message : ReadError → String
  | .malformed => ""
  | .tooManyDigits digits =>
    "Exceeds the limit (" ++ toString integerDigitLimit ++
      " digits) for integer string conversion: value has " ++ toString digits ++
      " digits; use sys.set_int_max_str_digits() to increase the limit"

end ReadError

namespace Reader

/-- A value, or a part of one, and what is left behind it. -/
abbrev Read (α : Type) : Type := Except ReadError (α × List Char)

/-- White space between the parts of a text. -/
def isBlank (c : Char) : Bool := c = ' ' || c = '\t' || c = '\n' || c = '\r'

/-- What is left behind any white space. -/
def skipBlanks (cs : List Char) : List Char := cs.dropWhile isBlank

/-- What is left behind a fixed text, if the characters start with it. -/
def afterWord? : List Char → List Char → Option (List Char)
  | [], cs => some cs
  | _ :: _, [] => none
  | w :: ws, c :: cs => if w = c then afterWord? ws cs else none

/-! ### Numbers -/

/-- The digits before the point: a single zero, or digits that start with another one. -/
def wholeDigits? (cs : List Char) : Option (List Char × List Char) :=
  match cs with
  | [] => none
  | c :: rest =>
    if c = '0' then some (['0'], rest)
    else if c.isDigit then some (cs.takeWhile Char.isDigit, cs.dropWhile Char.isDigit)
    else none

/-- The digits behind a point; none are taken unless at least one follows it. -/
def placeDigits (cs : List Char) : List Char × List Char :=
  match cs with
  | '.' :: rest =>
    let ds := rest.takeWhile Char.isDigit
    if ds.isEmpty then ([], cs) else (ds, rest.dropWhile Char.isDigit)
  | _ => ([], cs)

/-- The sign of an exponent. -/
def exponentSign (cs : List Char) : Bool × List Char :=
  match cs with
  | '-' :: rest => (true, rest)
  | '+' :: rest => (false, rest)
  | _ => (false, cs)

/-- An exponent, if its mark is followed by digits. -/
def exponentPart (cs : List Char) : Option Int × List Char :=
  match cs with
  | c :: rest =>
    if c = 'e' || c = 'E' then
      let (negative, behind) := exponentSign rest
      let ds := behind.takeWhile Char.isDigit
      if ds.isEmpty then (none, cs)
      else
        let n : Int := Decimal.valueOf ds
        (some (if negative then -n else n), behind.dropWhile Char.isDigit)
    else (none, cs)
  | [] => (none, cs)

/-- The integer with these digits. -/
def integer (negative : Bool) (digits rest : List Char) : Read Json :=
  if integerDigitLimit < digits.length then .error (.tooManyDigits digits.length)
  else
    let n : Int := Decimal.valueOf digits
    .ok (.int (if negative then -n else n), rest)

/-- A number without its sign. -/
def unsigned (negative : Bool) (cs : List Char) : Read Json :=
  match wholeDigits? cs with
  | none => .error .malformed
  | some (whole, behindWhole) =>
    let (places, behindPlaces) := placeDigits behindWhole
    match exponentPart behindPlaces with
    | (none, rest) =>
      if places.isEmpty then integer negative whole rest
      else .ok (.float ((Decimal.ofPlaces whole places).toNumber negative), rest)
    | (some power, rest) =>
      let d := Decimal.ofPlaces whole places
      .ok (.float (Decimal.toNumber negative ⟨d.digits, d.exponent + power⟩), rest)

/-- A number, or one of the names for what has no digits. -/
def number (cs : List Char) : Read Json :=
  match cs with
  | '-' :: rest =>
    match afterWord? "Infinity".toList rest with
    | some behind => .ok (.float (Number.infinity true), behind)
    | none => unsigned true rest
  | _ => unsigned false cs

/-! ### Text -/

/-- The value of a hexadecimal digit. -/
def hexDigit? (c : Char) : Option Nat :=
  if '0' ≤ c && c ≤ '9' then some (c.toNat - '0'.toNat)
  else if 'a' ≤ c && c ≤ 'f' then some (c.toNat - 'a'.toNat + 10)
  else if 'A' ≤ c && c ≤ 'F' then some (c.toNat - 'A'.toNat + 10)
  else none

/-- The value of four hexadecimal digits. -/
def hexUnit? (a b c d : Char) : Option Nat :=
  match hexDigit? a, hexDigit? b, hexDigit? c, hexDigit? d with
  | some a, some b, some c, some d => some (((a * 16 + b) * 16 + c) * 16 + d)
  | _, _, _, _ => none

/-- The character that a one-letter escape stands for. -/
def escaped? (c : Char) : Option Char :=
  if c = '"' then some '"'
  else if c = '\\' then some '\\'
  else if c = '/' then some '/'
  else if c = 'b' then some '\x08'
  else if c = 'f' then some '\x0c'
  else if c = 'n' then some '\n'
  else if c = 'r' then some '\r'
  else if c = 't' then some '\t'
  else none

/-- The code units of a text up to its closing quote, the last one first, and what is left behind
the quote.  A numbered escape may be half of a pair, so characters are put together afterwards. -/
def units? : List Char → List Nat → Option (List Nat × List Char)
  | [], _ => none
  | '"' :: rest, units => some (units, rest)
  | '\\' :: 'u' :: a :: b :: c :: d :: rest, units =>
    match hexUnit? a b c d with
    | some u => units? rest (u :: units)
    | none => none
  | '\\' :: e :: rest, units =>
    match escaped? e with
    | some c => units? rest (c.toNat :: units)
    | none => none
  | c :: rest, units => if c.toNat < 0x20 then none else units? rest (c.toNat :: units)

/-- A unit that opens a pair. -/
def isHighUnit (u : Nat) : Bool := 0xd800 ≤ u && u < 0xdc00

/-- A unit that closes a pair. -/
def isLowUnit (u : Nat) : Bool := 0xdc00 ≤ u && u < 0xe000

/-- What a unit stands for alone: a character, or a half without the other. -/
def unitPoint (u : Nat) : Text.Point :=
  match Half.ofCode? u with
  | some h => .half h
  | none => .char (Char.ofNat u)

/-- Puts the halves of pairs together.  The units come with the last one first, and so what they stand
for is collected from the end. -/
def joinUnits : List Nat → List Text.Point → List Text.Point
  | [], points => points
  | [u], points => unitPoint u :: points
  | low :: high :: rest, points =>
    if isLowUnit low && isHighUnit high then
      joinUnits rest
        (.char (Char.ofNat (0x10000 + (high - 0xd800) * 0x400 + (low - 0xdc00))) :: points)
    else joinUnits (high :: rest) (unitPoint low :: points)

/-- A text behind its opening quote. -/
def text (cs : List Char) : Read Text :=
  match units? cs [] with
  | some (units, rest) => .ok (.ofPoints (joinUnits units []), rest)
  | none => .error .malformed

/-! ### Values -/

/-- A fixed word that stands for a value, behind its first character. -/
def word (rest : String) (value : Json) (cs : List Char) : Read Json :=
  match afterWord? rest.toList cs with
  | some behind => .ok (value, behind)
  | none => .error .malformed

mutual

/-- A value, the characters standing at its first one. -/
def value : Nat → List Char → Read Json
  | 0, _ => .error .malformed
  | _ + 1, [] => .error .malformed
  | fuel + 1, c :: rest =>
    if c = '"' then
      match text rest with
      | .ok (s, behind) => .ok (.str s, behind)
      | .error e => .error e
    else if c = '[' then
      match skipBlanks rest with
      | ']' :: behind => .ok (.arr [], behind)
      | first => items fuel [] first
    else if c = '\x7b' then
      match skipBlanks rest with
      | '\x7d' :: behind => .ok (.obj [], behind)
      | first => members fuel [] first
    else if c = 'n' then word "ull" .null rest
    else if c = 't' then word "rue" (.bool true) rest
    else if c = 'f' then word "alse" (.bool false) rest
    else if c = 'N' then word "aN" (.float Number.notANumber) rest
    else if c = 'I' then word "nfinity" (.float (Number.infinity false)) rest
    else number (c :: rest)

/-- The items of an array up to its end, those read so far the last one first. -/
def items : Nat → List Json → List Char → Read Json
  | 0, _, _ => .error .malformed
  | fuel + 1, done, cs =>
    match value fuel cs with
    | .error e => .error e
    | .ok (v, behind) =>
      match skipBlanks behind with
      | ',' :: rest => items fuel (v :: done) (skipBlanks rest)
      | ']' :: rest => .ok (.arr (v :: done).reverse, rest)
      | _ => .error .malformed

/-- The members of an object up to its end. -/
def members : Nat → List (Text × Json) → List Char → Read Json
  | 0, _, _ => .error .malformed
  | fuel + 1, done, cs =>
    match cs with
    | '"' :: nameOn =>
      match text nameOn with
      | .error e => .error e
      | .ok (name, behindName) =>
        match skipBlanks behindName with
        | ':' :: valueOn =>
          match value fuel (skipBlanks valueOn) with
          | .error e => .error e
          | .ok (v, behind) =>
            match skipBlanks behind with
            | ',' :: rest => members fuel (setMember name v done) (skipBlanks rest)
            | '\x7d' :: rest => .ok (.obj (setMember name v done), rest)
            | _ => .error .malformed
        | _ => .error .malformed
    | _ => .error .malformed

end

end Reader

/-- The value that a whole text stands for.  Every step of the reader takes a character or goes
from a bracket to what follows it, so twice the length is enough fuel. -/
def parse (text : String) : Except ReadError Json :=
  let cs := text.toList
  match Reader.value (2 * cs.length + 2) (Reader.skipBlanks cs) with
  | .ok (v, rest) => if (Reader.skipBlanks rest).isEmpty then .ok v else .error .malformed
  | .error e => .error e

end Json

end Lox
