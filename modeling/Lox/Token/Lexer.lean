import Lox.Token

/-!
# From text to tokens

The text is cut into pieces from left to right: runs of blanks, comments up to the end of their
line, numbers, strings between quotes, words and operators.  Each time the longest piece is taken.
Blanks and comments are dropped, every other piece is a token, and a token for the end of the text
closes the list.
-/

namespace Lox

/-! ### Positions -/

/-- A place in a text, both counts starting at one. -/
structure Position where
  line : Nat
  column : Nat
deriving DecidableEq, Inhabited, Repr

namespace Position

/-- The place of the first character. -/
def start : Position := ⟨1, 1⟩

/-- The place behind a character. -/
def step (p : Position) (c : Char) : Position :=
  if c = '\n' then ⟨p.line + 1, 1⟩ else ⟨p.line, p.column + 1⟩

/-- The place behind a text. -/
def after (p : Position) (text : List Char) : Position := text.foldl step p

end Position

/-! ### Errors -/

/-- Why a text cannot be cut into tokens. -/
inductive ScanCause where
  /-- A string has no closing quote. -/
  | unterminatedString
  /-- No piece starts with this character. -/
  | unexpected (c : Char)
deriving DecidableEq, Repr

namespace ScanCause

/-- The wording of a cause. -/
def text : ScanCause → String
  | .unterminatedString => "Unterminated string."
  | .unexpected c => "Unexpected character " ++ quoted (String.singleton c) ++ "."

end ScanCause

/-- The place at which no piece starts, and why. -/
structure ScanError where
  position : Position
  cause : ScanCause
deriving DecidableEq, Repr

namespace ScanError

/-- The whole message. -/
def message (e : ScanError) : String :=
  "[line " ++ toString e.position.line ++ "] Error: " ++ e.cause.text

end ScanError

namespace Lexer

/-! ### Pieces -/

/-- A piece at the front of a text: its kind unless it is dropped, its characters, and what is left
behind it. -/
structure Piece where
  kind : Option Kind
  text : List Char
  rest : List Char
deriving DecidableEq, Inhabited, Repr

/-- White space. -/
def isBlank (c : Char) : Bool :=
  c = ' ' || c = '\t' || c = '\x0c' || c = '\r' || c = '\n'

/-- A character with which a word starts. -/
def isNameStart (c : Char) : Bool := c.isAlpha || c = '_'

/-- A character with which a word goes on. -/
def isNamePart (c : Char) : Bool := c.isAlphanum || c = '_'

/-- The words that are no identifiers. -/
def keywords : List (String × Kind) :=
  [("and", .andWord), ("class", .classWord), ("else", .elseWord), ("false", .falseWord),
    ("fun", .funWord), ("for", .forWord), ("if", .ifWord), ("nil", .nilWord), ("or", .orWord),
    ("print", .printWord), ("return", .returnWord), ("true", .trueWord), ("var", .varWord),
    ("while", .whileWord)]

/-- The kind of a word. -/
def wordKind (text : List Char) : Kind :=
  (keywords.lookup (String.ofList text)).getD .identifier

/-- The operators; one that another starts with comes behind it. -/
def operators : List (List Char × Kind) :=
  [(['!', '='], .bangEqual), (['=', '='], .equalEqual), (['>', '='], .greaterEqual),
    (['<', '='], .lessEqual), (['('], .leftParen), ([')'], .rightParen), (['\x7b'], .leftBrace),
    (['\x7d'], .rightBrace), ([','], .comma), (['.'], .dot), (['-'], .minus), (['+'], .plus),
    ([';'], .semicolon), (['/'], .slash), (['*'], .star), (['!'], .bang), (['='], .equal),
    (['>'], .greater), (['<'], .less)]

/-- What is left behind a fixed text at the front. -/
def behind? : List Char → List Char → Option (List Char)
  | [], cs => some cs
  | _ :: _, [] => none
  | w :: ws, c :: cs => if w = c then behind? ws cs else none

/-- The run of characters of one class at the front. -/
def run (kind : Option Kind) (member : Char → Bool) (cs : List Char) : Piece :=
  ⟨kind, cs.takeWhile member, cs.dropWhile member⟩

/-- A number: digits, and a point with more digits if at least one follows the point. -/
def numeral (cs : List Char) : Piece :=
  let whole := cs.takeWhile Char.isDigit
  match cs.dropWhile Char.isDigit with
  | '.' :: d :: rest =>
    if d.isDigit then
      ⟨some .number, whole ++ '.' :: d :: rest.takeWhile Char.isDigit, rest.dropWhile Char.isDigit⟩
    else ⟨some .number, whole, '.' :: d :: rest⟩
  | rest => ⟨some .number, whole, rest⟩

/-- A string, from behind its opening quote up to the closing one. -/
def string? (cs : List Char) : Option Piece :=
  let body := cs.takeWhile (· ≠ '"')
  match cs.dropWhile (· ≠ '"') with
  | [] => none
  | quote :: rest => some ⟨some .string, '"' :: (body ++ [quote]), rest⟩

/-- A word. -/
def word (cs : List Char) : Piece :=
  let text := cs.takeWhile isNamePart
  ⟨some (wordKind text), text, cs.dropWhile isNamePart⟩

/-- An operator. -/
def operator? (cs : List Char) : Option Piece :=
  operators.findSome? fun (text, kind) => (behind? text cs).map fun rest => ⟨some kind, text, rest⟩

/-- The piece at the front of a text. -/
def piece? : List Char → Option Piece
  | [] => none
  | c :: rest =>
    if isBlank c then some (run none isBlank (c :: rest))
    else if c = '/' && rest.head? = some '/' then some (run none (· ≠ '\n') (c :: rest))
    else if c.isDigit then some (numeral (c :: rest))
    else if c = '"' then string? rest
    else if isNameStart c then some (word (c :: rest))
    else operator? (c :: rest)

/-! ### Tokens -/

/-- The value of a number's text. -/
def numeralValue (text : List Char) : Number :=
  (Decimal.ofPlaces (text.takeWhile Char.isDigit)
    ((text.dropWhile Char.isDigit).drop 1)).toNumber false

/-- The value that the text of a token denotes. -/
def literalOf (kind : Kind) (text : List Char) : Json :=
  match kind with
  | .number => .float (numeralValue text)
  | .string => .word (String.ofList (text.drop 1).dropLast)
  | .identifier => .word (String.ofList text)
  | _ => .null

/-- The token of a piece that starts on a line. -/
def tokenOf (kind : Kind) (text : List Char) (line : Nat) : Token :=
  .ofText kind (String.ofList text) (literalOf kind text) line

/-- The token that closes a list. -/
def endToken (line : Nat) : Token := .ofText .eof "" .null line

/-- What is wrong at a character with which no piece starts. -/
def causeAt (c : Char) : ScanCause := if c = '"' then .unterminatedString else .unexpected c

/-- Cuts the rest of a text, the tokens found so far standing last one first.  Every piece has a
character at least, so the length of the rest is enough fuel. -/
def scanFrom : Nat → Position → List Token → List Char → Except ScanError (List Token)
  | _, place, done, [] => .ok (endToken place.line :: done).reverse
  | 0, place, _, c :: _ => .error ⟨place, causeAt c⟩
  | fuel + 1, place, done, c :: rest =>
    match piece? (c :: rest) with
    | none => .error ⟨place, causeAt c⟩
    | some piece =>
      let found := match piece.kind with
        | none => done
        | some kind => tokenOf kind piece.text place.line :: done
      scanFrom fuel (place.after piece.text) found piece.rest

end Lexer

/-- The tokens of a program text, the last one of the kind `eof`. -/
def scan (source : String) : Except ScanError (List Token) :=
  let cs := source.toList
  Lexer.scanFrom cs.length Position.start [] cs

end Lox
