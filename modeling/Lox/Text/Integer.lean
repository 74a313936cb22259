/-!
# Integers in text

The spelling of an integer on the command line: blanks around it, a sign, and decimal digits of any
script, with single underscores between them.  An integer with too many digits is not read, neither
here nor in a tree file (`integerDigitLimit`).
-/

namespace Lox

/-- The digits zero of all scripts; the digits one to nine follow each of them. -/
def digitZeros : List Nat :=
  [0x30, 0x660, 0x6f0, 0x7c0, 0x966, 0x9e6, 0xa66, 0xae6, 0xb66, 0xbe6, 0xc66, 0xce6, 0xd66, 0xde6,
    0xe50, 0xed0, 0xf20, 0x1040, 0x1090, 0x17e0, 0x1810, 0x1946, 0x19d0, 0x1a80, 0x1a90, 0x1b50,
    0x1bb0, 0x1c40, 0x1c50, 0xa620, 0xa8d0, 0xa900, 0xa9d0, 0xa9f0, 0xaa50, 0xabf0, 0xff10, 0x104a0,
    0x10d30, 0x11066, 0x110f0, 0x11136, 0x111d0, 0x112f0, 0x11450, 0x114d0, 0x11650, 0x116c0,
    0x11730, 0x118e0, 0x11950, 0x11c50, 0x11d50, 0x11da0, 0x16a60, 0x16ac0, 0x16b50, 0x1d7ce,
    0x1d7d8, 0x1d7e2, 0x1d7ec, 0x1d7f6, 0x1e140, 0x1e2f0, 0x1e950, 0x1fbf0]

/-- The value of a decimal digit of any script. -/
def digitValue? (c : Char) : Option Nat :=
  (digitZeros.find? fun first => first ≤ c.toNat && c.toNat < first + 10).map (c.toNat - ·)

/-- Whether a character is a decimal digit of any script. -/
def isDecimal (c : Char) : Bool := (digitValue? c).isSome

/-- The blanks that may stand around an integer. -/
def isSpace (c : Char) : Bool :=
  let n := c.toNat
  (0x09 ≤ n && n ≤ 0x0d) || n = 0x20 || n = 0x85 || n = 0xa0 || n = 0x1680 ||
    (0x2000 ≤ n && n ≤ 0x200a) || n = 0x2028 || n = 0x2029 || n = 0x202f || n = 0x205f || n = 0x3000

/-- The values of digits with single underscores between them, behind a first digit. -/
def moreDigits? : List Char → Option (List Nat)
  | [] => some []
  | '_' :: c :: rest =>
    match digitValue? c, moreDigits? rest with
    | some d, some ds => some (d :: ds)
    | _, _ => none
  | c :: rest =>
    match digitValue? c, moreDigits? rest with
    | some d, some ds => some (d :: ds)
    | _, _ => none

/-- The values of the digits of an integer without its sign; it starts with a digit. -/
def digits? : List Char → Option (List Nat)
  | [] => none
  | c :: rest =>
    match digitValue? c, moreDigits? rest with
    | some d, some ds => some (d :: ds)
    | _, _ => none

/-- The largest number of digits that an integer may be written with, zeros in front included. -/
def integerDigitLimit : Nat := 4300

/-- Reads an integer without its sign. -/
def readNatural? (cs : List Char) : Option Nat :=
  match digits? cs with
  | none => none
  | some ds =>
    if ds.length ≤ integerDigitLimit then some (ds.foldl (fun n d => 10 * n + d) 0) else none

/-- A text without the blanks around it. -/
def stripSpaces (cs : List Char) : List Char :=
  ((cs.dropWhile isSpace).reverse.dropWhile isSpace).reverse

/-- Reads an integer. -/
def readInteger? (text : String) : Option Int :=
  match stripSpaces text.toList with
  | '-' :: digits => (readNatural? digits).map fun n => -(n : Int)
  | '+' :: digits => (readNatural? digits).map fun n => (n : Int)
  | digits => (readNatural? digits).map fun n => (n : Int)

end Lox
