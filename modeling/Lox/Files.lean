/-!
# Files

Paths, and a disk with files on it.  A path is shown without the parts that say nothing, but a
step to the enclosing directory is kept, because it means something only where the directory before
it is there.  Names and paths have a largest size.
-/

namespace Lox

/-- The largest size of a name, in bytes. -/
def nameLimit : Nat := 255

/-- The largest size of a path, in bytes. -/
def pathLimit : Nat := 4095

/-- A path: what it starts from, and the names along it. -/
structure Path where
  root : String
  parts : List String
deriving DecidableEq, Inhabited, Repr

namespace Path

/-- The names in a text with slashes; empty ones and single dots say nothing. -/
def partsOf (text : String) : List String :=
  ((text.toList.splitOn '/').map String.ofList).filter fun part => part ≠ "" && part ≠ "."

/-- What a path starts from: nothing, the root, or the root marked by exactly two slashes. -/
def rootOf (text : String) : String :=
  match text.toList with
  | '/' :: '/' :: '/' :: _ => "/"
  | '/' :: '/' :: _ => "//"
  | '/' :: _ => "/"
  | _ => ""

/-- Reads a path. -/
def ofText (text : String) : Path := ⟨rootOf text, partsOf text⟩

/-- How a path is shown. -/
def display (p : Path) : String :=
  let text := p.root ++ String.intercalate "/" p.parts
  if text.isEmpty then "." else text

/-- Whether a path is too long to be followed. -/
def isTooLong (p : Path) : Bool := pathLimit < p.display.utf8ByteSize

/-- Whether a path holds the character that no path can hold. -/
def hasNul (p : Path) : Bool := p.parts.any fun part => part.toList.contains '\x00'

/-- The path with an ending added to its last name. -/
def extend (p : Path) (ending : String) : Path :=
  match p.parts.getLast? with
  | none => p
  | some name => { p with parts := p.parts.dropLast ++ [name ++ ending] }

end Path

/-- What a path leads to. -/
inductive Entry where
  | missing
  | directory
  | file (bytes : ByteArray)
  /-- The path, or a name that is reached along it, is too long. -/
  | tooLong

/-- The files of a disk, each with the names that lead to it from the root, and the names that lead to
the directory in which paths without a root start. -/
structure Disk where
  files : List (List String × ByteArray)
  here : List String := []

namespace Disk

/-- What is found under exactly these names. -/
def entryAt (d : Disk) (names : List String) : Entry :=
  match d.files.lookup names with
  | some bytes => .file bytes
  | none =>
    if names.isPrefixOf d.here || d.files.any fun (other, _) => names.isPrefixOf other then .directory
    else .missing

/-- Whether these names lead to a directory. -/
def isDirectory (d : Disk) (names : List String) : Bool :=
  match d.entryAt names with
  | .directory => true
  | _ => false

/-- Where a path leads. -/
inductive Target where
  /-- To a place with these names. -/
  | place (names : List String)
  | nowhere
  /-- Over a name that is too long. -/
  | tooLong
deriving DecidableEq, Inhabited, Repr

/-- Follows one name; only a directory can be gone through, and the one around the root is the root. -/
def follow (d : Disk) : Target → String → Target
  | .place names, part =>
    if !d.isDirectory names then .nowhere
    else if part = ".." then .place names.dropLast
    else if nameLimit < part.utf8ByteSize then .tooLong
    else .place (names ++ [part])
  | .nowhere, _ => .nowhere
  | .tooLong, _ => .tooLong

/-- The place where a path starts. -/
def start (d : Disk) (p : Path) : List String := if p.root.isEmpty then d.here else []

/-- Where a path leads. -/
def resolve (d : Disk) (p : Path) : Target :=
  if p.hasNul then .nowhere
  else if p.isTooLong then .tooLong
  else p.parts.foldl d.follow (.place (d.start p))

/-- What a path leads to. -/
def entry (d : Disk) (p : Path) : Entry :=
  match d.resolve p with
  | .place names => d.entryAt names
  | .nowhere => .missing
  | .tooLong => .tooLong

/-- Writes a file under exactly these names. -/
def put (d : Disk) (names : List String) (text : String) : Disk :=
  { d with files := (names, text.toUTF8) :: d.files.filter fun (other, _) => other ≠ names }

/-- The disk after a file was written. -/
def write (d : Disk) (p : Path) (text : String) : Disk :=
  match d.resolve p with
  | .place names => d.put names text
  | _ => d

end Disk

/-- Goes on with a text whose line breaks are written as one character, the characters so far
standing last one first. -/
def unifyLinesFrom : List Char → List Char → List Char
  | done, [] => done.reverse
  | done, '\r' :: '\n' :: rest => unifyLinesFrom ('\n' :: done) rest
  | done, '\r' :: rest => unifyLinesFrom ('\n' :: done) rest
  | done, c :: rest => unifyLinesFrom (c :: done) rest

/-- A text with every kind of line break written as one character. -/
def unifyLines (cs : List Char) : List Char := unifyLinesFrom [] cs

/-- The text of a file, if its bytes are text. -/
def textOfBytes? (bytes : ByteArray) : Option String :=
  (String.fromUTF8? bytes).map fun text => String.ofList (unifyLines text.toList)

end Lox
