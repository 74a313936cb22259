import Lox.Text.Integer

/-!
# Options

The words of a command line, and what they ask for.  First every word is told apart as an option or
a value, then the options are taken in order.  A long option may be cut short as long as only one
starts so, short ones may be written together, and behind `--` every word is a value.  Letters
written together are all taken or none, so a letter that is no option is an error at once.  A word
that is not understood is an error only when nothing else ended the reading before.
-/

namespace Lox

namespace CommandLine

/-- The bound on open calls when none is given. -/
def defaultMaxDepth : Int := 200

/-- What a command line asks for. -/
structure Options where
  /-- How often more detail was asked for. -/
  verbosity : Nat := 0
  /-- How many calls may be open at a time; two dashes behind the equals sign take the number
  away. -/
  maxDepth : Option Int := some defaultMaxDepth
  /-- A program whose tree is to be written. -/
  emitTree : Option String := none
  /-- A tree that is to be run. -/
  runTree : Option String := none
  /-- A program that is to be run. -/
  program : Option String := none
deriving DecidableEq, Inhabited, Repr

/-- Why a command line gives no options. -/
inductive Refusal where
  /-- Help was asked for. -/
  | help
  /-- It cannot be understood. -/
  | usage
deriving DecidableEq, Inhabited, Repr

/-- The options. -/
inductive Flag where
  | help | verbose | maxDepth | emitTree | runTree
deriving DecidableEq, Inhabited, Repr

namespace Flag

/-- The long names. -/
def longNames : List (List Char × Flag) :=
  [("--help".toList, .help), ("--max-depth".toList, .maxDepth), ("--emit-ast".toList, .emitTree),
    ("--ast".toList, .runTree)]

/-- The option with a one-letter name. -/
def ofLetter? (c : Char) : Option Flag :=
  if c = 'h' then some .help else if c = 'v' then some .verbose else none

/-- Whether a value belongs to an option. -/
def takesValue : Flag → Bool
  | .help | .verbose => false
  | .maxDepth | .emitTree | .runTree => true

end Flag

/-! ### Words -/

/-- What a word of a command line is. -/
inductive Word where
  /-- The two dashes behind which all words are values. -/
  | dashes
  | value (text : String)
  /-- An option that does not exist. -/
  | unknown
  /-- One-letter options written together. -/
  | letters (first : Flag) (rest : List Char)
  /-- A long option, and the text behind an equals sign. -/
  | long (flag : Flag) (attached : Option String)
deriving DecidableEq, Inhabited, Repr

/-- What stands before and behind the first equals sign. -/
def splitEquals (cs : List Char) : List Char × Option String :=
  match cs.dropWhile (· ≠ '=') with
  | [] => (cs, none)
  | _ :: attached => (cs.takeWhile (· ≠ '='), some (String.ofList attached))

/-- Whether a word is a negative number, which is a value; a line break may end it. -/
def isNegativeNumber (cs : List Char) : Bool :=
  match cs with
  | '-' :: digits =>
    let body := if digits.getLast? = some '\n' then digits.dropLast else digits
    let behind := body.dropWhile isDecimal
    match behind with
    | [] => !body.isEmpty
    | c :: places => c = '.' && !places.isEmpty && places.all isDecimal
  | _ => false

/-- A word that starts with a dash and names no option. -/
def otherWord (cs : List Char) : Word :=
  if isNegativeNumber cs || cs.contains ' ' then .value (String.ofList cs) else .unknown

/-- The option that a long name stands for, if only one starts so. -/
def longWord (cs : List Char) : Option Word :=
  let (name, attached) := splitEquals cs
  match Flag.longNames.filter fun (full, _) => name.isPrefixOf full with
  | [] => some (otherWord cs)
  | [(_, flag)] => some (.long flag attached)
  | _ => none

/-- What a word is, unless it could be more than one option. -/
def wordOf (text : String) : Option Word :=
  match text.toList with
  | '-' :: '-' :: rest => longWord ('-' :: '-' :: rest)
  | '-' :: c :: rest =>
    match Flag.ofLetter? c with
    | some flag => some (.letters flag rest)
    | none => some (otherWord ('-' :: c :: rest))
  | _ => some (.value text)

/-- What the words of a command line are. -/
def wordsOf : List String → Option (List Word)
  | [] => some []
  | text :: rest =>
    if text = "--" then some (.dashes :: rest.map .value)
    else
      match wordOf text, wordsOf rest with
      | some word, some words => some (word :: words)
      | _, _ => none

/-! ### Taking options -/

/-- How far the reading of a command line has come. -/
structure Progress where
  options : Options := {}
  /-- Whether the place of the program is taken. -/
  placed : Bool := false
  /-- Whether there is a word that is not understood. -/
  extra : Bool := false
deriving DecidableEq, Inhabited, Repr

/-- The options that letters stand for, if all of them are options. -/
def flagsOf? : List Char → Option (List Flag)
  | [] => some []
  | c :: rest =>
    match Flag.ofLetter? c, flagsOf? rest with
    | some flag, some flags => some (flag :: flags)
    | _, _ => none

/-- The letters behind a first one; an equals sign may stand in between if letters follow it. -/
def lettersBehind : List Char → List Char
  | '=' :: c :: rest => c :: rest
  | cs => cs

/-- Takes an option that has no value. -/
def takeFlag (p : Progress) : Flag → Except Refusal Progress
  | .help => .error .help
  | .verbose => .ok { p with options := { p.options with verbosity := p.options.verbosity + 1 } }
  | _ => .error .usage

/-- Takes options that have no value, in order. -/
def takeFlags (p : Progress) : List Flag → Except Refusal Progress
  | [] => .ok p
  | flag :: rest =>
    match takeFlag p flag with
    | .ok next => takeFlags next rest
    | .error refusal => .error refusal

/-- Takes an option whose value is missing although an equals sign stands for it.  A file that is
named so is none, but counts as named. -/
def takeNothing (p : Progress) (flag : Flag) : Except Refusal Progress :=
  match flag with
  | .maxDepth => .ok { p with options := { p.options with maxDepth := none } }
  | .emitTree =>
    if p.options.runTree.isSome then .error .usage
    else .ok { p with options := { p.options with emitTree := some "" } }
  | .runTree =>
    if p.options.emitTree.isSome then .error .usage
    else .ok { p with options := { p.options with runTree := some "" } }
  | _ => .error .usage

/-- Takes an option with its value; a program and a tree cannot both be named. -/
def takeValue (p : Progress) (flag : Flag) (text : String) : Except Refusal Progress :=
  match flag with
  | .maxDepth =>
    match readInteger? text with
    | some n => .ok { p with options := { p.options with maxDepth := some n } }
    | none => .error .usage
  | .emitTree =>
    if p.options.runTree.isSome then .error .usage
    else .ok { p with options := { p.options with emitTree := some text } }
  | .runTree =>
    if p.options.emitTree.isSome then .error .usage
    else .ok { p with options := { p.options with runTree := some text } }
  | _ => .error .usage

/-- Takes an option with what stands behind its equals sign; two dashes there are no value. -/
def takeAttached (p : Progress) (flag : Flag) (attached : String) : Except Refusal Progress :=
  if attached = "--" then takeNothing p flag else takeValue p flag attached

/-- Puts a value in the place of the program, if that is free. -/
def place (p : Progress) (text : String) : Progress :=
  if p.placed then { p with extra := true }
  else { p with options := { p.options with program := some text }, placed := true }

/-- Takes the words of a command line in order.  Two dashes belong to the program next to them;
otherwise they are a word that is not understood. -/
def takeWords : Progress → List Word → Except Refusal Progress
  | p, [] => .ok p
  | p, .unknown :: rest => takeWords { p with extra := true } rest
  | p, .letters first more :: rest =>
    match flagsOf? (lettersBehind more) with
    | none => .error .usage
    | some flags =>
      match takeFlags p (first :: flags) with
      | .error refusal => .error refusal
      | .ok next => takeWords next rest
  | p, .long flag (some attached) :: rest =>
    match takeAttached p flag attached with
    | .error refusal => .error refusal
    | .ok next => takeWords next rest
  | p, .long flag none :: rest =>
    if flag.takesValue then
      match rest with
      | .value text :: behind =>
        match takeValue p flag text with
        | .error refusal => .error refusal
        | .ok next => takeWords next behind
      | _ => .error .usage
    else
      match takeFlag p flag with
      | .error refusal => .error refusal
      | .ok next => takeWords next rest
  | p, .value text :: .dashes :: rest => takeWords (place p text) rest
  | p, .value text :: rest => takeWords (place p text) rest
  | p, .dashes :: rest =>
    let next := if p.placed then { p with extra := true } else { p with placed := rest.isEmpty }
    takeWords next rest

/-- The options of a command line. -/
def parse (arguments : List String) : Except Refusal Options :=
  match wordsOf arguments with
  | none => .error .usage
  | some words =>
    match takeWords {} words with
    | .error refusal => .error refusal
    | .ok p => if p.extra then .error .usage else .ok p.options

end CommandLine

end Lox
