import Lox.CommandLine.Options
import Lox.Files
import Lox.Json.Reader
import Lox.Json.Printer
import Lox.Node.Codec
import Lox.Session

/-!
# The command line

What a command line does in a directory: it writes the tree of a program, runs a tree or a program,
or reads programs line by line at a prompt.  The result is what was written to the two streams and
to files, and how the run ended.
-/

namespace Lox

namespace CommandLine

/-- What goes wrong without being reported to the user. -/
inductive Crash where
  /-- A directory stands where a file is needed. -/
  | isDirectory
  /-- A path, or a name in it, is too long. -/
  | nameTooLong
  /-- A file is no text. -/
  | notText
  /-- A text cannot be read as JSON. -/
  | notJson (e : Json.ReadError)
  /-- A JSON value is no tree. -/
  | notTree (e : LoadError)
  /-- There is an empty list in place of a bound on open calls, which cannot be calculated with. -/
  | noBound
  /-- A run ends with a fault that is none of the language. -/
  | fault (f : Fault)

/-- How a command line ends. -/
inductive Ending where
  /-- With a status. -/
  | exit (status : Nat)
  /-- Before anything was done. -/
  | refused (why : Refusal)
  | crashed (why : Crash)

/-- The status after a command line that cannot be understood. -/
def usageStatus : Nat := 64

/-- The status after a text that is no program. -/
def dataStatus : Nat := 65

/-- The status after a file that is not there. -/
def noInputStatus : Nat := 66

/-- The status after a run that ends with a fault. -/
def softwareStatus : Nat := 70

/-- What a command line did. -/
structure Report where
  ending : Ending
  stdout : Text := ""
  stderr : Text := ""
  /-- The files written. -/
  written : List (Path × String) := []

/-- What paths lead to. -/
abbrev View : Type := Path → Entry

/-- The file to which events are told. -/
def traceFile : Path := ⟨"", ["debug.txt"]⟩

/-- The file to which the tree of a program is written. -/
def treeFile (program : Path) : Path := program.extend ".ast.json"

/-- Why a file cannot be written, if it cannot. -/
def blocked? (view : View) (path : Path) : Option Crash :=
  match view path with
  | .directory => some .isDirectory
  | .tooLong => some .nameTooLong
  | _ => none

/-- How the command line is used. -/
def usageText : String :=
  "usage: lox [-h] [-v] [--max-depth N] [--emit-ast LOX_FILE | --ast AST_JSON_FILE] [program]\n"

/-! ### Reading -/

/-- The text of a file, or how the command line ends without it. -/
def readFile (view : View) (path : Path) : Except Report String :=
  match view path with
  | .missing =>
    .error { ending := .exit noInputStatus,
             stderr := "Error: file " ++ path.display ++ " not found\n" }
  | .directory => .error { ending := .crashed .isDirectory }
  | .tooLong => .error { ending := .crashed .nameTooLong }
  | .file bytes =>
    match textOfBytes? bytes with
    | some text => .ok text
    | none => .error { ending := .crashed .notText }

/-- The statements of a program file. -/
def readProgram (view : View) (path : Path) : Except Report (List Node) :=
  match readFile view path with
  | .error report => .error report
  | .ok source =>
    match Program.ofSource source with
    | .ok statements => .ok statements
    | .error e => .error { ending := .exit dataStatus, stderr := e.message ++ "\n" }

/-- The tree of a tree file. -/
def readTree (view : View) (path : Path) : Except Report Node :=
  match readFile view path with
  | .error report => .error report
  | .ok text =>
    match Json.parse text with
    | .error e => .error { ending := .crashed (.notJson e) }
    | .ok json =>
      match Node.ofJson json with
      | .ok tree => .ok tree
      | .error e => .error { ending := .crashed (.notTree e) }

/-! ### Acting -/

/-- Writes the tree of a program beside it. -/
def emitTree (view : View) (path : Path) : Report :=
  match readProgram view path with
  | .error report => report
  | .ok statements =>
    let target := treeFile path
    match blocked? view target with
    | some why => { ending := .crashed why }
    | none =>
      { ending := .exit 0, stdout := target.display ++ "\n",
        written := [(target, (Node.list statements).toJson.render (.indented 0))] }

/-- The session that a command line asks for. -/
def sessionFor (options : Options) (clock : Nat → Number) : Session :=
  let maxDepth := options.maxDepth.getD defaultMaxDepth
  Session.start { maxDepth := maxDepth, level := options.verbosity, host := .ofClock clock } []

/-- The file to which a session told its events, if it was asked to. -/
def traceWritten (s : Session) : List (Path × String) :=
  if 0 < s.settings.level then [(traceFile, s.traceText)] else []

/-- Why the file for the events of a session cannot be written, if one is asked for and cannot. -/
def traceBlocked? (view : View) (options : Options) : Option Crash :=
  if 0 < options.verbosity then blocked? view traceFile else none

/-- How a run ends. -/
inductive Outcome where
  | finished
  /-- With a fault of the language. -/
  | failed (f : Fault)
  | crashed (why : Crash)

namespace Outcome

/-- The outcome of a run that ends with a fault or without. -/
def ofFault : Option Fault → Outcome
  | none => .finished
  | some f => if f.label?.isSome then .failed f else .crashed (.fault f)

/-- How the command line ends with the run. -/
def ending : Outcome → Ending
  | .finished => .exit 0
  | .failed _ => .exit softwareStatus
  | .crashed why => .crashed why

/-- What is written to the error stream at the end of the run. -/
def complaint : Outcome → Text
  | .failed f => f.message ++ "\n"
  | _ => ""

end Outcome

/-- Runs statements in a session.  Without a bound on open calls the run ends as soon as it was
announced. -/
def interpret (options : Options) (s : Session) (statements : List Node) : Outcome × Session :=
  match options.maxDepth with
  | none => (.crashed .noBound, s.announce statements.length)
  | some _ =>
    match s.interpret statements with
    | (fault, next) => (.ofFault fault, next)

/-- Runs a tree in a session. -/
def runTree (options : Options) (s : Session) (tree : Node) : Outcome × Session :=
  match tree.statements? with
  | none => (.crashed (.fault .notAProgram), s)
  | some statements => interpret options s statements

/-- Runs a tree and reports. -/
def runAndReport (view : View) (options : Options) (clock : Nat → Number) (tree : Node) : Report :=
  match traceBlocked? view options with
  | some why => { ending := .crashed why }
  | none =>
    match runTree options (sessionFor options clock) tree with
    | (outcome, s) =>
      { ending := outcome.ending, stdout := s.outputText, stderr := outcome.complaint,
        written := traceWritten s }

/-! ### The prompt -/

/-- What is written before each line is read. -/
def promptMark : String := "> "

/-- What a line at the prompt leads to. -/
structure Answer where
  /-- The session behind the line, whose output is that of the line. -/
  session : Session
  /-- What is written to the error stream. -/
  complaint : Text
  /-- Why the prompt ends with the line, if it does. -/
  crash : Option Crash

/-- Runs a line at the prompt.  What is wrong with it is reported, unless it is no fault of the
language. -/
def promptLine (options : Options) (s : Session) (line : String) : Answer :=
  let silent : Session := { s with machine := { s.machine with output := #[] } }
  match Program.ofSource line with
  | .error e => ⟨silent, e.message ++ "\n", none⟩
  | .ok statements =>
    match interpret options silent statements with
    | (.crashed why, next) => ⟨next, "", some why⟩
    | (outcome, next) => ⟨next, outcome.complaint, none⟩

/-- Runs lines at the prompt one after another, up to their end or a crash. -/
def promptLines (options : Options) : Session → List String → Report
  | s, [] => { ending := .exit 0, stdout := promptMark ++ "\n", written := traceWritten s }
  | s, line :: rest =>
    let answer := promptLine options s line
    let told : Text := promptMark ++ answer.session.outputText
    match answer.crash with
    | some why =>
      { ending := .crashed why, stdout := told, stderr := answer.complaint,
        written := traceWritten answer.session }
    | none =>
      let report := promptLines options answer.session rest
      { report with stdout := told ++ report.stdout, stderr := answer.complaint ++ report.stderr }

/-- The lines of a text; a line break at the end starts no line. -/
def linesOf (text : String) : List String :=
  let lines := (text.toList.splitOn '\n').map String.ofList
  if lines.getLast? = some "" then lines.dropLast else lines

/-- Runs the prompt on the lines of a text. -/
def prompt (view : View) (options : Options) (clock : Nat → Number) (input : String) : Report :=
  match traceBlocked? view options with
  | some why => { ending := .crashed why }
  | none => promptLines options (sessionFor options clock) (linesOf input)

/-! ### Commands -/

/-- What a command line does. -/
inductive Command where
  | emitTree (path : Path)
  | runTree (path : Path)
  | runProgram (path : Path)
  | prompt
deriving DecidableEq, Inhabited, Repr

/-- The path that an option names; an empty one names none. -/
def named? (option : Option String) : Option Path :=
  match option with
  | none => none
  | some text => if text.isEmpty then none else some (Path.ofText text)

/-- What the options ask to be done. -/
def commandOf (options : Options) : Command :=
  match named? options.emitTree, named? options.runTree, named? options.program with
  | some path, _, _ => .emitTree path
  | none, some path, _ => .runTree path
  | none, none, some path => .runProgram path
  | none, none, none => .prompt

/-- Does what the options ask for. -/
def act (options : Options) (view : View) (clock : Nat → Number) (input : String) : Report :=
  match commandOf options with
  | .emitTree path => emitTree view path
  | .runTree path =>
    match readTree view path with
    | .error report => report
    | .ok tree => runAndReport view options clock tree
  | .runProgram path =>
    match readProgram view path with
    | .error report => report
    | .ok statements => runAndReport view options clock (.list statements)
  | .prompt => prompt view options clock (String.ofList (unifyLines input.toList))

/-- Runs a command line, with a view of the files there are, what the clock shows each time it is read,
and the text of the input stream. -/
def run (arguments : List String) (view : View) (clock : Nat → Number) (input : String) : Report :=
  match parse arguments with
  | .error refusal => { ending := .refused refusal }
  | .ok options => act options view clock input

end CommandLine

end Lox
