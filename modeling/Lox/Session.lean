import Lox.Eval
import Lox.Program

/-!
# Sessions

A session is one machine on which programs are run one after another.  Definitions stay from one
program to the next, and whatever the end of a program was, the next one starts in the global scope
with no call open.  Events are told until the session is closed.
-/

namespace Lox

/-- How a session is set up. -/
structure Settings where
  /-- How many calls may be open at a time. -/
  maxDepth : Int := 200
  /-- Up to which level events are told. -/
  level : Nat := 0
  /-- What the natives do. -/
  host : Host := .ofClock fun _ => ⟨0⟩
deriving Inhabited

/-- A native function: its name, how many arguments it takes, and the function it stands for. -/
structure Native where
  name : Text
  arity : Int
  function : HostFunction
deriving DecidableEq, Inhabited, Repr

namespace Native

/-- A native as a value. -/
def toValue (n : Native) : Value := .native n.name n.arity n.function

/-- The native that is always there. -/
def clock : Native := ⟨"clock", 0, .clock⟩

end Native

/-- A machine with its settings. -/
structure Session where
  settings : Settings
  machine : Machine
  /-- Whether events are still told. -/
  telling : Bool
deriving Inhabited

/-- How many frames steps may nest when nothing is known of calls. -/
def baseFrames : Int := 1000

/-- How many frames are allowed for each call. -/
def framesPerCall : Int := 30

/-- How many frames steps may nest at all. -/
def frameLimit : Int := 20000

/-- How many frames steps may nest under a bound on open calls. -/
def framesFor (maxDepth : Int) : Nat :=
  (max baseFrames (min (baseFrames + framesPerCall * maxDepth) frameLimit)).toNat

/-- How many rounds a loop may make, which is more than any run gets to. -/
def roundLimit : Nat := 0x4000000000000000

namespace Session

/-- The number of the global scope. -/
def globals : Nat := 0

/-- A machine with only the global scope. -/
def freshMachine : Machine :=
  { heap := Heap.empty.push none, current := globals, depth := 0, lastCall := none,
    hostCalls := 0, output := #[], trace := #[] }

/-- Binds a native under a global name. -/
def bindNative (s : Session) (name : Text) (native : Native) : Session :=
  { s with machine :=
      { s.machine with heap := s.machine.heap.define globals (.text name) native.toValue } }

/-- Binds a native under its own name. -/
def defineNative (s : Session) (native : Native) : Session := s.bindNative native.name native

/-- A new session; further natives are bound under the given names, behind the clock. -/
def start (settings : Settings) (natives : List (Text × Native)) : Session :=
  let first : Session := ⟨settings, freshMachine, decide (0 < settings.level)⟩
  natives.foldl (fun s (name, native) => s.bindNative name native) (first.defineNative Native.clock)

/-- What is fixed while the session runs a program. -/
def config (s : Session) : Config :=
  { maxDepth := s.settings.maxDepth, level := if s.telling then s.settings.level else 0,
    host := s.settings.host, rounds := roundLimit }

/-- Runs statements, and gives the fault they end with, if any. -/
def interpret (s : Session) (statements : List Node) : Option Fault × Session :=
  match Lox.interpret s.config (framesFor s.settings.maxDepth) statements s.machine with
  | (fault, machine) => (fault, { s with machine := machine })

/-- Tells that so many statements are about to be run. -/
def announce (s : Session) (statements : Nat) : Session :=
  match Run.tell s.config (.started statements) s.machine with
  | .ok _ machine => { s with machine := machine }
  | .stop _ machine => { s with machine := machine }

/-- Tells no more events. -/
def close (s : Session) : Session := { s with telling := false }

/-- Runs statements and closes the session, whatever the end. -/
def run (s : Session) (statements : List Node) : Option Fault × Session :=
  match s.interpret statements with
  | (fault, next) => (fault, next.close)

/-- Sets how many calls may be open at a time. -/
def setMaxDepth (s : Session) (maxDepth : Int) : Session :=
  { s with settings := { s.settings with maxDepth := maxDepth } }

/-- The names bound in the global scope, with their values. -/
def globalBindings (s : Session) : List (Name × Value) :=
  match s.machine.heap.get? globals with
  | some scope => scope.bindings
  | none => []

/-- The lines printed. -/
def outputText (s : Session) : Text :=
  Text.join (s.machine.output.toList.map (· ++ "\n"))

/-- The lines that tell of the events, each of which is a string. -/
def traceText (s : Session) : String :=
  String.join (s.machine.trace.toList.map (·.text.head ++ "\n"))

end Session

namespace Node

/-- The statements of a tree that is a program: the items of a list, and for a text its characters,
none of which is a statement. -/
def statements? : Node → Option (List Node)
  | .list items => some items
  | .text t => some (t.points.map fun point => .text (.ofPoints [point]))
  | _ => none

end Node

namespace Session

/-- Runs a loaded tree and closes the session. -/
def runTree (s : Session) (tree : Node) : Option Fault × Session :=
  match tree.statements? with
  | some statements => s.run statements
  | none => (some .notAProgram, s.close)

end Session

end Lox
