import Lox.Host
import Lox.Scope
import Lox.Trace

/-!
# The machine

The state of a run: the scopes, the current one, how many calls are open, the latest call, how often
the host was called, and what was printed and told so far.  A step of a run gives a value or stops, and
either way hands the machine on.  A scope that is entered is left again on every way out (`inScope`), and
so is a call that was told (`leaving`).  A call is counted before it is told (`enterCall`), so it stays
counted when a run stops in between.
-/

namespace Lox

/-- What is fixed during a run. -/
structure Config where
  /-- How many calls may be open at a time. -/
  maxDepth : Int
  /-- Up to which level events are told; none at zero. -/
  level : Nat
  /-- What the natives do. -/
  host : Host
  /-- How many rounds a single loop may make. -/
  rounds : Nat
deriving Inhabited

/-- The state of a run. -/
structure Machine where
  heap : Heap Value
  /-- The number of the current scope. -/
  current : Nat
  /-- How many calls are open. -/
  depth : Nat
  /-- The closing parenthesis of the call entered last. -/
  lastCall : Option Token
  /-- How often the host was called. -/
  hostCalls : Nat
  /-- The lines printed. -/
  output : Array Text
  /-- The events told. -/
  trace : Array Event
deriving Inhabited

/-- Why a run stops before its end. -/
inductive Stop where
  | fault (f : Fault)
  /-- The bound on nested steps is used up. -/
  | exhausted
deriving DecidableEq

/-- The end of a step. -/
inductive Result (α : Type) where
  | ok (value : α) (machine : Machine)
  | stop (why : Stop) (machine : Machine)
deriving Inhabited

/-- A step of a run. -/
def Run (α : Type) : Type := Machine → Result α

namespace Run

variable {α β : Type}

/-- Does nothing. -/
@[always_inline, inline] def succeed (a : α) : Run α := fun m => .ok a m

/-- Goes on with the value of a step. -/
@[always_inline, inline] def andThen (p : Run α) (f : α → Run β) : Run β := fun m =>
  match p m with
  | .ok a m' => f a m'
  | .stop why m' => .stop why m'

@[always_inline]
instance : Monad Run where
  pure := succeed
  bind := andThen

/-- Stops with a fault. -/
def fault (f : Fault) : Run α := fun m => .stop (.fault f) m

/-- Stops because the bound on nested steps is used up. -/
def exhausted : Run α := fun m => .stop .exhausted m

/-! ### Telling and printing -/

/-- Tells an event, if its level is wanted and its line can be written. -/
def tell (config : Config) (event : Event) : Run Unit := fun m =>
  if event.level ≤ config.level then
    if event.text.isProper then .ok () { m with trace := m.trace.push event }
    else .stop (.fault .unwritable) m
  else .ok () m

/-- Prints a line. -/
def printLine (line : Text) : Run Unit := fun m =>
  .ok () { m with output := m.output.push line }

/-! ### Variables -/

/-- The names that data stands for. -/
def namesOf (names : List Json) : Run (List Name) := fun m =>
  match Name.ofJsonAll? names with
  | some found => .ok found m
  | none => .stop (.fault .notAName) m

/-- The value of a variable. -/
def lookup (t : Token) : Run Value := fun m =>
  match Name.ofJson? t.lexeme with
  | none => .stop (.fault .notAName) m
  | some name =>
    match m.heap.lookup? m.current name with
    | some v => .ok v m
    | none => .stop (.fault (.undefined t)) m

/-- Gives a variable a new value. -/
def assign (t : Token) (v : Value) : Run Unit := fun m =>
  match Name.ofJson? t.lexeme with
  | none => .stop (.fault .notAName) m
  | some name =>
    match m.heap.resolve? m.current name with
    | some found => .ok () { m with heap := m.heap.define found name v }
    | none => .stop (.fault (.undefined t)) m

/-- Binds the name of a token in the current scope. -/
def define (t : Token) (v : Value) : Run Unit := fun m =>
  match Name.ofJson? t.lexeme with
  | none => .stop (.fault .notAName) m
  | some name => .ok () { m with heap := m.heap.define m.current name v }

/-- The number of the current scope. -/
def currentScope : Run Nat := fun m => .ok m.current m

/-- Makes a scope inside another and binds names in it. -/
def newScope (enclosing : Nat) (bindings : List (Name × Value)) : Run Nat := fun m =>
  let id := m.heap.size
  .ok id { m with heap := (m.heap.push (some enclosing)).defineAll id bindings }

/-! ### Scopes and calls -/

/-- Makes another scope the current one for the length of a step. -/
@[inline] def inScope (id : Nat) (body : Run α) : Run α := fun m =>
  let saved := m.current
  match body { m with current := id } with
  | .ok a m' => .ok a { m' with current := saved }
  | .stop why m' => .stop why { m' with current := saved }

/-- Counts a call as open and keeps its closing parenthesis. -/
def enterCall (paren : Token) : Run Unit := fun m =>
  .ok () { m with depth := m.depth + 1, lastCall := some paren }

/-- Leaves the call that is open, whatever the end of a step is. -/
@[inline] def leaving (body : Run α) : Run α := fun m =>
  match body m with
  | .ok a m' => .ok a { m' with depth := m'.depth - 1 }
  | .stop why m' => .stop why { m' with depth := m'.depth - 1 }

/-- How many calls are open. -/
def openCalls : Run Nat := fun m => .ok m.depth m

/-- Calls a function of the host. -/
def callHost (config : Config) (function : HostFunction) (arguments : List Value) : Run Value := fun m =>
  let next := { m with hostCalls := m.hostCalls + 1 }
  match config.host.call function m.hostCalls arguments with
  | .value v => .ok v next
  | .raised error => .stop (.fault (.raised error)) next
  | .never => .stop (.fault .unfinished) next

/-! ### Sequences -/

/-- Runs a step for each item and collects the values. -/
def collect (f : β → Run α) : List β → Run (List α)
  | [] => pure []
  | b :: rest => do
    let a ← f b
    let as ← collect f rest
    pure (a :: as)

/-- Runs a step for each item, up to the first that gives a value. -/
def firstOf (f : β → Run (Option α)) : List β → Machine → Result (Option α)
  | [], m => .ok none m
  | b :: rest, m =>
    match f b m with
    | .ok none m' => firstOf f rest m'
    | .ok (some a) m' => .ok (some a) m'
    | .stop why m' => .stop why m'

/-- Repeats a body while a condition holds, up to the first round that gives a value. -/
def whileTrue (condition : Run Bool) (body : Run (Option α)) : Nat → Machine → Result (Option α)
  | 0, m => .stop (.fault .unfinished) m
  | rounds + 1, m =>
    match condition m with
    | .stop why m' => .stop why m'
    | .ok false m' => .ok none m'
    | .ok true m' =>
      match body m' with
      | .stop why m'' => .stop why m''
      | .ok (some a) m'' => .ok (some a) m''
      | .ok none m'' => whileTrue condition body rounds m''

end Run

end Lox
