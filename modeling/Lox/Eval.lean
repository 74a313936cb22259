import Lox.Machine

/-!
# Running trees

Expressions are evaluated to values and statements are executed for their effect; a statement
gives a value exactly when a `return` was executed in it, and the value then goes up to the call
that is open, or to the end of the program.  Each step inside another uses up one of the frames
that the run may nest; the arguments of a call take one together, and a call takes two for itself.
Before a call is told its callee is spelled out, and this nests deeper for a moment than the call does.
-/

namespace Lox

/-! ### Operators -/

/-- The value of an operator in front of its operand. -/
def applyUnary (operator : Token) (v : Value) : Except Fault Value :=
  match operator.kind with
  | .bang => .ok (.bool !v.isTruthy)
  | .minus =>
    match v with
    | .number x => .ok (.number x.neg)
    | _ => .error (.misuse operator (.operand v.kindName))
  | _ => .error (.misuse operator (.unsupportedUnary operator.lexemeText))

/-- The value of an operator between two numbers, if there is one. -/
def arithmetic? (kind : Kind) (x y : Number) : Option Value :=
  match kind with
  | .minus => some (.number (x.sub y))
  | .star => some (.number (x.mul y))
  | .slash => some (.number (x.div y))
  | .greater => some (.bool (y.lt x))
  | .greaterEqual => some (.bool (y.le x))
  | .less => some (.bool (x.lt y))
  | .lessEqual => some (.bool (x.le y))
  | _ => none

/-- The value of an operator between two operands. -/
def applyBinary (operator : Token) (a b : Value) : Except Fault Value :=
  match operator.kind with
  | .equalEqual => .ok (.bool (a.equals b))
  | .bangEqual => .ok (.bool !a.equals b)
  | .plus =>
    match a, b with
    | .number x, .number y => .ok (.number (x.add y))
    | .text s, .text t => .ok (.text (s ++ t))
    | _, _ => .error (.misuse operator (.additionOperands a.kindName b.kindName))
  | kind =>
    match a, b with
    | .number x, .number y =>
      match arithmetic? kind x y with
      | some v => .ok v
      | none => .error (.misuse operator (.unknownOperator operator.lexemeText))
    | _, _ => .error (.misuse operator (.operands a.kindName b.kindName))

/-- Whether the left operand of a logical operator is its value. -/
def decidesAlone (operator : Token) (left : Value) : Bool :=
  if operator.kind = .orWord then left.isTruthy else !left.isTruthy

namespace Run

/-- Goes on with a value or stops with a fault. -/
@[inline] def ofExcept {α : Type} : Except Fault α → Run α
  | .ok a => pure a
  | .error f => fault f

end Run

/-- Whether a value can be called with so many arguments while so many calls are open. -/
def checkCall (config : Config) (callee : Value) (given depth : Nat) (paren : Token) :
    Except Fault Unit :=
  match callee.arity? with
  | none => .error (.misuse paren (.notCallable callee.kindName))
  | some arity =>
    if (given : Int) ≠ arity then .error (.misuse paren (.arity arity given))
    else if config.maxDepth ≤ depth then .error (.overflow (some paren))
    else .ok ()

/-- How many frames more than the two of its call it takes to spell a callee out. -/
def Value.spellingFrames : Value → Nat
  | .function .. => 2
  | .native .. => 1
  | _ => 0

/-- Spells a callee out, if there are frames for it. -/
def Run.spell (frames : Nat) (callee : Value) : Run Unit :=
  if callee.spellingFrames ≤ frames then pure () else exhausted

/-! ### Expressions and statements -/

mutual

/-- The value of an expression. -/
def evaluate (config : Config) : Nat → Node → Run Value
  | 0, _ => Run.exhausted
  | frames + 1, node =>
    match node with
    | .literal value => pure (Value.ofNode value)
    | .grouping inner => evaluate config frames inner
    | .reference name => Run.lookup name
    | .assign name inner => do
      let v ← evaluate config frames inner
      Run.assign name v
      pure v
    | .logical left operator right => do
      let v ← evaluate config frames left
      if decidesAlone operator v then pure v else evaluate config frames right
    | .unary operator right => do
      let v ← evaluate config frames right
      Run.ofExcept (applyUnary operator v)
    | .binary left operator right => do
      let a ← evaluate config frames left
      let b ← evaluate config frames right
      Run.ofExcept (applyBinary operator a b)
    | .call callee paren arguments => do
      let f ← evaluate config frames callee
      let values ← evaluateAll config frames arguments
      invoke config frames f values paren
    | _ => Run.fault .malformed

/-- The values of the arguments of a call, in order. -/
def evaluateAll (config : Config) : Nat → List Node → Run (List Value)
  | 0, _ => Run.exhausted
  | frames + 1, arguments => Run.collect (evaluate config frames) arguments

/-- Calls a value. -/
def invoke (config : Config) : Nat → Value → List Value → Token → Run Value
  | frames + 2, callee, arguments, paren => do
    let depth ← Run.openCalls
    Run.ofExcept (checkCall config callee arguments.length depth paren)
    Run.enterCall paren
    Run.spell frames callee
    Run.tell config (.called callee (depth + 1))
    let v ← Run.leaving do
      match callee with
      | .function _ params body closure => do
        let names ← Run.namesOf params
        let id ← Run.newScope closure (names.zip arguments)
        let returned ← block config frames id body
        pure (returned.getD .nil)
      | .native _ _ function => Run.callHost config function arguments
      | _ => Run.fault .malformed
    Run.tell config (.returned v callee)
    pure v
  | _, _, _, _ => Run.exhausted

/-- Executes statements in a scope. -/
def block (config : Config) : Nat → Nat → List Node → Run (Option Value)
  | 0, _, _ => Run.exhausted
  | frames + 1, id, statements => Run.inScope id (Run.firstOf (execute config frames) statements)

/-- Executes a statement; the value of a `return` in it is handed on. -/
def execute (config : Config) : Nat → Node → Run (Option Value)
  | 0, _ => Run.exhausted
  | frames + 1, node =>
    match node with
    | .expression inner => do
      let _ ← evaluate config frames inner
      pure none
    | .print inner => do
      let v ← evaluate config frames inner
      Run.printLine v.display
      pure none
    | .declare name initializer => do
      let v ← match initializer with
        | .null => pure Value.nil
        | inner => evaluate config frames inner
      Run.define name v
      Run.tell config (.defined name.lexeme v)
      pure none
    | .block statements => do
      let id ← Run.newScope (← Run.currentScope) []
      block config frames id statements
    | .branch condition thenBranch elseBranch => do
      let v ← evaluate config frames condition
      Run.tell config (.decided v.isTruthy)
      if v.isTruthy then execute config frames thenBranch
      else
        match elseBranch with
        | .null => pure none
        | other => execute config frames other
    | .loop condition body =>
      Run.whileTrue (Value.isTruthy <$> evaluate config frames condition)
        (execute config frames body) config.rounds
    | .function name params body => do
      let closure ← Run.currentScope
      let names := params.map Token.lexeme
      Run.define name (.function name.lexeme names body closure)
      Run.tell config (.definedFunction name.lexeme names.length)
      pure none
    | .returns _ value =>
      match value with
      | .null => pure (some .nil)
      | inner => some <$> evaluate config frames inner
    | _ => Run.fault .malformed

end

/-! ### Programs -/

/-- Runs statements at the top level; a `return` ends them. -/
def runStatements (config : Config) (frames : Nat) (statements : List Node) : Run Unit := fun m =>
  match Run.firstOf (execute config frames) statements m with
  | .ok _ m' => .ok () m'
  | .stop why m' => .stop why m'

/-- The event that tells of the end of a run, if one does. -/
def endEvent : Option Stop → Option Event
  | none => some .finished
  | some .exhausted => some .hostLimit
  | some (.fault f) => f.label?.map fun label => .failed label f.message

/-- The fault that a run ends with; when the bound on nested steps is used up, it is found at the
latest call. -/
def faultOf (lastCall : Option Token) : Stop → Fault
  | .fault f => f
  | .exhausted => .overflow lastCall

/-- Ends a run: its end is told, and there is no latest call any more.  A run whose end cannot be told
ends with that. -/
def settle (config : Config) (why : Option Stop) (m : Machine) : Option Fault × Machine :=
  let fault := why.map (faultOf m.lastCall)
  match endEvent why with
  | none => (fault, { m with lastCall := none })
  | some event =>
    match Run.tell config event m with
    | .ok _ m' => (fault, { m' with lastCall := none })
    | .stop _ m' => (some .unwritable, { m' with lastCall := none })

/-- Runs a program, nesting at most so many steps, and gives the fault it ends with, if any. -/
def interpret (config : Config) (frames : Nat) (statements : List Node) (m : Machine) :
    Option Fault × Machine :=
  match (do Run.tell config (.started statements.length)
            runStatements config frames statements : Run Unit) m with
  | .ok _ m' => settle config none m'
  | .stop why m' => settle config (some why) m'

end Lox
