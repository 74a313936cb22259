import Lox.Fault

/-!
# Traces

What a run tells about itself.  Every event has a level: starts, ends and errors are on the first,
definitions on the second, calls, returns and decisions on the third.
-/

namespace Lox

/-- Something that happens in a run. -/
inductive Event where
  | started (statements : Nat)
  | finished
  | failed (label : String) (message : Text)
  | hostLimit
  | defined (name : Json) (value : Value)
  | definedFunction (name : Json) (arity : Nat)
  | decided (truth : Bool)
  | called (callee : Value) (depth : Nat)
  | returned (value callee : Value)
deriving Inhabited

namespace Event

/-- The level from which on an event is told. -/
def level : Event → Nat
  | .started _ | .finished | .failed .. | .hostLimit => 1
  | .defined .. | .definedFunction .. => 2
  | .decided _ | .called .. | .returned .. => 3

/-- The line that tells of an event. -/
def text : Event → Text
  | .started n => "interpret " ++ toString n ++ " statement(s)"
  | .finished => "finished"
  | .failed label message => "error: " ++ label ++ ": " ++ message
  | .hostLimit => "error: host recursion limit reached"
  | .defined name value => "define " ++ name.subject ++ " = " ++ value.display
  | .definedFunction name arity => "define function " ++ name.subject ++ "/" ++ toString arity
  | .decided truth => "if condition -> " ++ (Node.bool truth).dataText
  | .called callee depth => "call " ++ callee.dataText ++ " depth=" ++ toString depth
  | .returned value callee => "return " ++ value.display ++ " from " ++ callee.dataText

end Event

end Lox
