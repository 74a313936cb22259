import Lox.Value

/-!
# The host

Natives stand for functions of the host.  What these do is not part of the language: a `Host` says it,
and everything about a run holds for each of them or for those of which something is asked.  A function
of the host is given the values of the arguments, and it may remember how often the host was called
before, as a clock does.
-/

namespace Lox

/-- How a call of the host ends. -/
inductive Reply where
  | value (v : Value)
  /-- It gives up, with an error that is none of the language. -/
  | raised (error : String)
  /-- It does not end. -/
  | never
deriving Inhabited

/-- What the functions of the host do.  The first number of `clock` and the second of `reply` is how
often the host was called before. -/
structure Host where
  /-- What the clock shows. -/
  clock : Nat → Number
  /-- What the function with a number gives for its arguments. -/
  reply : Nat → Nat → List Value → Reply
deriving Inhabited

namespace Host

/-- What a function of the host gives for its arguments. -/
def call (host : Host) (function : HostFunction) (before : Nat) (arguments : List Value) : Reply :=
  match function with
  | .clock => .value (.number (host.clock before))
  | .given number => host.reply number before arguments

/-- A host with a clock and nothing else. -/
def ofClock (clock : Nat → Number) : Host := ⟨clock, fun _ _ _ => .raised ""⟩

end Host

end Lox
