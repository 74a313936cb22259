import Lox.Proofs.Eval.Frames
import Lox.Proofs.Eval.Unwinding
import Lox.Proofs.Session

/-!
# Where the frames run out

When the bound on nested steps is used up, the fault is found at the call that was entered last.  The
machine keeps this one call and does not forget it when the call is left, so the fault need not be
inside it.

* `interpret_exhausted`: the fault, in terms of the record of calls of a run by unwinding.
* `Session.overflow_at_latest`: as long as the call entered last is open, it is the innermost one.
-/

namespace Lox

/-- The calls entered and left up to the end of a step. -/
def Ending.calls {α : Type} : Ending α → List CallEvent
  | .done _ _ calls => calls
  | .raised _ _ calls => calls
  | .stop _ _ calls => calls

open CallEvent (latest opened)

/-- If the call entered last is not left, it is the innermost one. -/
theorem CallEvent.latest_eq_head? {calls : List CallEvent} (h : calls.head? ≠ some .left) :
    latest calls = (opened calls).head? := by
  match calls with
  | [] => rfl
  | .entered paren :: calls => rfl
  | .left :: calls => exact absurd rfl h

/-- The fault of a program for which the frames do not suffice. -/
theorem interpret_exhausted {config : Config} {frames : Nat} {statements : List Node} {m : Machine}
    (hm : m.lastCall = none) (h : (runProgram config frames statements m).IsExhausted) :
    (interpret config frames statements m).1 =
      some (.overflow (latest (Unwind.runProgram config frames statements m []).calls)) := by
  have hu := runProgram_unwinds config frames statements m []
  rw [interpret_eq_endOf]
  generalize runProgram config frames statements m = r,
    Unwind.runProgram config frames statements m [] = e at h hu ⊢
  cases hu with
  | done | raised => exact h.elim
  | @stop why m' calls hl =>
      cases h
      obtain ⟨trace, he⟩ | ⟨f, hf, -⟩ := settle_cases config (some .exhausted) m'
      · rw [endOf, he]
        exact congrArg (fun t => some (Fault.overflow t)) (hl hm)
      · cases hf

namespace Session

/-- **The fault is found at the call entered last.**  Behind any steps of a session, if the frames do not
suffice for a program, the call that was entered last is named, and none if none was entered.  This is
the innermost open call, provided that it is still open. -/
theorem overflow_at_latest (settings : Settings) (natives : List (Text × Native))
    (steps : List Step) (frames : Nat) (statements : List Node) :
    let s := (start settings natives).after steps
    let calls := (Unwind.runProgram s.config frames statements s.machine []).calls
    (runProgram s.config frames statements s.machine).IsExhausted →
      (Lox.interpret s.config frames statements s.machine).1 = some (.overflow (latest calls)) ∧
      (calls.head? ≠ some .left →
        (Lox.interpret s.config frames statements s.machine).1 =
          some (.overflow (opened calls).head?)) := by
  intro s calls h
  obtain ⟨-, hm⟩ := rested_after (start_rested settings natives).1 steps
  have hfault := interpret_exhausted hm h
  refine ⟨hfault, fun hopen => ?_⟩
  rw [hfault, CallEvent.latest_eq_head? hopen]

/-- The frames run out inside the second of the calls that `f` makes in `fun f() { g(); f(); }`. -/
theorem overflow_at_latest_recursive :
    let token kind text line := Token.ofText kind text .null line
    let f := token .identifier "f" 1
    let g := token .identifier "g" 1
    let call name line := Node.expression (.call (.reference name) (token .rightParen ")" line) [])
    let s := (start {} []).after [.interpret [.function g [] []]]
    let statements := [.function f [] [call g 1, call f 2], call f 3]
    let calls := (Unwind.runProgram s.config 18 statements s.machine []).calls
    (runProgram s.config 18 statements s.machine).IsExhausted ∧ calls.head? ≠ some .left ∧
      (opened calls).head? = some (token .rightParen ")" 2) ∧
      (Lox.interpret s.config 18 statements s.machine).1 = some (.overflow (opened calls).head?) := by
  intro token f g call s statements calls
  obtain ⟨-, hfault⟩ := overflow_at_latest {} [] [.interpret [.function g [] []]] 18 statements
    (by decide +kernel)
  exact ⟨by decide +kernel, by decide +kernel, by decide +kernel, hfault (by decide +kernel)⟩

/-- In `fun f() {} f(); !!!!!!nil;` the frames run out behind the call, which is named although no call is
open. -/
theorem overflow_at_left_call :
    let token kind text := Token.ofText kind text .null 1
    let f := token .identifier "f"
    let paren := token .rightParen ")"
    let deep := (List.replicate 6 (token .bang "!")).foldr Node.unary (.literal .nil)
    let s := start {} []
    let statements := [.function f [] [], .expression (.call (.reference f) paren []),
      .expression deep]
    let calls := (Unwind.runProgram s.config 7 statements s.machine []).calls
    (runProgram s.config 7 statements s.machine).IsExhausted ∧ opened calls = [] ∧
      (Lox.interpret s.config 7 statements s.machine).1 = some (.overflow (some paren)) ∧
      (Lox.interpret s.config 7 statements s.machine).1 ≠ some (.overflow (opened calls).head?) := by
  decide +kernel

end Session

end Lox
