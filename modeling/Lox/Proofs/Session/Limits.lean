import Lox.Proofs.Eval.Ceiling
import Lox.Proofs.Eval.LoopFree
import Lox.Proofs.Session

/-!
# Sessions and their limits

What the bound on open calls does to the programs of a session.

* `Session.interpret_setMaxDepth`: a higher bound takes overflows away and changes nothing else.
* `Session.interpret_ends`: under any bound, a program without loops comes to an end.
-/

namespace Lox

/-- A larger bound on calls comes with more frames. -/
theorem framesFor_mono {d d' : Int} (hd : d ≤ d') : framesFor d ≤ framesFor d' := by
  simp only [framesFor, baseFrames, framesPerCall, frameLimit]
  omega

/-- To use up the frames is one way to be cut off. -/
theorem Result.IsExhausted.isCut {α : Type} {r : Result α} (h : r.IsExhausted) : r.IsCut := by
  cases r with
  | ok => exact h
  | stop why m =>
      subst h
      exact id

namespace Session

/-- A call is refused while the session runs statements, and this stops it. -/
def Overflows (s : Session) (statements : List Node) (place : Option Token) : Prop :=
  ∃ m, runProgram s.config (framesFor s.settings.maxDepth) statements s.machine =
    .stop (.fault (.overflow place)) m

/-- **A higher bound on open calls only takes overflows away.**  A program that is not stopped by an
overflow under a bound, nor because the frames are used up, ends in the same way under every higher bound:
with the same fault if any, on the same machine.  One that is stopped by an overflow ends with it, unless
its message cannot be told; it has printed the first lines of what it prints under the higher bound, and the
overflow is found at the closing parenthesis of a call that was refused while exactly as many calls were
open as the bound says, where calls that were left counted before the program count as open. -/
theorem interpret_setMaxDepth (s : Session) (statements : List Node) {d d' : Int} (hd : d ≤ d')
    (hlimit : ¬ (runProgram (s.setMaxDepth d).config (framesFor d) statements
      s.machine).IsExhausted) :
    let low := (s.setMaxDepth d).interpret statements
    let high := (s.setMaxDepth d').interpret statements
    ((∀ place, ¬ (s.setMaxDepth d).Overflows statements place) →
      high.1 = low.1 ∧ high.2.machine = low.2.machine) ∧
    (∀ place, low.1 = some (.overflow place) → (s.setMaxDepth d).Overflows statements place) ∧
    ∀ place, (s.setMaxDepth d).Overflows statements place →
      (low.1 = some (.overflow place) ∨ low.1 = some .unwritable ∧
        1 ≤ (s.setMaxDepth d).config.level ∧ (Fault.overflow place).message.isProper = false) ∧
      low.2.machine.output.toList <+: high.2.machine.output.toList ∧
      ∃ paren calls b, place = some paren ∧ (s.setMaxDepth d).During statements calls b ∧
        b.Refused (s.setMaxDepth d).config paren ∧ (calls : Int) = max 0 (d - s.machine.depth) := by
  have hbelow : (s.setMaxDepth d).config.Below Stop.Lifted (s.setMaxDepth d').config :=
    ⟨rfl, rfl, .inr ⟨hd, .overflow⟩, .inl rfl⟩
  obtain ⟨hsame, hprefix⟩ := interpret_raised hbelow (framesFor_mono hd) statements hlimit
  refine ⟨fun hlow => ?_, fun place hlow => ?_, fun place hover => ?_⟩
  · have heq := hsame fun place m h => hlow place ⟨m, h⟩
    rw [interpret, interpret]
    exact ⟨congrArg (fun r => r.1) heq, congrArg (fun r => r.2) heq⟩
  · exact runProgram_eq_overflow hlimit hlow
  · obtain ⟨m, h⟩ := hover
    exact ⟨interpret_of_overflow h, hprefix, runProgram_refused h⟩

/-- In `fun f() { print "x"; f(); } f();` the second call is refused when one may be open, and the third
when two may be. -/
theorem interpret_setMaxDepth_one_call :
    let name := Token.ofText .identifier "f" (.word "f") 1
    let paren := Token.ofText .rightParen ")" .null 1
    let call := Node.expression (.call (.reference name) paren [])
    let statements := [.function name [] [.print (.literal (.text "x")), call], call]
    let s := start {} []
    ((s.setMaxDepth 1).interpret statements).1 = some (.overflow (some paren)) ∧
      ((s.setMaxDepth 1).interpret statements).2.machine.output = #[("x" : Text)] ∧
      ((s.setMaxDepth 2).interpret statements).2.machine.output = #[("x" : Text), ("x" : Text)] ∧
      ((s.setMaxDepth 1).interpret statements).2.machine.output.toList <+:
        ((s.setMaxDepth 2).interpret statements).2.machine.output.toList ∧
      ∃ b, (s.setMaxDepth 1).During statements 1 b ∧ b.Refused (s.setMaxDepth 1).config paren := by
  intro name paren call statements s
  have hlow : ((s.setMaxDepth 1).interpret statements).1 = some (.overflow (some paren)) := by
    decide +kernel
  have hlimit : ¬ (runProgram (s.setMaxDepth 1).config (framesFor 1) statements
      s.machine).IsExhausted := by decide +kernel
  obtain ⟨-, hover, h⟩ := interpret_setMaxDepth s statements (by decide : (1 : Int) ≤ 2) hlimit
  obtain ⟨-, houtput, paren', calls, b, hp, hb, hr, hcalls⟩ := h (some paren) (hover _ hlow)
  obtain rfl : calls = 1 := Int.ofNat.inj hcalls
  rw [← Option.some.inj hp] at hr
  exact ⟨hlow, by decide +kernel, by decide +kernel, houtput, b, hb, hr⟩

/-- A stored tree may hold the call `f();` with a line that no file can hold.  When no call may be open, the
overflow at this line cannot be told, and the program ends without one; when one may be, it does not end
like that. -/
theorem interpret_setMaxDepth_untold :
    let name := Token.ofText .identifier "f" (.word "f") 1
    let paren : Token := ⟨.rightParen, .word ")", .null, .str ⟨"", [(⟨0⟩, "")]⟩⟩
    let statements := [.function name [] [], .expression (.call (.reference name) paren [])]
    let s := start { level := 1 } []
    ((s.setMaxDepth 0).interpret statements).1 = some .unwritable ∧
      ((s.setMaxDepth 1).interpret statements).1 = none := by
  decide +kernel

/-! ### Programs without loops -/

/-- A native that comes to an end by itself may bring a loop along that does not: when `g` gives the function
of `fun h() { while (true) nil; }`, the program `g()();` has no loop in it and never ends. -/
theorem interpret_unfinished :
    let loop := Node.loop (.literal (.bool true)) (.expression (.literal .nil))
    let h := Value.function (.word "h") [] [loop] globals
    let host : Host := ⟨fun _ => ⟨0⟩, fun _ _ _ => .value h⟩
    let g := Token.ofText .identifier "g" (.word "g") 1
    let paren := Token.ofText .rightParen ")" .null 1
    let statements := [Node.expression (.call (.call (.reference g) paren []) paren [])]
    let s := start { host := host } [("g", ⟨"g", 0, .given 0⟩)]
    Node.allLoopFree statements = true ∧ (∀ number before vs, host.reply number before vs ≠ .never) ∧
      ∀ frames rounds,
        (runProgram (s.config.withRounds rounds) frames statements s.machine).IsCut := by
  intro loop h host g paren statements s
  refine ⟨by decide +kernel, fun _ _ _ h => (by cases h), fun frames rounds => ?_⟩
  let config := s.config.withRounds rounds
  -- the loop uses up the rounds, however many there are
  have hloop : ∀ m, execute config 4 loop m = .stop (.fault .unfinished) m := fun m =>
    Run.whileTrue_unfinished (fun _ => rfl) (fun _ => rfl) rounds m
  have hblock : ∀ id m, block config 5 id [loop] m = .stop (.fault .unfinished) m := by
    intro id m
    have hfirst : Run.firstOf (execute config 4) [loop] { m with current := id } =
        .stop (.fault .unfinished) { m with current := id } := by
      rw [Run.firstOf, hloop]
    exact (Run.inScope_of_stop hfirst).trans rfl
  have hinside : ∀ m, ∃ m', callInside config 5 h [] m = .stop (.fault .unfinished) m' := by
    intro m
    show ∃ m', (block config 5 m.heap.size [loop] >>= _) { m with heap := _ } = _
    exact ⟨_, Run.bind_of_stop (hblock _ _)⟩
  have hcall : ∃ m', (Run.counted paren (announceCall config 5 h 1) (callInside config 5 h []))
      { s.machine with lastCall := some paren, hostCalls := 1 } = .stop (.fault .unfinished) m' := by
    obtain ⟨m', hm'⟩ := hinside { s.machine with depth := 1, lastCall := some paren, hostCalls := 1 }
    exact ⟨_, Run.leaving_of_stop hm'⟩
  -- nine frames get as far as the loop
  obtain ⟨m, hm⟩ : ∃ m, runProgram config 9 statements s.machine = .stop (.fault .unfinished) m := by
    obtain ⟨m', hm'⟩ := hcall
    have hinvoke : evaluate config 8 (.call (.call (.reference g) paren []) paren []) s.machine =
        .stop (.fault .unfinished) m' := by
      refine (Run.bind_of_ok (p := evaluate config 7 (.call (.reference g) paren [])) rfl).trans ?_
      refine (Run.bind_of_ok (p := evaluateAll config 7 []) rfl).trans ?_
      rw [invoke_add_two]
      refine (Run.bind_of_ok (p := Run.openCalls) rfl).trans ?_
      exact (Run.bind_of_ok (a := ()) rfl).trans (Run.bind_of_stop hm')
    refine ⟨m', ?_⟩
    have htell : Run.tell config (.started statements.length) s.machine = .ok () s.machine := rfl
    rw [runProgram_of_tell htell, Run.firstOf, execute_expression, Run.bind_of_stop hinvoke]
  -- `frames + 9` frames agree with both bounds, where the host limit does not strike
  have hsame := runProgram_truncates config (Nat.le_add_left 9 frames) statements s.machine
    (hm ▸ fun h => by cases h)
  refine Classical.byContradiction fun hcut => ?_
  have hlimit := fun hx => hcut (Result.IsExhausted.isCut hx)
  have hmore := runProgram_truncates config (Nat.le_add_right frames 9) statements s.machine hlimit
  rw [hmore, ← hsame, hm] at hcut
  exact hcut fun hf => hf rfl

end Session

end Lox
