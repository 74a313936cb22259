import Lox.Proofs.Eval.Frames
import Lox.Proofs.Eval.Limits
import Lox.Proofs.Eval.Stops

/-!
# Raising the bound on open calls

A higher bound on open calls takes overflows away and changes nothing else: a program that ends without
one ends in the same way, and one that ends with an overflow goes on printing.

* `runProgram_refused`: behind every overflow of a program there is a call that was refused, at a moment of
  its run; then as many calls were open as may be (`During.calls_of_refused`).
* `interpret_raised`: together with `Config.Below.runProgram`, what a higher bound does.
-/

namespace Lox

variable {α β : Type}

/-! ### Refused calls -/

/-- To stop with an overflow at some place comes from calls only. -/
theorem Stop.fromCalls_overflow (place : Option Token) :
    Stop.FromCalls fun _ why _ => why = .fault (.overflow place) where
  own hw h := hw place h
  inside h := h

section Programs

variable {config : Config} {frames : Nat} {statements : List Node} {m m' : Machine}
  {place : Option Token}

/-- When a call is refused, as many calls are open as may be, those from before the run included. -/
theorem During.calls_of_refused {calls : Nat} {paren : Token} {b : Moment}
    (hb : During config frames statements m calls b) (hr : b.Refused config paren) :
    (calls : Int) = max 0 (config.maxDepth - m.depth) := by
  have hdepth := hb.depth
  have hle := hb.depth_le
  cases hr with
  | invoke h =>
      obtain ⟨-, hfull⟩ := checkCall_eq_overflow h
      dsimp only at hdepth hle
      omega

/-- Behind every overflow of a program there is a call that was refused. -/
theorem runProgram_refused
    (h : runProgram config frames statements m = .stop (.fault (.overflow place)) m') :
    ∃ paren calls b, place = some paren ∧ During config frames statements m calls b ∧
      b.Refused config paren ∧ (calls : Int) = max 0 (config.maxDepth - m.depth) := by
  obtain ⟨paren, calls, b, hb, hr, -, hplace⟩ | ⟨_, _, -, -, -, why, hw, rfl⟩ :=
    runProgram_source (Stop.fromCalls_overflow place) h rfl
  · cases hplace
    exact ⟨paren, calls, b, rfl, hb, hr, hb.calls_of_refused hr⟩
  · exact absurd rfl (hw.not_overflow place)

end Programs

/-! ### Raising the bound -/

/-- The reasons to stop that go away with more frames and a higher bound on open calls. -/
inductive Stop.Lifted : Stop → Prop where
  | exhausted : Lifted .exhausted
  | overflow (paren : Token) : Lifted (.fault (.overflow (some paren)))

/-- How a run ends depends on the level of its configuration and on nothing else of it. -/
theorem endOf_congr {config config' : Config} (h : config.level = config'.level)
    (r : Result (Option Value)) : endOf config r = endOf config' r := by
  cases r <;> simp only [endOf, settle_congr h]

/-- What a run has printed does not change at its end. -/
theorem endOf_output (config : Config) (r : Result (Option Value)) :
    (endOf config r).2.output = r.machine.output := by
  obtain ⟨trace, h⟩ := endOf_machine config r
  rw [h]

/-- A fault at the end of a run is what the run was stopped by.  Only an overflow may have come from the
frames, and only an unwritable line from telling how the run ends. -/
theorem endOf_eq_fault {config : Config} {r : Result (Option Value)} {f : Fault} (hf : f ≠ .unwritable)
    (hr : ¬ r.IsExhausted) (h : (endOf config r).1 = some f) : ∃ m, r = .stop (.fault f) m := by
  have hend : ∀ why m, (settle config why m).1 = some f → why.map (faultOf m.lastCall) = some f := by
    intro why m hs
    obtain ⟨trace, he⟩ | ⟨f', -, -, -, -, he⟩ := settle_cases config why m
    · rw [he] at hs
      exact hs
    · rw [he] at hs
      exact absurd (Option.some.inj hs).symm hf
  cases r with
  | ok o m => cases hend none m h
  | stop why m =>
      cases why with
      | exhausted => exact absurd rfl hr
      | fault f' =>
          cases hend _ m h
          exact ⟨m, rfl⟩

section Overflow

variable {config : Config} {frames : Nat} {statements : List Node} {m m' : Machine}
  {place : Option Token}

/-- A program that ends with an overflow is stopped by one, unless the frames are used up. -/
theorem runProgram_eq_overflow (hlimit : ¬ (runProgram config frames statements m).IsExhausted)
    (h : (interpret config frames statements m).1 = some (.overflow place)) :
    ∃ m', runProgram config frames statements m = .stop (.fault (.overflow place)) m' := by
  rw [interpret_eq_endOf] at h
  exact endOf_eq_fault (fun h => by cases h) hlimit h

/-- A program that is stopped by an overflow ends with it, or without a fault of the language where its
message cannot be told. -/
theorem interpret_of_overflow
    (h : runProgram config frames statements m = .stop (.fault (.overflow place)) m') :
    (interpret config frames statements m).1 = some (.overflow place) ∨
      (interpret config frames statements m).1 = some .unwritable ∧ 1 ≤ config.level ∧
        (Fault.overflow place).message.isProper = false := by
  rw [interpret_eq_endOf, h]
  obtain ⟨trace, he⟩ | ⟨f, hf, hlevel, -, hmessage, he⟩ :=
    settle_cases config (some (.fault (.overflow place))) m'
  · exact .inl (congrArg Prod.fst he)
  · cases hf
    exact .inr ⟨congrArg Prod.fst he, hlevel, hmessage⟩

end Overflow

/-- **A higher bound on open calls only takes overflows away.** -/
theorem interpret_raised {config config' : Config} (h : config.Below Stop.Lifted config')
    {frames frames' : Nat} (hf : frames ≤ frames') (statements : List Node) {m : Machine}
    (hlimit : ¬ (runProgram config frames statements m).IsExhausted) :
    let low := interpret config frames statements m
    let high := interpret config' frames' statements m
    ((∀ place m', runProgram config frames statements m ≠ .stop (.fault (.overflow place)) m') →
      high = low) ∧
    low.2.output.toList <+: high.2.output.toList := by
  have hcut := (h.runProgram .exhausted hf statements).result m
  dsimp only
  rw [interpret_eq_endOf, interpret_eq_endOf, endOf_congr h.level.symm]
  refine ⟨fun hlow => ?_, ?_⟩
  · rw [hcut.eq fun why m₁ hr hw => ?_]
    cases hw with
    | exhausted => exact hlimit (hr ▸ rfl)
    | overflow paren => exact hlow (some paren) m₁ hr
  · rw [endOf_output, endOf_output]
    exact hcut.precedes

end Lox
