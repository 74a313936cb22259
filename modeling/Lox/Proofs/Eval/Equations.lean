import Lox.Eval
import Lox.Proofs.Text

/-!
# The equations of running trees

One equation for each form of an expression or a statement that runs parts of it, with at least one
frame left.  A part that may be absent is run by a function of its own (`initialValue`,
`executeOptional`).  A call is counted, announced and left again (`Run.counted`), and what is done inside
it is named `callInside`.  The ways to repeat a step go on to the next item or round by `Run.goOn`, so that
they are sequences of steps as well.
-/

namespace Lox

/-! ### Sequences -/

namespace Run

variable {α β : Type}

/-- A sequence goes on where its first step gives a value. -/
theorem bind_of_ok {p : Run α} {f : α → Run β} {a : α} {m m₁ : Machine} (h : p m = .ok a m₁) :
    (p >>= f) m = f a m₁ := by
  show andThen p f m = f a m₁
  rw [andThen, h]

/-- A sequence stops where its first step does. -/
theorem bind_of_stop {p : Run α} {f : α → Run β} {why : Stop} {m m₁ : Machine}
    (h : p m = .stop why m₁) : (p >>= f) m = .stop why m₁ := by
  show andThen p f m = .stop why m₁
  rw [andThen, h]

theorem inScope_of_stop {id : Nat} {p : Run α} {why : Stop} {m m₁ : Machine}
    (h : p { m with current := id } = .stop why m₁) :
    inScope id p m = .stop why { m₁ with current := m.current } := by
  rw [inScope, h]

theorem leaving_of_stop {p : Run α} {why : Stop} {m m₁ : Machine} (h : p m = .stop why m₁) :
    leaving p m = .stop why { m₁ with depth := m₁.depth - 1 } := by
  rw [leaving, h]

theorem bind_assoc {γ : Type} (p : Run α) (f : α → Run β) (g : β → Run γ) :
    p >>= f >>= g = p >>= fun a => f a >>= g := by
  funext m
  show andThen (andThen p f) g m = andThen p (fun a => andThen (f a) g) m
  unfold andThen
  cases p m <;> rfl

/-- Counts a call, announces it, and leaves it behind what is done inside.  Only the inside is protected:
if the call cannot be announced, it stays counted. -/
def counted (paren : Token) (announce : Run Unit) (inside : Run α) : Run α := do
  enterCall paren
  announce
  leaving inside

/-- Ends with the value of a step, if there is one, and goes on otherwise. -/
def goOn (o : Option α) (next : Run (Option α)) : Run (Option α) :=
  match o with
  | some a => pure (some a)
  | none => next

/-- One statement, and the others unless it returns. -/
theorem firstOf_cons (f : β → Run (Option α)) (b : β) (bs : List β) :
    firstOf f (b :: bs) = (do
      let o ← f b
      goOn o (firstOf f bs) : Run (Option α)) := by
  funext m
  show firstOf f (b :: bs) m = andThen (f b) _ m
  rw [firstOf, andThen]
  cases f b m with
  | stop why m₁ => rfl
  | ok o m₁ => cases o <;> rfl

/-- One round, and the others unless it returns. -/
theorem whileTrue_succ (condition : Run Bool) (body : Run (Option α)) (rounds : Nat) :
    whileTrue condition body (rounds + 1) = (do
      let go ← condition
      if go then
        let o ← body
        goOn o (whileTrue condition body rounds)
      else pure none : Run (Option α)) := by
  funext m
  show whileTrue condition body (rounds + 1) m = andThen condition _ m
  rw [whileTrue, andThen]
  cases condition m with
  | stop why m₁ => rfl
  | ok go m₁ =>
      cases go with
      | false => rfl
      | true =>
          show _ = andThen body _ m₁
          rw [andThen]
          dsimp only
          cases body m₁ with
          | stop why m₂ => rfl
          | ok o m₂ => cases o <;> rfl

/-- A loop whose condition always holds and whose body gives no value is never finished. -/
theorem whileTrue_unfinished {condition : Run Bool} {body : Run (Option α)}
    (hc : ∀ m, condition m = .ok true m) (hb : ∀ m, body m = .ok none m) (rounds : Nat) (m : Machine) :
    whileTrue condition body rounds m = .stop (.fault .unfinished) m := by
  induction rounds with
  | zero => rfl
  | succ rounds ih =>
      rw [whileTrue_succ]
      refine (bind_of_ok (hc m)).trans ?_
      exact (bind_of_ok (hb m)).trans ih

end Run

variable (config : Config) (n : Nat)

/-! ### Expressions -/

theorem evaluate_assign (name : Token) (e : Node) :
    evaluate config (n + 1) (.assign name e) = (do
      let v ← evaluate config n e
      Run.assign name v
      pure v) :=
  rfl

theorem evaluate_logical (l r : Node) (o : Token) :
    evaluate config (n + 1) (.logical l o r) = (do
      let v ← evaluate config n l
      if decidesAlone o v then pure v else evaluate config n r) :=
  rfl

theorem evaluate_unary (o : Token) (e : Node) :
    evaluate config (n + 1) (.unary o e) = (do
      let v ← evaluate config n e
      Run.ofExcept (applyUnary o v)) :=
  rfl

theorem evaluate_binary (l r : Node) (o : Token) :
    evaluate config (n + 1) (.binary l o r) = (do
      let a ← evaluate config n l
      let b ← evaluate config n r
      Run.ofExcept (applyBinary o a b)) :=
  rfl

/-- The callee comes first, then the arguments in order. -/
theorem evaluate_call (e : Node) (paren : Token) (es : List Node) :
    evaluate config (n + 1) (.call e paren es) = (do
      let f ← evaluate config n e
      let vs ← evaluateAll config n es
      invoke config n f vs paren) :=
  rfl

/-! ### Calls -/

/-- Spells the callee of a call out and tells the call. -/
def announceCall (f : Value) (depth : Nat) : Run Unit := do
  Run.spell n f
  Run.tell config (.called f depth)

/-- What is done inside a call, once it is told. -/
def callInside (f : Value) (vs : List Value) : Run Value :=
  match f with
  | .function _ params body closure => do
    let names ← Run.namesOf params
    let id ← Run.newScope closure (names.zip vs)
    let returned ← block config n id body
    pure (returned.getD .nil)
  | .native _ _ function => Run.callHost config function vs
  | _ => Run.fault .malformed

/-- A call that is not refused is counted, told, and left on every way out of its inside; then its return is
told. -/
theorem invoke_add_two (f : Value) (vs : List Value) (paren : Token) :
    invoke config (n + 2) f vs paren = (do
      let depth ← Run.openCalls
      Run.ofExcept (checkCall config f vs.length depth paren)
      let v ← Run.counted paren (announceCall config n f (depth + 1)) (callInside config n f vs)
      Run.tell config (.returned v f)
      pure v) := by
  unfold Run.counted announceCall
  simp only [Run.bind_assoc]
  cases f <;> rfl

/-! ### Statements -/

theorem execute_expression (e : Node) :
    execute config (n + 1) (.expression e) = (do
      let _ ← evaluate config n e
      pure none) :=
  rfl

theorem execute_print (e : Node) :
    execute config (n + 1) (.print e) = (do
      let v ← evaluate config n e
      Run.printLine v.display
      pure none) :=
  rfl

/-- The value of an initializer that may be absent. -/
def initialValue (e : Node) : Run Value :=
  match e with
  | .null => pure .nil
  | inner => evaluate config n inner

theorem initialValue_of_ne {e : Node} (he : e ≠ .null) :
    initialValue config n e = evaluate config n e := by
  cases e <;> first | rfl | exact absurd rfl he

/-- The value of a declaration is told once it is bound. -/
theorem execute_declare (name : Token) (e : Node) :
    execute config (n + 1) (.declare name e) = (do
      let v ← initialValue config n e
      Run.define name v
      Run.tell config (.defined name.lexeme v)
      pure none) := by
  cases e <;> rfl

/-- A block is executed in a new scope. -/
theorem execute_block (statements : List Node) :
    execute config (n + 1) (.block statements) = (do
      let id ← Run.newScope (← Run.currentScope) []
      block config n id statements) :=
  rfl

/-- A statement that may be absent. -/
def executeOptional (s : Node) : Run (Option Value) :=
  match s with
  | .null => pure none
  | other => execute config n other

theorem executeOptional_of_ne {s : Node} (hs : s ≠ .null) :
    executeOptional config n s = execute config n s := by
  cases s <;> first | rfl | exact absurd rfl hs

/-- The decision is told before the branch is executed. -/
theorem execute_branch (c s s' : Node) :
    execute config (n + 1) (.branch c s s') = (do
      let v ← evaluate config n c
      Run.tell config (.decided v.isTruthy)
      if v.isTruthy then execute config n s else executeOptional config n s') := by
  cases s' <;> rfl

theorem execute_loop (c s : Node) :
    execute config (n + 1) (.loop c s) =
      Run.whileTrue (Value.isTruthy <$> evaluate config n c) (execute config n s)
        config.rounds :=
  rfl

/-- A function keeps the scope it is declared in. -/
theorem execute_function (name : Token) (params : List Token) (body : List Node) :
    execute config (n + 1) (.function name params body) = (do
      let closure ← Run.currentScope
      Run.define name (.function name.lexeme (params.map Token.lexeme) body closure)
      Run.tell config (.definedFunction name.lexeme (params.map Token.lexeme).length)
      pure none) :=
  rfl

theorem execute_returns (keyword : Token) (e : Node) :
    execute config (n + 1) (.returns keyword e) = some <$> initialValue config n e := by
  cases e <;> rfl

/-! ### Programs -/

/-- Runs a program up to where its end is told. -/
def runProgram (frames : Nat) (statements : List Node) : Run (Option Value) := do
  Run.tell config (.started statements.length)
  Run.firstOf (execute config frames) statements

/-- How a run of statements ends. -/
def endOf (config : Config) : Result (Option Value) → Option Fault × Machine
  | .ok _ m => settle config none m
  | .stop why m => settle config (some why) m

/-- Telling an event changes what was told and nothing else, or it stops there. -/
theorem Run.tell_cases (event : Event) (m : Machine) :
    (∃ trace, Run.tell config event m = .ok () { m with trace := trace }) ∨
      Run.tell config event m = .stop (.fault .unwritable) m := by
  rw [Run.tell]
  split
  · split
    · exact .inl ⟨_, rfl⟩
    · exact .inr rfl
  · exact .inl ⟨m.trace, rfl⟩

/-- What a file can hold is told. -/
theorem Run.tell_of_isProper {event : Event} (h : event.text.isProper = true) (m : Machine) :
    ∃ trace, Run.tell config event m = .ok () { m with trace := trace } := by
  rw [Run.tell, if_pos h]
  split
  · exact ⟨_, rfl⟩
  · exact ⟨m.trace, rfl⟩

/-- The line that tells of the start of a run is a string. -/
theorem Event.isProper_started (n : Nat) : (started n).text.isProper = true := rfl

/-- Once its start is told, a program is its statements one after the other. -/
theorem runProgram_of_tell {config : Config} {statements : List Node} {m m₁ : Machine}
    (h : Run.tell config (.started statements.length) m = .ok () m₁) (frames : Nat) :
    runProgram config frames statements m = Run.firstOf (execute config frames) statements m₁ :=
  Run.bind_of_ok h

/-- What a run tells depends on the level of its configuration and on nothing else of it. -/
theorem Run.tell_congr {config config' : Config} (h : config.level = config'.level) :
    Run.tell config = Run.tell config' := by
  funext event m
  rw [Run.tell, Run.tell, h]

/-- And so does the end of a run. -/
theorem settle_congr {config config' : Config} (h : config.level = config'.level) :
    settle config = settle config' := by
  funext why m
  rw [settle, settle, Run.tell_congr h]

/-- What a run ends with, if its statements end for the reason `why`: the same, unless this is a fault
whose message is to be told and cannot be. -/
def finalReason (level : Nat) (why : Option Stop) : Option Stop :=
  match why with
  | some (.fault f) =>
    if 1 ≤ level ∧ f.label?.isSome = true ∧ f.message.isProper = false then some (.fault .unwritable)
    else some (.fault f)
  | other => other

theorem finalReason_eq_none {level : Nat} {why : Option Stop} :
    finalReason level why = none ↔ why = none := by
  rcases why with _ | f | _
  · exact Iff.rfl
  · rw [finalReason]
    split <;> exact ⟨nofun, nofun⟩
  · exact Iff.rfl

/-- The end of a run is told, if ends are, and there is no latest call any more. -/
theorem settle_eq (why : Option Stop) (m : Machine) :
    settle config why m = ((finalReason config.level why).map (faultOf m.lastCall),
      { m with
        lastCall := none
        trace := if 1 ≤ config.level then
            (endEvent (finalReason config.level why)).elim m.trace m.trace.push
          else m.trace }) := by
  -- a message that can be written is told, if anything is
  have told : ∀ event, endEvent why = some event → event.level = 1 → event.text.isProper = true →
      settle config why m = (why.map (faultOf m.lastCall),
        { m with
          lastCall := none
          trace := if 1 ≤ config.level then (endEvent why).elim m.trace m.trace.push else m.trace }) := by
    intro event hevent hlevel htext
    by_cases h : 1 ≤ config.level
    · simp [settle, hevent, Run.tell, hlevel, htext, h]
    · simp [settle, hevent, Run.tell, hlevel, h]
  match why with
  | none => exact told .finished rfl rfl rfl
  | some .exhausted => exact told .hostLimit rfl rfl rfl
  | some (.fault f) =>
      cases hl : f.label? with
      | none => simp [settle, finalReason, endEvent, hl]
      | some label =>
          have hevent : endEvent (some (.fault f)) = some (.failed label f.message) := by
            simp [endEvent, hl]
          have htext : (Event.failed label f.message).text.isProper = f.message.isProper := by
            simp [Event.text]
          cases hf : f.message.isProper with
          | true =>
              have hsame : finalReason config.level (some (.fault f)) = some (.fault f) := by
                simp [finalReason, hf]
              rw [hsame]
              exact told _ hevent rfl (htext.trans hf)
          | false =>
              by_cases hlevel : 1 ≤ config.level
              · -- the message cannot be written: that is the failure told in the end
                have hother : finalReason config.level (some (.fault f)) = some (.fault .unwritable) := by
                  simp [finalReason, hlevel, hl, hf]
                rw [hother, settle, hevent]
                simp [Run.tell, Event.level, hlevel, htext, hf, faultOf, endEvent, Fault.label?]
              · simp [settle, hevent, Run.tell, Event.level, hlevel, finalReason]

/-- The end of a run changes what was told and the latest call, and nothing else.  A fault whose message
cannot be told is replaced. -/
theorem settle_cases (why : Option Stop) (m : Machine) :
    (∃ trace, settle config why m =
      (why.map (faultOf m.lastCall), { m with lastCall := none, trace := trace })) ∨
    ∃ f, why = some (.fault f) ∧ 1 ≤ config.level ∧ f.label?.isSome = true ∧
      f.message.isProper = false ∧ settle config why m = (some .unwritable, { m with lastCall := none }) := by
  rw [settle_eq]
  rcases why with _ | f | _
  · exact .inl ⟨_, rfl⟩
  · rw [finalReason]
    split
    · rename_i h
      exact .inr ⟨f, rfl, h.1, h.2.1, h.2.2, by simp [faultOf, endEvent, Fault.label?]⟩
    · exact .inl ⟨_, rfl⟩
  · exact .inl ⟨_, rfl⟩

/-- Settling the end of a run touches the latest call and the trace only. -/
theorem settle_machine (why : Option Stop) (m : Machine) :
    ∃ trace, (settle config why m).2 = { m with lastCall := none, trace := trace } :=
  ⟨_, congrArg Prod.snd (settle_eq config why m)⟩

/-- A program is run up to its end, and then its end is told. -/
theorem interpret_eq_endOf (frames : Nat) (statements : List Node) (m : Machine) :
    interpret config frames statements m = endOf config (runProgram config frames statements m) := by
  obtain ⟨trace, htell⟩ := Run.tell_of_isProper config (Event.isProper_started statements.length) m
  rw [interpret, Run.bind_of_ok htell, runStatements, runProgram_of_tell htell]
  cases Run.firstOf (execute config frames) statements { m with trace := trace } <;> rfl

end Lox
