import Lox.Proofs.Eval.Stops

/-!
# Sessions between their steps

A session goes on by steps (`Session.Step`): programs are run, natives bound, the bound on open calls
changed, the session closed.  Whatever the steps are and however each of them ends, between two steps the
global scope is current and there is no latest call (`Session.rested_after`).

How many calls are counted as open may not be what it was before a step: a call that could not be told stays
counted (`Session.depth_perform`).  `Session.restored_after` says so of the steps and of what happens inside
them, and `Session.restored_after_not` that it comes to pass.
-/

namespace Lox

namespace Session

/-- A step of a session. -/
inductive Step where
  | interpret (statements : List Node)
  | run (statements : List Node)
  /-- A loaded tree is run. -/
  | runTree (tree : Node)
  | defineNative (native : Native)
  | setMaxDepth (maxDepth : Int)
  | close

/-- The statements that a step runs. -/
def Step.statements? : Step → Option (List Node)
  | .interpret statements => some statements
  | .run statements => some statements
  | .runTree tree => tree.statements?
  | _ => none

/-- The session behind a step, however the step ends. -/
def perform (s : Session) : Step → Session
  | .interpret statements => (s.interpret statements).2
  | .run statements => (s.run statements).2
  | .runTree tree => (s.runTree tree).2
  | .defineNative native => s.defineNative native
  | .setMaxDepth maxDepth => s.setMaxDepth maxDepth
  | .close => s.close

/-- The session behind some steps. -/
def after (s : Session) (steps : List Step) : Session := steps.foldl perform s

theorem after_append (s : Session) (steps more : List Step) :
    s.after (steps ++ more) = (s.after steps).after more := List.foldl_append

/-- A moment that is reached while a session runs statements, and how many calls are entered and not
yet left then. -/
def During (s : Session) (statements : List Node) (calls : Nat) (b : Moment) : Prop :=
  Lox.During s.config (framesFor s.settings.maxDepth) statements s.machine calls b

/-- While a session runs statements, it comes to a call that it counts and cannot tell. -/
def LeavesUntold (s : Session) (statements : List Node) : Prop :=
  ∃ calls b, s.During statements calls b ∧ b.Untold s.config

/-- Every call that is counted in the steps can be told. -/
def TellsCalls (s : Session) : List Step → Prop
  | [] => True
  | step :: steps =>
    (∀ statements, step.statements? = some statements → ¬ s.LeavesUntold statements) ∧
      (s.perform step).TellsCalls steps

/-- The global scope is current and there is no latest call. -/
def Rested (s : Session) : Prop := s.machine.current = globals ∧ s.machine.lastCall = none

/-! ### Steps -/

/-- A step that runs no statements leaves the scopes and the calls alone; all others run them, and at most
close the session behind that. -/
theorem machine_perform (s : Session) (step : Step) :
    (∃ statements, step.statements? = some statements ∧
      (s.perform step).machine = (s.interpret statements).2.machine) ∨
    step.statements? = none ∧ (s.perform step).machine.current = s.machine.current ∧
      (s.perform step).machine.depth = s.machine.depth ∧
      (s.perform step).machine.lastCall = s.machine.lastCall := by
  cases step with
  | interpret statements | run statements => exact .inl ⟨statements, rfl, rfl⟩
  | runTree tree =>
      rw [perform, runTree, Step.statements?]
      cases tree.statements? with
      | none => exact .inr ⟨rfl, rfl, rfl, rfl⟩
      | some statements => exact .inl ⟨statements, rfl, rfl⟩
  | defineNative | setMaxDepth | close => exact .inr ⟨rfl, rfl, rfl, rfl⟩

/-- The machine behind a program is the one that its run ends on, but for what was told and the latest
call. -/
theorem interpret_machine (s : Session) (statements : List Node) :
    ∃ trace, (s.interpret statements).2.machine =
      { (runProgram s.config (framesFor s.settings.maxDepth) statements s.machine).machine with
        lastCall := none, trace := trace } := by
  rw [interpret, interpret_eq_endOf]
  exact endOf_machine s.config _

/-- A program leaves a session at rest, however it ends. -/
theorem interpret_rested {s : Session} (h : s.Rested) (statements : List Node) :
    (s.interpret statements).2.Rested := by
  have hr := runProgram_restores s.config (framesFor s.settings.maxDepth) statements s.machine
  obtain ⟨trace, he⟩ := s.interpret_machine statements
  rw [Rested, he]
  exact ⟨hr.current.trans h.1, rfl⟩

theorem perform_rested {s : Session} (h : s.Rested) (step : Step) : (s.perform step).Rested := by
  obtain ⟨statements, -, hm⟩ | ⟨-, hc, -, hl⟩ := s.machine_perform step
  · rw [Rested, hm]
    exact interpret_rested h statements
  · exact ⟨hc.trans h.1, hl.trans h.2⟩

/-- Binding natives changes only the scopes. -/
theorem start_rested (settings : Settings) (natives : List (Text × Native)) :
    (start settings natives).Rested ∧ (start settings natives).machine.depth = 0 :=
  List.foldlRecOn (motive := fun s : Session => s.Rested ∧ s.machine.depth = 0) natives _
    ⟨⟨rfl, rfl⟩, rfl⟩ fun _ hs _ _ => hs

/-- A new session has the settings it is given. -/
theorem settings_start (settings : Settings) (natives : List (Text × Native)) :
    (start settings natives).settings = settings :=
  List.foldlRecOn (motive := fun s : Session => s.settings = settings) natives _ rfl fun _ hs _ _ => hs

/-- No step changes what the natives do. -/
theorem host_perform (s : Session) (step : Step) : (s.perform step).settings.host = s.settings.host := by
  cases step with
  | runTree tree =>
      rw [perform, runTree]
      split <;> rfl
  | _ => rfl

/-- The natives that a session may call are fixed. -/
theorem host_after (s : Session) (steps : List Step) : (s.after steps).settings.host = s.settings.host := by
  induction steps generalizing s with
  | nil => rfl
  | cons step steps ih => exact (ih (s.perform step)).trans (s.host_perform step)

/-- **Between steps a session is at rest.** -/
theorem rested_after {s : Session} (h : s.Rested) (steps : List Step) : (s.after steps).Rested := by
  induction steps generalizing s with
  | nil => exact h
  | cons step steps ih => exact ih (perform_rested h step)

/-! ### Calls that stay counted -/

/-- To leave one call more counted than before comes from calls only. -/
theorem fromCalls_untold : Stop.FromCalls fun depth _ depth' => depth' = depth + 1 where
  own _ h := absurd h (Nat.ne_of_lt (Nat.lt_succ_self _))
  inside h := congrArg (· + 1) h

/-- Running statements leaves the count of open calls as it was, but for one call that could not be told. -/
theorem depth_interpret (s : Session) (statements : List Node) :
    (s.interpret statements).2.machine.depth = s.machine.depth ∨
      (s.interpret statements).2.machine.depth = s.machine.depth + 1 ∧ s.LeavesUntold statements := by
  have hr := runProgram_restores s.config (framesFor s.settings.maxDepth) statements s.machine
  obtain ⟨trace, he⟩ := s.interpret_machine statements
  rw [he]
  cases hrun : runProgram s.config (framesFor s.settings.maxDepth) statements s.machine with
  | ok a m =>
      rw [hrun] at hr
      cases hr with
      | ok _ hd => exact .inl hd
  | stop why m =>
      rw [hrun] at hr
      cases hr with
      | stop _ hd => exact .inl hd
      | untold _ _ hd =>
          refine .inr ⟨hd, ?_⟩
          obtain ⟨_, _, _, -, -, _, h⟩ | ⟨calls, b, hb, hu, -⟩ :=
            runProgram_source fromCalls_untold hrun hd
          · exact absurd h (Nat.ne_of_lt (Nat.lt_succ_self _))
          · exact ⟨calls, b, hb, hu⟩

/-- And so does every step. -/
theorem depth_perform (s : Session) (step : Step) :
    (s.perform step).machine.depth = s.machine.depth ∨
      (s.perform step).machine.depth = s.machine.depth + 1 ∧
        ∃ statements, step.statements? = some statements ∧ s.LeavesUntold statements := by
  obtain ⟨statements, hp, hm⟩ | ⟨-, -, hd, -⟩ := s.machine_perform step
  · rw [hm]
    exact (s.depth_interpret statements).imp id fun ⟨hd, hu⟩ => ⟨hd, statements, hp, hu⟩
  · exact .inl hd

/-- If all calls can be told, no call stays counted. -/
theorem depth_after {s : Session} {steps : List Step} (h : s.TellsCalls steps) :
    (s.after steps).machine.depth = s.machine.depth := by
  induction steps generalizing s with
  | nil => rfl
  | cons step steps ih =>
      obtain ⟨hstep, hrest⟩ := h
      refine (ih hrest).trans ?_
      obtain hd | ⟨-, statements, hp, hu⟩ := s.depth_perform step
      · exact hd
      · exact absurd hu (hstep statements hp)

/-- **Scope and depth are restored, but for calls that cannot be told.**  Behind any steps of a session the
global scope is current and there is no latest call; no call is counted as open as long as every call could
be told, and each step adds at most one call, which it could not tell.  Inside a step, every expression,
statement and call leaves the current scope as it was on every way out, and the depth too unless it stops
while a call is told; and the depth is the number of calls entered and not yet left, added to those that
earlier steps have left counted, and within the bound on open calls or as it was. -/
theorem restored_after (settings : Settings) (natives : List (Text × Native)) (steps : List Step) :
    let s := (start settings natives).after steps
    s.machine.current = globals ∧ s.machine.lastCall = none ∧
    ((start settings natives).TellsCalls steps → s.machine.depth = 0) ∧
    (∀ step, (s.perform step).machine.depth = s.machine.depth ∨
      (s.perform step).machine.depth = s.machine.depth + 1 ∧
        ∃ statements, step.statements? = some statements ∧ s.LeavesUntold statements) ∧
    (∀ config n m,
      (∀ e, (evaluate config n e m).Restored m.current m.depth) ∧
      (∀ stmt, (execute config n stmt m).Restored m.current m.depth) ∧
      ∀ f vs paren, (invoke config n f vs paren m).Restored m.current m.depth) ∧
    ∀ statements calls b, s.During statements calls b →
      b.machine.depth = s.machine.depth + calls ∧
        (b.machine.depth : Int) ≤ max (s.machine.depth : Int) s.settings.maxDepth := by
  intro s
  obtain ⟨hstart, hzero⟩ := start_rested settings natives
  obtain ⟨hc, hl⟩ := rested_after hstart steps
  refine ⟨hc, hl, fun h => (depth_after h).trans hzero, s.depth_perform, fun config n m => ?_,
    fun statements calls b h => ⟨h.depth, h.depth_le⟩⟩
  have hr := restoring config n
  exact ⟨fun e => hr.evaluate e m, fun stmt => hr.execute stmt m, fun f vs paren => hr.invoke f vs paren m⟩

/-- Inside the call `f();` of a function that an earlier step has declared, one call is open. -/
theorem restored_after_inside_call :
    let name := Token.ofText .identifier "f" (.word "f") 1
    let paren := Token.ofText .rightParen ")" .null 1
    let steps := [Step.interpret [.function name [] []], .setMaxDepth 3]
    let called := Node.expression (.call (.reference name) paren [])
    let s := (start {} []).after steps
    ∃ b, s.During [called] 1 b ∧ b.machine.depth = 0 + 1 ∧
      (b.machine.depth : Int) ≤ max 0 s.settings.maxDepth := by
  intro name paren steps called s
  have hs : [called] = [] ++ called :: [] := rfl
  have h : s.During [called] 0 _ := .statement hs rfl rfl
  have hb : s.During [called] 1 _ :=
    .inner (.inner (.inner h .expression) (.invoke rfl rfl)) (.body rfl)
  obtain ⟨-, -, -, -, -, hd⟩ := restored_after {} [] steps
  exact ⟨_, hb, hd _ _ _ hb⟩

/-- The first operand of a long sum stops it. -/
theorem evaluate_sum_eq_stop {config : Config} {n : Nat} {e : Node} {m m' : Machine} {why : Stop}
    (h : evaluate config n e m = .stop why m') (o : Token) (operand : Node) (k : Nat) :
    evaluate config (n + k) ((List.replicate k operand).foldr (fun r l => .binary l o r) e) m =
      .stop why m' := by
  induction k with
  | zero => exact h
  | succ k ih => exact Run.bind_of_stop ih

/-- In a long sum that starts with `f()`, the frames suffice to enter the call and not to tell it.  Then the
call stays counted, and where one call may be open, `f();` is refused from then on. -/
theorem restored_after_not :
    let f := Token.ofText .identifier "f" (.word "f") 1
    let paren := Token.ofText .rightParen ")" .null 1
    let minus := Token.ofText .minus "-" .null 1
    let call := Node.call (.reference f) paren []
    let sum := (List.replicate 1026 (.literal .nil)).foldr (fun r l => Node.binary l minus r) call
    let s := (start { maxDepth := 1 } []).after [.interpret [.function f [] []], .interpret [.expression sum]]
    s.machine.depth = 1 ∧ (s.interpret [.expression call]).1 = some (.overflow (some paren)) := by
  intro f paren minus call sum s
  let s₁ := (start { maxDepth := 1 } []).perform (.interpret [.function f [] []])
  let m : Machine := { s₁.machine with depth := 1, lastCall := some paren }
  have hcall : evaluate s₁.config 3 call s₁.machine = .stop .exhausted m := rfl
  have hsum : evaluate s₁.config (3 + 1026) sum s₁.machine = .stop .exhausted m :=
    evaluate_sum_eq_stop hcall minus (.literal .nil) 1026
  have hrun : runProgram s₁.config 1030 [.expression sum] s₁.machine = .stop .exhausted m := by
    have htell : Run.tell s₁.config (.started [Node.expression sum].length) s₁.machine = .ok () s₁.machine := rfl
    rw [runProgram_of_tell htell, Run.firstOf, execute_expression, Run.bind_of_stop hsum]
  have hs : s = { s₁ with machine := { m with lastCall := none } } := by
    show (s₁.interpret [.expression sum]).2 = _
    rw [interpret, interpret_eq_endOf]
    show { s₁ with machine := (endOf s₁.config (runProgram s₁.config 1030 _ s₁.machine)).2 } = _
    rw [hrun]
    rfl
  rw [hs]
  exact ⟨rfl, by decide +kernel⟩

end Session

end Lox
