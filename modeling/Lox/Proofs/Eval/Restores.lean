import Lox.Proofs.Run
import Lox.Proofs.Eval.Equations
import Lox.Proofs.Eval.Moment

/-!
# Scope and call depth are restored

Whatever a step of a run does and however it ends, the current scope is afterwards what it was before.
The number of open calls is, too, unless the run stops while a call is told: this call is counted by then
and is not left any more.

* `Run.Restores p`: the step `p` does so.  Entering a scope restores it whatever its inside does, leaving a
  call takes back what counting it has added, and everything else leaves both alone.
* `restoring`: all tasks do so, by induction on the frames left.
* `Enters.depth`: so the depth at a moment is that of the moment around it, and one more inside a
  call; `During.depth` adds this up over a run.
-/

namespace Lox

variable {α β : Type}

/-- Why a call cannot be told: there are no frames to spell its callee out, or its line holds what no file
can hold. -/
def Stop.EndsTelling (why : Stop) : Prop := why = .exhausted ∨ why = .fault .unwritable

/-- A refused call is not told, so it ends before it is counted. -/
theorem Stop.EndsTelling.not_overflow {why : Stop} (h : why.EndsTelling) (place : Option Token) :
    why ≠ .fault (.overflow place) := by
  obtain rfl | rfl := h <;> exact nofun

/-- The machine at the end of a step. -/
def Result.machine : Result α → Machine
  | .ok _ m => m
  | .stop _ m => m

/-- The end of a run changes what was told and the latest call, and nothing else. -/
theorem endOf_machine (config : Config) (r : Result (Option Value)) :
    ∃ trace, (endOf config r).2 = { r.machine with lastCall := none, trace := trace } := by
  cases r with
  | ok _ m => exact settle_machine config none m
  | stop why m => exact settle_machine config (some why) m

/-- A step ends in the scope and with the number of open calls given, but for one call more if it stops
while that call is told. -/
inductive Result.Restored (scope depth : Nat) : Result α → Prop where
  | ok {a : α} {m : Machine} (hc : m.current = scope) (hd : m.depth = depth) :
      Restored scope depth (.ok a m)
  | stop {why : Stop} {m : Machine} (hc : m.current = scope) (hd : m.depth = depth) :
      Restored scope depth (.stop why m)
  | untold {why : Stop} {m : Machine} (hw : why.EndsTelling) (hc : m.current = scope)
      (hd : m.depth = depth + 1) : Restored scope depth (.stop why m)

/-- The scope is the one given. -/
theorem Result.Restored.current {scope depth : Nat} {r : Result α} (h : r.Restored scope depth) :
    r.machine.current = scope := by
  cases h with
  | ok hc | stop hc | untold _ hc => exact hc

namespace Run

/-- On every way out, a step leaves the current scope as it was, and the number of open calls but for a
call that cannot be told. -/
def Restores (p : Run α) : Prop := ∀ m, (p m).Restored m.current m.depth

namespace Restores

/-- A step that gives a value has restored both. -/
theorem ok {p : Run α} (hp : Restores p) {a : α} {m m' : Machine} (h : p m = .ok a m') :
    m'.current = m.current ∧ m'.depth = m.depth := by
  have hr := hp m
  rw [h] at hr
  cases hr with
  | ok hc hd => exact ⟨hc, hd⟩

/-- A step that changes other parts of the machine only. -/
theorem other {p : Run α}
    (h : ∀ m, (p m).machine.current = m.current ∧ (p m).machine.depth = m.depth) :
    Restores p := by
  intro m
  obtain ⟨hc, hd⟩ := h m
  generalize p m = r at hc hd ⊢
  cases r with
  | ok a m' => exact .ok hc hd
  | stop why m' => exact .stop hc hd

theorem pure (a : α) : Restores (pure a) := other fun _ => ⟨rfl, rfl⟩

theorem fault (f : Fault) : Restores (fault f : Run α) := other fun _ => ⟨rfl, rfl⟩

theorem exhausted : Restores (exhausted : Run α) := other fun _ => ⟨rfl, rfl⟩

theorem ofExcept (r : Except Fault α) : Restores (ofExcept r) := by
  cases r with
  | ok a => exact pure a
  | error f => exact fault f

/-- Sequencing: an untold call in either step is one more open call at the end. -/
theorem bind {p : Run α} {f : α → Run β} (hp : Restores p) (hf : ∀ a, Restores (f a)) :
    Restores (p >>= f) := by
  intro m
  show (andThen p f m).Restored m.current m.depth
  rw [andThen]
  have h := hp m
  generalize p m = r at h ⊢
  cases h with
  | @ok a m' hc hd =>
      rw [← hc, ← hd]
      exact hf a m'
  | stop hc hd => exact .stop hc hd
  | untold hw hc hd => exact .untold hw hc hd

theorem map {p : Run α} {f : α → β} (hp : Restores p) : Restores (f <$> p) :=
  hp.bind fun _ => pure _

/-! ### The steps of the machine -/

/-- The line of an event may be one that no file can hold, and the run stops. -/
theorem tell (config : Config) (event : Event) : Restores (tell config event) := by
  refine other fun m => ?_
  obtain ⟨trace, h⟩ | h := tell_cases config event m
  · exact h ▸ ⟨rfl, rfl⟩
  · exact h ▸ ⟨rfl, rfl⟩

theorem spell (frames : Nat) (callee : Value) : Restores (spell frames callee) := by
  rw [Run.spell]
  split
  · exact pure _
  · exact exhausted

theorem printLine (line : Text) : Restores (printLine line) := other fun _ => ⟨rfl, rfl⟩

theorem namesOf (names : List Json) : Restores (namesOf names) := by
  refine other fun m => ?_
  rw [Run.namesOf]
  split
  · exact ⟨rfl, rfl⟩
  · exact ⟨rfl, rfl⟩

theorem lookup (t : Token) : Restores (lookup t) := by
  refine other fun m => ?_
  rw [Run.lookup]
  split
  · exact ⟨rfl, rfl⟩
  · split
    · exact ⟨rfl, rfl⟩
    · exact ⟨rfl, rfl⟩

theorem assign (t : Token) (v : Value) : Restores (assign t v) := by
  refine other fun m => ?_
  rw [Run.assign]
  split
  · exact ⟨rfl, rfl⟩
  · split
    · exact ⟨rfl, rfl⟩
    · exact ⟨rfl, rfl⟩

theorem define (t : Token) (v : Value) : Restores (define t v) := by
  refine other fun m => ?_
  rw [Run.define]
  split
  · exact ⟨rfl, rfl⟩
  · exact ⟨rfl, rfl⟩

theorem currentScope : Restores currentScope := other fun _ => ⟨rfl, rfl⟩

theorem openCalls : Restores openCalls := other fun _ => ⟨rfl, rfl⟩

/-- To make a scope is not to enter it. -/
theorem newScope (enclosing : Nat) (bindings : List (Name × Value)) :
    Restores (newScope enclosing bindings) :=
  other fun _ => ⟨rfl, rfl⟩

theorem callHost (config : Config) (function : HostFunction) (vs : List Value) :
    Restores (callHost config function vs) := by
  refine other fun m => ?_
  rw [Run.callHost]
  split
  · exact ⟨rfl, rfl⟩
  · exact ⟨rfl, rfl⟩
  · exact ⟨rfl, rfl⟩

/-- The scope that was current is current again, and the inside has restored the depth. -/
theorem inScope {p : Run α} (id : Nat) (hp : Restores p) : Restores (inScope id p) := by
  intro m
  have h := hp { m with current := id }
  rw [Run.inScope]
  generalize p { m with current := id } = r at h ⊢
  cases h with
  | ok _ hd => exact .ok rfl hd
  | stop _ hd => exact .stop rfl hd
  | untold hw _ hd => exact .untold hw rfl hd

/-- Leaving a call takes back what counting it has added, and that is all that is left of the call unless
it cannot be announced. -/
theorem counted {announce : Run Unit} {p : Run α} (paren : Token) (ha : Restores announce)
    (hstop : ∀ m why m', announce m = .stop why m' → why.EndsTelling ∧ m' = m) (hp : Restores p) :
    Restores (counted paren announce p) := by
  intro m
  let entered : Machine := { m with depth := m.depth + 1, lastCall := some paren }
  show (andThen announce (fun _ => leaving p) entered).Restored m.current m.depth
  rw [andThen]
  cases h : announce entered with
  | stop why m' =>
      obtain ⟨hw, rfl⟩ := hstop _ _ _ h
      exact .untold hw rfl rfl
  | ok _ m₁ =>
      obtain ⟨hc, hd⟩ := ha.ok h
      have h₁ := hp m₁
      show (leaving p m₁).Restored m.current m.depth
      rw [leaving]
      rw [hc, hd] at h₁
      generalize p m₁ = r at h₁ ⊢
      cases h₁ with
      | ok hc hd => exact .ok hc (congrArg (· - 1) hd)
      | stop hc hd => exact .stop hc (congrArg (· - 1) hd)
      | untold hw hc hd => exact .untold hw hc (congrArg (· - 1) hd)

theorem collect {f : β → Run α} (hf : ∀ b, Restores (f b)) (bs : List β) :
    Restores (collect f bs) := by
  induction bs with
  | nil => exact pure []
  | cons b bs ih => exact (hf b).bind fun a => ih.bind fun as => pure (a :: as)

theorem goOn {next : Run (Option α)} (hn : Restores next) (o : Option α) : Restores (goOn o next) := by
  cases o with
  | none => exact hn
  | some a => exact pure (some a)

theorem firstOf {f : β → Run (Option α)} (hf : ∀ b, Restores (f b)) (bs : List β) :
    Restores (firstOf f bs) := by
  induction bs with
  | nil => exact other fun _ => ⟨rfl, rfl⟩
  | cons b bs ih =>
      rw [firstOf_cons]
      exact (hf b).bind fun o => ih.goOn o

/-- Loops, by induction on the rounds. -/
theorem whileTrue {condition : Run Bool} {body : Run (Option α)} (hc : Restores condition)
    (hb : Restores body) (rounds : Nat) : Restores (whileTrue condition body rounds) := by
  induction rounds with
  | zero => exact other fun _ => ⟨rfl, rfl⟩
  | succ rounds ih =>
      rw [whileTrue_succ]
      refine hc.bind fun go => ?_
      split
      · exact hb.bind fun o => ih.goOn o
      · exact pure none

end Restores

end Run

/-! ### Tasks -/

/-- With so many frames left, every task restores scope and depth. -/
structure Restoring (config : Config) (n : Nat) : Prop where
  evaluate : ∀ e, (evaluate config n e).Restores
  evaluateAll : ∀ es, (evaluateAll config n es).Restores
  invoke : ∀ f vs paren, (invoke config n f vs paren).Restores
  block : ∀ id statements, (block config n id statements).Restores
  execute : ∀ s, (execute config n s).Restores

open Run (Restores)

section Tasks

variable {config : Config} {n : Nat}

theorem evaluate_restores (h : Restoring config n) (e : Node) :
    (evaluate config (n + 1) e).Restores := by
  cases e with
  | literal v => exact Restores.pure _
  | grouping e => exact h.evaluate e
  | reference name => exact Restores.lookup name
  | assign name e =>
      rw [evaluate_assign]
      exact (h.evaluate e).bind fun v => (Restores.assign name v).bind fun _ => Restores.pure v
  | logical l o r =>
      rw [evaluate_logical]
      refine (h.evaluate l).bind fun v => ?_
      split
      · exact Restores.pure v
      · exact h.evaluate r
  | unary o e =>
      rw [evaluate_unary]
      exact (h.evaluate e).bind fun v => Restores.ofExcept _
  | binary l o r =>
      rw [evaluate_binary]
      exact (h.evaluate l).bind fun a => (h.evaluate r).bind fun b => Restores.ofExcept _
  | call e paren es =>
      rw [evaluate_call]
      refine (h.evaluate e).bind fun f => (h.evaluateAll es).bind fun vs => ?_
      exact h.invoke f vs paren
  | _ => exact Restores.fault .malformed

/-- The inside of a call, in a scope of its own. -/
theorem callInside_restores (h : Restoring config n) (f : Value) (vs : List Value) :
    (callInside config n f vs).Restores := by
  cases f with
  | function name params body closure =>
      refine (Restores.namesOf params).bind fun names => ?_
      refine (Restores.newScope closure _).bind fun id => ?_
      exact (h.block id body).bind fun returned => Restores.pure _
  | native name arity function => exact Restores.callHost config function vs
  | _ => exact Restores.fault .malformed

/-- What is told of a call depends on its callee, and where it cannot be told nothing has changed. -/
theorem announceCall_stop {f : Value} {depth : Nat} {m m' : Machine} {why : Stop}
    (h : announceCall config n f depth m = .stop why m') : why.EndsTelling ∧ m' = m := by
  rw [announceCall, Run.spell] at h
  split at h
  · change Run.tell config _ m = _ at h
    obtain ⟨trace, ht⟩ | ht := Run.tell_cases config (.called f depth) m
    · rw [ht] at h
      cases h
    · rw [ht] at h
      cases h
      exact ⟨.inr rfl, rfl⟩
  · cases h
    exact ⟨.inl rfl, rfl⟩

/-- A call is announced when there are the frames to spell its callee out and it can be told. -/
theorem announceCall_eq_ok_iff {f : Value} {depth : Nat} {m m' : Machine} :
    announceCall config n f depth m = .ok () m' ↔
      f.spellingFrames ≤ n ∧ Run.tell config (.called f depth) m = .ok () m' := by
  rw [announceCall, Run.spell]
  split
  · rename_i hf
    exact (and_iff_right hf).symm
  · rename_i hf
    exact ⟨nofun, fun h => absurd h.1 hf⟩

theorem announceCall_restores (f : Value) (depth : Nat) :
    (announceCall config n f depth).Restores :=
  (Restores.spell n f).bind fun _ => Restores.tell config _

/-- The count goes up before the call is told and comes down only when it is left. -/
theorem counted_restores (h : Restoring config n) (f : Value) (vs : List Value) (paren : Token)
    (depth : Nat) :
    (Run.counted paren (announceCall config n f depth) (callInside config n f vs)).Restores :=
  Restores.counted paren (announceCall_restores f depth) (fun _ _ _ => announceCall_stop)
    (callInside_restores h f vs)

/-- A call restores the scope, and the depth unless it cannot be told. -/
theorem invoke_restores (h : Restoring config n) (f : Value) (vs : List Value) (paren : Token) :
    (invoke config (n + 2) f vs paren).Restores := by
  rw [invoke_add_two]
  refine Restores.openCalls.bind fun depth => (Restores.ofExcept _).bind fun _ => ?_
  refine (counted_restores h f vs paren _).bind fun v => ?_
  exact (Restores.tell config _).bind fun _ => Restores.pure v

theorem initialValue_restores (h : Restoring config n) (e : Node) :
    (initialValue config n e).Restores := by
  by_cases he : e = .null
  · subst he
    exact Restores.pure _
  · rw [initialValue_of_ne config n he]
    exact h.evaluate e

theorem executeOptional_restores (h : Restoring config n) (s : Node) :
    (executeOptional config n s).Restores := by
  by_cases hs : s = .null
  · subst hs
    exact Restores.pure _
  · rw [executeOptional_of_ne config n hs]
    exact h.execute s

theorem execute_restores (h : Restoring config n) (s : Node) :
    (execute config (n + 1) s).Restores := by
  cases s with
  | expression e =>
      rw [execute_expression]
      exact (h.evaluate e).bind fun _ => Restores.pure none
  | print e =>
      rw [execute_print]
      exact (h.evaluate e).bind fun v => (Restores.printLine _).bind fun _ => Restores.pure none
  | declare name e =>
      rw [execute_declare]
      refine (initialValue_restores h e).bind fun v => (Restores.define name v).bind fun _ => ?_
      exact (Restores.tell config _).bind fun _ => Restores.pure none
  | block statements =>
      rw [execute_block]
      refine Restores.currentScope.bind fun outer => (Restores.newScope outer []).bind fun id => ?_
      exact h.block id statements
  | branch c s s' =>
      rw [execute_branch]
      refine (h.evaluate c).bind fun v => (Restores.tell config _).bind fun _ => ?_
      split
      · exact h.execute s
      · exact executeOptional_restores h s'
  | loop c s =>
      rw [execute_loop]
      exact Restores.whileTrue (h.evaluate c).map (h.execute s) config.rounds
  | function name params body =>
      rw [execute_function]
      refine Restores.currentScope.bind fun closure => (Restores.define name _).bind fun _ => ?_
      exact (Restores.tell config _).bind fun _ => Restores.pure none
  | returns keyword e =>
      rw [execute_returns]
      exact (initialValue_restores h e).map
  | _ => exact Restores.fault .malformed

/-- Every task restores scope and depth. -/
theorem restoring (config : Config) (n : Nat) : Restoring config n := by
  -- a call uses two frames at once, so what is inside it is two steps back
  induction n using Nat.strongRecOn with
  | ind n ih =>
      match n, ih with
      | 0, _ =>
          exact ⟨fun _ => Restores.exhausted, fun _ => Restores.exhausted,
            fun _ _ _ => Restores.exhausted, fun _ _ => Restores.exhausted,
            fun _ => Restores.exhausted⟩
      | n + 1, ih =>
          have h := ih n (Nat.lt_succ_self n)
          refine ⟨evaluate_restores h, Restores.collect h.evaluate, ?_, fun id statements => ?_,
            execute_restores h⟩
          · match n, ih with
            | 0, _ => exact fun _ _ _ => Restores.exhausted
            | n + 1, ih => exact invoke_restores (ih n (by omega))
          · exact Restores.inScope id (Restores.firstOf h.execute statements)

/-- And so does a whole program. -/
theorem runProgram_restores (config : Config) (frames : Nat) (statements : List Node) :
    (runProgram config frames statements).Restores :=
  (Restores.tell config _).bind fun _ => Restores.firstOf (restoring config frames).execute statements

end Tasks

/-! ### Moments -/

/-- Whole rounds of a loop restore scope and depth. -/
theorem Rounds.restores {condition : Run Bool} {body : Run (Option α)} {m m' : Machine}
    (hc : condition.Restores) (hb : body.Restores) (h : Rounds condition body m m') :
    m'.current = m.current ∧ m'.depth = m.depth := by
  induction h with
  | none => exact ⟨rfl, rfl⟩
  | round _ h₁ h₂ ih =>
      obtain ⟨hc₁, hd₁⟩ := hc.ok h₁
      obtain ⟨hc₂, hd₂⟩ := hb.ok h₂
      exact ⟨hc₂.trans (hc₁.trans ih.1), hd₂.trans (hd₁.trans ih.2)⟩

/-- A call is made only below the bound on open calls. -/
theorem checkCall_ok {config : Config} {f : Value} {given depth : Nat} {paren : Token}
    (h : checkCall config f given depth paren = .ok ()) :
    f.arity? = some (given : Int) ∧ (depth : Int) < config.maxDepth := by
  rw [checkCall] at h
  split at h
  · cases h
  · rename_i arity harity
    split at h
    · cases h
    · rename_i hg
      split at h
      · cases h
      · rename_i hd
        exact ⟨by rw [harity, Decidable.of_not_not hg], Int.not_le.mp hd⟩

section Moments

variable {config : Config} {a b : Moment}

/-- A task starts at the depth of the task around it, and one deeper inside a call. -/
theorem Enters.depth (h : Enters config a b) :
    b.machine.depth = a.machine.depth + b.task.calls := by
  cases h with
  | grouping | assign | logicalLeft | unary | binaryLeft | callee | body | expression | print
  | declare | condition | returns => rfl
  | @logicalRight n _ _ _ _ _ _ h | @binaryRight n _ _ _ _ _ _ h
  | @arguments n _ _ _ _ _ _ h => exact (((restoring config n).evaluate _).ok h).2
  | @invoke n _ _ _ _ _ _ _ _ h₁ h₂ =>
      have hd := (((restoring config n).evaluate _).ok h₁).2
      exact (((restoring config n).evaluateAll _).ok h₂).2.trans hd
  | @argument n _ _ _ _ _ _ h =>
      exact ((Restores.collect (restoring config n).evaluate _).ok h).2
  | function _ h₁ _ h₂ =>
      exact ((Restores.newScope _ _).ok h₂).2.trans ((Restores.tell config _).ok h₁).2
  | @statement n _ _ _ _ _ _ h => exact ((Restores.firstOf (restoring config n).execute _).ok h).2
  | block h => exact ((Restores.newScope _ _).ok h).2
  | @thenBranch n _ _ _ _ _ _ _ h₁ _ h₂ | @elseBranch n _ _ _ _ _ _ _ h₁ _ h₂ =>
      have hd := (((restoring config n).evaluate _).ok h₁).2
      exact ((Restores.tell config _).ok h₂).2.trans hd
  | @loopCondition n _ _ _ _ h =>
      have hr := restoring config n
      exact (h.restores (hr.evaluate _).map (hr.execute _)).2
  | @loopBody n _ _ _ _ _ _ h h₁ _ =>
      have hr := restoring config n
      have hd := (h.restores (hr.evaluate _).map (hr.execute _)).2
      exact ((hr.evaluate _).ok h₁).2.trans hd

/-- Inside a call the depth is within the bound. -/
theorem Enters.depth_le (h : Enters config a b) (hb : b.task.calls = 1) :
    (b.machine.depth : Int) ≤ config.maxDepth := by
  cases h with
  | body hc => exact (checkCall_ok hc).2
  | _ => cases hb

variable {frames calls : Nat} {statements : List Node} {m : Machine}

/-- The depth is the number of calls that are entered and not yet left. -/
theorem During.depth (h : During config frames statements m calls b) :
    b.machine.depth = m.depth + calls := by
  induction h with
  | statement _ ht hb =>
      have hd := ((Restores.tell config _).ok ht).2
      exact ((Restores.firstOf (restoring config frames).execute _).ok hb).2.trans hd
  | inner _ h ih => rw [h.depth, ih, Nat.add_assoc]

/-- The depth never goes beyond the bound, unless it is there at the start. -/
theorem During.depth_le (h : During config frames statements m calls b) :
    (b.machine.depth : Int) ≤ max (m.depth : Int) config.maxDepth := by
  induction h with
  | statement hs ht hb =>
      rw [(During.statement hs ht hb).depth]
      exact Int.le_max_left _ _
  | @inner _ a b _ h ih =>
      by_cases hb : b.task.calls = 1
      · exact Int.le_trans (h.depth_le hb) (Int.le_max_right _ _)
      · have hz : b.task.calls = 0 := by
          cases ht : b.task <;> simp_all [Task.calls]
        rw [h.depth, hz]
        exact ih

end Moments

end Lox
