import Lox.Proofs.Eval.Equations

/-!
# The same program under two configurations

To compare the runs of a program under two configurations, it is enough to compare the steps of the
machine.  A relation between steps is a *simulation* of one configuration by another (`Simulation`) when
it goes through sequencing, scopes and calls, when every step that does not depend on the configuration
(`Run.Plain`) is related to itself, and when the few that do depend on it are related.

* `Simulation.simulates`: then every task under the first configuration is related to the same task under
  the second, by induction on the frames left.  The second may have more frames, if a task that has none
  is related to the same task with any number of them, and so is spelling a callee out (`Affords`).
* `Simulation.runProgram`: and so are whole programs.
-/

namespace Lox

/-- The steps that make no call and do not depend on what is fixed during a run, but for the host. -/
inductive Run.Plain : {α : Type} → Run α → Prop where
  | pure {α : Type} (a : α) : Plain (Pure.pure a : Run α)
  | fault {α : Type} (f : Fault) : Plain (Run.fault f : Run α)
  | exhausted {α : Type} : Plain (Run.exhausted : Run α)
  | printLine (line : Text) : Plain (Run.printLine line)
  | namesOf (names : List Json) : Plain (Run.namesOf names)
  | lookup (t : Token) : Plain (Run.lookup t)
  | assign (t : Token) (v : Value) : Plain (Run.assign t v)
  | define (t : Token) (v : Value) : Plain (Run.define t v)
  | currentScope : Plain Run.currentScope
  | openCalls : Plain Run.openCalls
  | callHost (config : Config) (function : HostFunction) (vs : List Value) :
      Plain (Run.callHost config function vs)
  | newScope (enclosing : Nat) (bindings : List (Name × Value)) :
      Plain (Run.newScope enclosing bindings)

/-- What a function of the host gives depends on the host alone. -/
theorem Run.callHost_congr {config config' : Config} (h : config.host = config'.host) :
    Run.callHost config = Run.callHost config' := by
  funext function vs m
  rw [Run.callHost, Run.callHost, h]

/-- A relation between steps under one configuration and steps under another. -/
structure Simulation (config config' : Config) (R : (α : Type) → Run α → Run α → Prop) : Prop where
  host : config.host = config'.host
  plain : ∀ {α : Type} {p : Run α}, p.Plain → R α p p
  bind : ∀ {α β : Type} {p p' : Run α} {f f' : α → Run β}, R α p p' → (∀ a, R β (f a) (f' a)) →
    R β (p >>= f) (p' >>= f')
  tell : ∀ event, R Unit (Run.tell config event) (Run.tell config' event)
  inScope : ∀ {α : Type} {p p' : Run α} (id : Nat), R α p p' →
    R α (Run.inScope id p) (Run.inScope id p')
  enterCall : ∀ paren, R Unit (Run.enterCall paren) (Run.enterCall paren)
  leaving : ∀ {α : Type} {p p' : Run α}, R α p p' → R α (Run.leaving p) (Run.leaving p')
  checkCall : ∀ f given depth paren, R Unit (Run.ofExcept (checkCall config f given depth paren))
    (Run.ofExcept (checkCall config' f given depth paren))
  whileTrue : ∀ {condition condition' : Run Bool} {body body' : Run (Option Value)},
    R Bool condition condition' → R (Option Value) body body' →
    R (Option Value) (Run.whileTrue condition body config.rounds)
      (Run.whileTrue condition' body' config'.rounds)

/-- Every task with so many frames under the first configuration is related to the same task with so
many others under the second. -/
structure Simulates (config config' : Config) (R : (α : Type) → Run α → Run α → Prop) (n n' : Nat) :
    Prop where
  evaluate : ∀ e, R Value (evaluate config n e) (evaluate config' n' e)
  evaluateAll : ∀ es, R (List Value) (evaluateAll config n es) (evaluateAll config' n' es)
  invoke : ∀ f vs paren, R Value (invoke config n f vs paren) (invoke config' n' f vs paren)
  block : ∀ id ss, R (Option Value) (block config n id ss) (block config' n' id ss)
  execute : ∀ s, R (Option Value) (execute config n s) (execute config' n' s)

/-- The same frames, or more of them, where a task that has none is related to the same task with any
number of them, and a callee that cannot be spelled out to one that can. -/
def Affords (config config' : Config) (R : (α : Type) → Run α → Run α → Prop) (n n' : Nat) : Prop :=
  n = n' ∨ n ≤ n' ∧ (∀ k, Simulates config config' R 0 k) ∧ R Unit Run.exhausted (pure ())

/-- The same holds one level further down. -/
theorem Affords.of_succ {config config' : Config} {R : (α : Type) → Run α → Run α → Prop} {n n' : Nat}
    (h : Affords config config' R (n + 1) (n' + 1)) : Affords config config' R n n' :=
  h.imp Nat.succ.inj fun h => ⟨Nat.le_of_succ_le_succ h.1, h.2⟩

namespace Simulation

variable {config config' : Config} {R : (α : Type) → Run α → Run α → Prop} {α β : Type}

/-! ### Sequences -/

theorem map (sim : Simulation config config' R) (f : α → β) {p p' : Run α} (h : R α p p') :
    R β (f <$> p) (f <$> p') :=
  sim.bind h fun a => sim.plain (.pure (f a))

/-- A result that is there already is the same under both configurations. -/
theorem ofExcept (sim : Simulation config config' R) (r : Except Fault α) :
    R α (Run.ofExcept r) (Run.ofExcept r) := by
  cases r with
  | ok a => exact sim.plain (.pure a)
  | error f => exact sim.plain (.fault f)

theorem goOn (sim : Simulation config config' R) (o : Option α) {p p' : Run (Option α)}
    (h : R (Option α) p p') : R (Option α) (Run.goOn o p) (Run.goOn o p') := by
  cases o with
  | none => exact h
  | some a => exact sim.plain (.pure (some a))

theorem collect (sim : Simulation config config' R) {f f' : β → Run α} (h : ∀ b, R α (f b) (f' b))
    (bs : List β) : R (List α) (Run.collect f bs) (Run.collect f' bs) := by
  induction bs with
  | nil => exact sim.plain (.pure [])
  | cons b bs ih =>
      refine sim.bind (h b) fun a => sim.bind ih fun as => ?_
      exact sim.plain (.pure (a :: as))

/-- Statements one after the other, up to the first that returns. -/
theorem firstOf (sim : Simulation config config' R) {f f' : β → Run (Option α)}
    (h : ∀ b, R (Option α) (f b) (f' b)) (bs : List β) :
    R (Option α) (Run.firstOf f bs) (Run.firstOf f' bs) := by
  induction bs with
  | nil => exact sim.plain (.pure none)
  | cons b bs ih =>
      rw [Run.firstOf_cons, Run.firstOf_cons]
      exact sim.bind (h b) fun o => sim.goOn o ih

/-! ### Tasks -/

section Tasks

variable {n n' : Nat}

theorem evaluate (sim : Simulation config config' R) (h : Simulates config config' R n n')
    (e : Node) : R Value (evaluate config (n + 1) e) (evaluate config' (n' + 1) e) := by
  cases e with
  | literal v => exact sim.plain (.pure _)
  | grouping e => exact h.evaluate e
  | reference name => exact sim.plain (.lookup name)
  | assign name e =>
      rw [evaluate_assign, evaluate_assign]
      refine sim.bind (h.evaluate e) fun v => sim.bind (sim.plain (.assign name v)) fun _ => ?_
      exact sim.plain (.pure v)
  | logical l o r =>
      rw [evaluate_logical, evaluate_logical]
      refine sim.bind (h.evaluate l) fun v => ?_
      split
      · exact sim.plain (.pure v)
      · exact h.evaluate r
  | unary o e =>
      rw [evaluate_unary, evaluate_unary]
      exact sim.bind (h.evaluate e) fun v => sim.ofExcept _
  | binary l o r =>
      rw [evaluate_binary, evaluate_binary]
      exact sim.bind (h.evaluate l) fun a => sim.bind (h.evaluate r) fun b => sim.ofExcept _
  | call e paren es =>
      rw [evaluate_call, evaluate_call]
      exact sim.bind (h.evaluate e) fun f => sim.bind (h.evaluateAll es) fun vs =>
        h.invoke f vs paren
  | _ => exact sim.plain (.fault .malformed)

theorem callInside (sim : Simulation config config' R) (h : Simulates config config' R n n')
    (f : Value) (vs : List Value) :
    R Value (callInside config n f vs) (callInside config' n' f vs) := by
  cases f with
  | function name params body closure =>
      refine sim.bind (sim.plain (.namesOf params)) fun names => ?_
      refine sim.bind (sim.plain (.newScope closure _)) fun id => ?_
      exact sim.bind (h.block id body) fun returned => sim.plain (.pure _)
  | native name arity function =>
      show R Value (Run.callHost config function vs) (Run.callHost config' function vs)
      rw [Run.callHost_congr sim.host]
      exact sim.plain (.callHost config' function vs)
  | _ => exact sim.plain (.fault .malformed)

/-- Frames that are enough to spell a callee out stay enough. -/
theorem spell (sim : Simulation config config' R) (hn : Affords config config' R n n') (f : Value) :
    R Unit (Run.spell n f) (Run.spell n' f) := by
  rw [Run.spell, Run.spell]
  rcases hn with rfl | ⟨hle, -, hx⟩
  · split
    · exact sim.plain (.pure ())
    · exact sim.plain .exhausted
  · split
    · rw [if_pos (by omega)]
      exact sim.plain (.pure ())
    · split
      · exact hx
      · exact sim.plain .exhausted

/-- A call depends on the configuration where it is checked and where it is told. -/
theorem invoke (sim : Simulation config config' R) (hn : Affords config config' R n n')
    (h : Simulates config config' R n n') (f : Value) (vs : List Value) (paren : Token) :
    R Value (invoke config (n + 2) f vs paren) (invoke config' (n' + 2) f vs paren) := by
  rw [invoke_add_two, invoke_add_two]
  refine sim.bind (sim.plain .openCalls) fun depth => ?_
  refine sim.bind (sim.checkCall f vs.length depth paren) fun _ => ?_
  refine sim.bind ?_ fun v => sim.bind (sim.tell _) fun _ => sim.plain (.pure v)
  refine sim.bind (sim.enterCall paren) fun _ => ?_
  refine sim.bind (sim.bind (sim.spell hn f) fun _ => sim.tell _) fun _ => ?_
  exact sim.leaving (sim.callInside h f vs)

theorem initialValue (sim : Simulation config config' R) (h : Simulates config config' R n n')
    (e : Node) : R Value (initialValue config n e) (initialValue config' n' e) := by
  by_cases he : e = .null
  · subst he
    exact sim.plain (.pure Value.nil)
  · rw [initialValue_of_ne config n he, initialValue_of_ne config' n' he]
    exact h.evaluate e

theorem executeOptional (sim : Simulation config config' R) (h : Simulates config config' R n n')
    (s : Node) : R (Option Value) (executeOptional config n s) (executeOptional config' n' s) := by
  by_cases hs : s = .null
  · subst hs
    exact sim.plain (.pure none)
  · rw [executeOptional_of_ne config n hs, executeOptional_of_ne config' n' hs]
    exact h.execute s

theorem execute (sim : Simulation config config' R) (h : Simulates config config' R n n')
    (s : Node) : R (Option Value) (execute config (n + 1) s) (execute config' (n' + 1) s) := by
  have hnone : R (Option Value) (pure none) (pure none) := sim.plain (.pure none)
  cases s with
  | expression e =>
      rw [execute_expression, execute_expression]
      exact sim.bind (h.evaluate e) fun _ => hnone
  | print e =>
      rw [execute_print, execute_print]
      exact sim.bind (h.evaluate e) fun v => sim.bind (sim.plain (.printLine _)) fun _ => hnone
  | declare name e =>
      rw [execute_declare, execute_declare]
      refine sim.bind (sim.initialValue h e) fun v => ?_
      exact sim.bind (sim.plain (.define name v)) fun _ => sim.bind (sim.tell _) fun _ => hnone
  | block statements =>
      rw [execute_block, execute_block]
      refine sim.bind (sim.plain .currentScope) fun outer => ?_
      exact sim.bind (sim.plain (.newScope outer [])) fun id => h.block id statements
  | branch c s s' =>
      rw [execute_branch, execute_branch]
      refine sim.bind (h.evaluate c) fun v => sim.bind (sim.tell _) fun _ => ?_
      split
      · exact h.execute s
      · exact sim.executeOptional h s'
  | loop c s =>
      rw [execute_loop, execute_loop]
      exact sim.whileTrue (sim.map _ (h.evaluate c)) (h.execute s)
  | function name params body =>
      rw [execute_function, execute_function]
      refine sim.bind (sim.plain .currentScope) fun closure => ?_
      exact sim.bind (sim.plain (.define name _)) fun _ => sim.bind (sim.tell _) fun _ => hnone
  | returns keyword e =>
      rw [execute_returns, execute_returns]
      exact sim.map _ (sim.initialValue h e)
  | _ => exact sim.plain (.fault .malformed)

end Tasks

/-- Without frames, nothing is done. -/
theorem exhausted (sim : Simulation config config' R) {n' : Nat} (hn : Affords config config' R 0 n') :
    Simulates config config' R 0 n' := by
  rcases hn with rfl | ⟨-, hx, -⟩
  · exact ⟨fun _ => sim.plain .exhausted, fun _ => sim.plain .exhausted,
      fun _ _ _ => sim.plain .exhausted, fun _ _ => sim.plain .exhausted,
      fun _ => sim.plain .exhausted⟩
  · exact hx n'

/-- **Tasks are related**, if the second have the frames for it. -/
theorem simulates (sim : Simulation config config' R) {n n' : Nat}
    (hn : Affords config config' R n n') : Simulates config config' R n n' := by
  -- a call uses two frames at once, so what is inside it is two steps back
  induction n using Nat.strongRecOn generalizing n' with
  | ind n ih =>
      match n, n', hn, ih with
      | 0, n', hn, _ => exact sim.exhausted hn
      | n + 1, 0, hn, _ => exact absurd hn (by simp [Affords])
      | n + 1, n' + 1, hn, ih =>
          have h := ih n (Nat.lt_succ_self n) hn.of_succ
          refine ⟨sim.evaluate h, sim.collect h.evaluate, ?_, fun id statements => ?_,
            sim.execute h⟩
          · match n, n', hn, ih with
            | 0, 0, _, _ => exact fun _ _ _ => sim.plain .exhausted
            | 0, n' + 1, .inr ⟨_, hx, _⟩, _ => exact (hx (n' + 2)).invoke
            | n + 1, 0, hn, _ => exact absurd hn (by simp [Affords])
            | n + 1, n' + 1, hn, ih =>
                exact sim.invoke hn.of_succ.of_succ (ih n (by omega) hn.of_succ.of_succ)
          · exact sim.inScope id (sim.firstOf h.execute statements)

/-- **Programs are related**, under the same condition. -/
theorem runProgram (sim : Simulation config config' R) {frames frames' : Nat}
    (hn : Affords config config' R frames frames') (statements : List Node) :
    R (Option Value) (runProgram config frames statements)
      (runProgram config' frames' statements) :=
  sim.bind (sim.tell _) fun _ => sim.firstOf (sim.simulates hn).execute statements

end Simulation

end Lox
