import Lox.Proofs.Eval.Stops
import Lox.Proofs.Eval.Unwinding

/-!
# What a return skips

A `return` may stand deep inside blocks, branches and loops.  Whatever of them is left to do in the same
call is skipped.

* `Within config a b`: the moment `b` is reached from `a` by executing statements inside statements, so
  no call is entered on the way.
* `Within.endsWith`: where the task of `b` ends with a `return`, so does that of `a`, on the same machine.
* `return_unwinds`: together with `interpret_eq_unwind`, what handing a `return` on comes to.
-/

namespace Lox

/-! ### Handing a return on -/

section Steps

variable {α β : Type} {m m₁ m' : Machine}

/-- The end of a step is a value on a machine, unless a loop in the step has run out of rounds. -/
def Result.EndsWith (r : Result α) (a : α) (m' : Machine) : Prop :=
  r = .ok a m' ∨ ∃ m'', r = .stop (.fault .unfinished) m''

namespace Result.EndsWith

/-- Behind a step that has ended. -/
theorem behind {p : Run α} {f : α → Run β} {a : α} {b : β} (hp : p m = .ok a m₁)
    (h : (f a m₁).EndsWith b m') : ((p >>= f) m).EndsWith b m' := by
  rw [Run.bind_of_ok hp]
  exact h

/-- In front of a step that does nothing. -/
theorem before {p : Run α} {f : α → Run β} {a : α} {b : β} (h : (p m).EndsWith a m')
    (hf : f a = pure b) : ((p >>= f) m).EndsWith b m' := by
  rcases h with h | ⟨m'', h⟩
  · rw [Run.bind_of_ok h, hf]
    exact .inl rfl
  · exact .inr ⟨m'', Run.bind_of_stop h⟩

/-- The end of a step is that of the step inside of its scope. -/
theorem inScope {p : Run α} {a : α} {id : Nat} (h : (p { m with current := id }).EndsWith a m') :
    (Run.inScope id p m).EndsWith a { m' with current := m.current } := by
  rw [Run.inScope]
  rcases h with h | ⟨m'', h⟩
  · rw [h]
    exact .inl rfl
  · rw [h]
    exact .inr ⟨_, rfl⟩

/-- The items behind one that gives a value are skipped. -/
theorem firstOf {f : β → Run (Option α)} {front back : List β} {b : β} {a : α}
    (hb : Run.firstOf f front m = .ok none m₁) (h : (f b m₁).EndsWith (some a) m') :
    (Run.firstOf f (front ++ b :: back) m).EndsWith (some a) m' := by
  induction front generalizing m with
  | nil =>
      cases hb
      rw [List.nil_append, Run.firstOf_cons]
      exact h.before rfl
  | cons c front ih =>
      rw [List.cons_append, Run.firstOf_cons]
      rw [Run.firstOf] at hb
      split at hb
      · rename_i m₂ hc
        exact behind hc (ih hb)
      · cases hb
      · cases hb

section Loops

variable {condition : Run Bool} {body : Run (Option α)}

/-- A round that is begun, if there is one left. -/
theorem begun {m₂ : Machine} {o : Option α} (hc : condition m = .ok true m₂)
    (h : ∀ rounds, ((do Run.goOn (← body) (Run.whileTrue condition body rounds) :
      Run (Option α)) m₂).EndsWith o m') (rounds : Nat) :
    (Run.whileTrue condition body rounds m).EndsWith o m' := by
  cases rounds with
  | zero => exact .inr ⟨m, rfl⟩
  | succ rounds =>
      rw [Run.whileTrue_succ]
      exact behind hc (h rounds)

/-- The rounds behind one that gives a value are skipped. -/
theorem whileTrue {m₂ : Machine} {a : α} (hr : Rounds condition body m m₁)
    (hc : condition m₁ = .ok true m₂) (h : (body m₂).EndsWith (some a) m') (rounds : Nat) :
    (Run.whileTrue condition body rounds m).EndsWith (some a) m' := by
  have hlast := begun hc fun _ => h.before rfl
  -- the rounds before it are taken off from the last one back
  clear hc h
  induction hr generalizing rounds with
  | none => exact hlast rounds
  | round _ hc hb ih => exact ih rounds (begun hc fun rounds => behind hb (hlast rounds))

end Loops

/-- What a statement hands on, from the values it gives. -/
theorem of_toList {p : Run (Option α)} {a : α} (h : ((Option.toList <$> p) m).EndsWith [a] m') :
    (p m).EndsWith (some a) m' := by
  rcases h with h | ⟨m'', h⟩
  · obtain ⟨o, hp, ho⟩ := Run.map_eq_ok h
    rw [Option.toList_eq_singleton_iff] at ho
    exact .inl (ho ▸ hp)
  · exact .inr ⟨m'', Run.map_eq_stop_iff.mp h⟩

end Result.EndsWith

end Steps

/-! ### Moments of one call -/

/-- Statements are executed. -/
def Task.isStatements : Task → Bool
  | .block .. | .execute _ => true
  | _ => false

/-- The second moment is reached from the first by executing statements inside statements. -/
inductive Within (config : Config) : Moment → Moment → Prop where
  | here {b : Moment} (hb : b.task.isStatements = true) : Within config b b
  | inner {a b c : Moment} (h : Enters config a b) (hb : b.task.isStatements = true)
      (hc : Within config b c) : Within config a c

/-- The task gives a value and leaves a machine behind, back in the scope where it started, unless a
loop in it runs out of rounds. -/
def Moment.EndsWith (config : Config) (b : Moment) (v : Value) (m' : Machine) : Prop :=
  (b.result config).EndsWith [v] { m' with current := b.machine.current }

section Moments

open Result (EndsWith)

variable {config : Config} {a b : Moment} {v : Value} {m' : Machine}

theorem Moment.endsWith_execute {n : Nat} {s : Node} {m : Machine} :
    Moment.EndsWith config ⟨n, .execute s, m⟩ v m' ↔
      (Lox.execute config n s m).EndsWith (some v) { m' with current := m.current } :=
  ⟨.of_toList, fun h => h.before rfl⟩

/-- A block that ends with a return is back in the scope around it. -/
theorem Moment.endsWith_block {n id : Nat} {statements : List Node} {m : Machine} :
    Moment.EndsWith config ⟨n, .block id statements, m⟩ v m' ↔
      (Lox.block config n id statements m).EndsWith (some v) { m' with current := m.current } :=
  ⟨.of_toList, fun h => h.before rfl⟩

/-- Statements hand a `return` on to what executes them, and a call gives its value. -/
theorem Enters.endsWith (h : Enters config a b) (hb : b.task.isStatements = true)
    (hr : b.EndsWith config v m') : a.EndsWith config v m' := by
  cases h with
  | @function n closure id name params body vs names m m₁ m₂ hf ht hn hs =>
      rw [Moment.endsWith_block, ((Run.Restores.newScope closure _).ok hs).1,
        ((Run.Restores.tell config _).ok ht).1] at hr
      have hnames : Run.namesOf params m₁ = .ok names m₁ := by rw [Run.namesOf, hn]
      have ha := announceCall_eq_ok_iff.mpr ⟨hf, ht⟩
      refine EndsWith.before (a := v) (.behind (a := m.depth) rfl (.behind ha ?_)) rfl
      exact .behind hnames (.behind hs (hr.before rfl))
  | @statement n id front back s m m₁ hf =>
      rw [Moment.endsWith_execute] at hr
      exact Moment.endsWith_block.mpr (EndsWith.firstOf hf hr).inScope
  | @block n id statements m m₁ hs =>
      rw [Moment.endsWith_block, ((Run.Restores.newScope m.current []).ok hs).1] at hr
      rw [Moment.endsWith_execute, execute_block]
      exact .behind (a := m.current) rfl (.behind hs hr)
  | @thenBranch n c s s' w m m₁ m₂ hc hv ht =>
      rw [Moment.endsWith_execute, ((Run.Restores.tell config _).ok ht).1,
        (((restoring config n).evaluate c).ok hc).1] at hr
      rw [Moment.endsWith_execute, execute_branch]
      refine .behind hc (.behind ht ?_)
      rw [if_pos hv]
      exact hr
  | @elseBranch n c s s' w m m₁ m₂ hc hv ht hs =>
      rw [Moment.endsWith_execute, ((Run.Restores.tell config _).ok ht).1,
        (((restoring config n).evaluate c).ok hc).1] at hr
      rw [Moment.endsWith_execute, execute_branch]
      refine .behind hc (.behind ht ?_)
      rw [if_neg (by rw [hv]; exact Bool.false_ne_true), executeOptional_of_ne config n hs]
      exact hr
  | @loopBody n c s w m m₁ m₂ hrs hc hv =>
      have h := restoring config n
      rw [Moment.endsWith_execute, ((h.evaluate c).ok hc).1,
        (hrs.restores (h.evaluate c).map (h.execute s)).1] at hr
      rw [Moment.endsWith_execute, execute_loop]
      have hround : (Value.isTruthy <$> evaluate config n c) m₁ = .ok true m₂ := by
        rw [← hv]
        exact Run.bind_of_ok hc
      exact .whileTrue hrs hround hr config.rounds
  | _ => cases hb

/-- **Behind a `return` nothing is done in the same call.** -/
theorem Within.endsWith (h : Within config a b) (hr : b.result config = .ok [v] m') :
    a.EndsWith config v m' := by
  induction h with
  | @here b hb =>
      obtain ⟨n, task, m⟩ := b
      have h := restoring config n
      cases task with
      | block id statements =>
          refine .inl (hr.trans ?_)
          rw [← (((h.block id statements).map).ok hr).1]
      | execute s =>
          refine .inl (hr.trans ?_)
          rw [← (((h.execute s).map).ok hr).1]
      | _ => cases hb
  | inner h hb _ ih => exact h.endsWith hb (ih hr)

end Moments

/-! ### Programs -/

/-- **Handing a `return` on is the same as raising it**: a program ends in the same way on the same
machine.  Neither an expression nor a call raises anything, and where a statement does, the open calls are
those in which it was executed, so a `return` stays inside its call; and there nothing is done behind
it. -/
theorem return_unwinds (config : Config) (frames : Nat) (statements : List Node) (m : Machine) :
    interpret config frames statements m = Unwind.interpret config frames statements m ∧
    (∀ n e m calls v m' calls', Unwind.evaluate config n e m calls ≠ .raised v m' calls') ∧
    (∀ n f vs paren m calls v m' calls',
      Unwind.invoke config n f vs paren m calls ≠ .raised v m' calls') ∧
    (∀ n s m calls v m' calls', Unwind.execute config n s m calls = .raised v m' calls' →
      CallEvent.opened calls' = CallEvent.opened calls) ∧
    ∀ a b v m', Within config a b → b.result config = .ok [v] m' → a.EndsWith config v m' :=
  ⟨interpret_eq_unwind config frames statements m,
    fun n e => ((unwinding config n).evaluate e).not_raised,
    fun n f vs paren => ((unwinding config n).invoke f vs paren).not_raised,
    fun n s _ _ _ _ _ => ((unwinding config n).execute s).opened_of_raised,
    fun _ _ _ _ => Within.endsWith⟩

/-- The program `fun f(a) { while (a) { { return a; } print "no"; } print "no"; } print f("yes"); return;
print "no";` prints one line.  The `return` in the loop is raised in the same call, and the block around it
ends where it does. -/
theorem return_unwinds_loop :
    let token := fun kind text => Token.ofText kind text .null 1
    let a := token .identifier "a"
    let f := token .identifier "f"
    let paren := token .rightParen ")"
    let no := Node.print (.literal (.text "no"))
    let leave := fun e => Node.returns (token .returnWord "return") e
    let body := Node.block [.block [leave (.reference a)], no]
    let call := Node.call (.reference f) paren [.literal (.text "yes")]
    let program := [.function f [a] [.loop (.reference a) body, no], .print call, leave .null, no]
    let s := Session.start {} []
    let m := { s.machine with heap := s.machine.heap.define 0 (.text "a") (.text "yes") }
    let ended := Unwind.interpret s.config 20 program s.machine
    ended.1 = none ∧ ended.2.output = #[("yes" : Text)] ∧
      (∃ m' calls, Unwind.execute s.config 6 body m [.entered paren] = .raised (.text "yes") m' calls ∧
        CallEvent.opened calls = [paren]) ∧
      ∃ m', Moment.EndsWith s.config ⟨6, .execute body, m⟩ (.text "yes") m' ∧ m'.output = #[] := by
  intro token a f paren no leave body call program s m ended
  obtain ⟨hprogram, -, -, hopened, hbehind⟩ := return_unwinds s.config 20 program s.machine
  have hended : ended = interpret s.config 20 program s.machine := hprogram.symm
  have hfirst : ∀ (n id : Nat) (s' : Node) (rest : List Node) (m : Machine),
      Enters s.config ⟨n + 1, .block id (s' :: rest), m⟩
        ⟨n, .execute s', { m with current := id }⟩ :=
    fun n id s' rest m => @Enters.statement s.config n id [] rest s' m _ rfl
  have hwithin : Within s.config ⟨6, .execute body, m⟩ ⟨2, .execute (leave (.reference a)), _⟩ :=
    .inner (.block rfl) rfl <| .inner (hfirst _ _ _ _ _) rfl <|
      .inner (.block rfl) rfl <| .inner (hfirst _ _ _ _ _) rfl (.here rfl)
  have hraised : Unwind.execute s.config 6 body m [.entered paren] = .raised (.text "yes") _ _ := rfl
  rw [hended]
  refine ⟨by decide +kernel, by decide +kernel, ⟨_, _, hraised, ?_⟩, ?_⟩
  · exact hopened _ _ _ _ _ _ _ hraised
  · exact ⟨_, hbehind _ _ _ _ hwithin rfl, rfl⟩

end Lox
