import Lox.Proofs.Eval.Simulation
import Lox.Proofs.Session

/-!
# The level of a session only decides what is told

A session at one level and the same session at a higher one do the same in every step.  They differ in what
they tell, and in nothing else: no step of a run looks at what was told before.  Only where the session at
the higher level is to tell what no file can hold, it stops, and the other goes on
(`Session.after_levels_lost`).

* `Run.Retold lost f p q`: the step `p` does to a machine whose trace is changed by `f` what `q` does before
  the change, unless, where that may be, `q` cannot tell something.
* `Config.Retells.simulation`: this goes through every task, if it does through the telling of each event.
* `Session.hush_perform`: so leaving out the events above a level, before a step or behind it, is the
  same; `Session.perform_closed`: and a session that is closed tells nothing more.
* `Session.after_levels`: what the level of a session means for all of its steps.
-/

namespace Lox

variable {α β : Type} {lost : Prop}

/-! ### Changing what was told -/

/-- The machine with another trace. -/
def Machine.retell (f : Array Event → Array Event) (m : Machine) : Machine :=
  { m with trace := f m.trace }

/-- The same end, with another trace. -/
def Result.retell (f : Array Event → Array Event) : Result α → Result α
  | .ok a m => .ok a (m.retell f)
  | .stop why m => .stop why (m.retell f)

/-- The step stops at something that cannot be told. -/
def Result.IsLost (r : Result α) : Prop := ∃ m, r = .stop (.fault .unwritable) m

namespace Run

/-- The first step does behind a change of the trace what the second does in front of it; or the second
stops at something that cannot be told, if such may be `lost`. -/
def Retold (lost : Prop) (f : Array Event → Array Event) (p q : Run α) : Prop :=
  ∀ m : Machine, lost ∧ (q m).IsLost ∨ p (m.retell f) = (q m).retell f

namespace Retold

variable {f : Array Event → Array Event}

/-- A step that tells nothing is the same at every level. -/
theorem plain {p : Run α} (h : p.Plain) : p.Retold lost f p := by
  intro m
  right
  cases h with
  | pure | fault | exhausted | printLine | currentScope | openCalls | newScope => rfl
  | namesOf names =>
      rw [Run.namesOf, Run.namesOf]
      split <;> rfl
  | callHost config function vs =>
      rw [Run.callHost, Run.callHost]
      dsimp only [Machine.retell]
      cases config.host.call function m.hostCalls vs <;> rfl
  | lookup t =>
      rw [Run.lookup, Run.lookup]
      cases Name.ofJson? t.lexeme with
      | none => rfl
      | some name =>
          dsimp only [Machine.retell]
          cases m.heap.lookup? m.current name <;> rfl
  | assign t v =>
      rw [Run.assign, Run.assign]
      cases Name.ofJson? t.lexeme with
      | none => rfl
      | some name =>
          dsimp only [Machine.retell]
          cases m.heap.resolve? m.current name <;> rfl
  | define t v =>
      rw [Run.define, Run.define]
      split <;> rfl

/-- What is lost on the way is lost. -/
theorem bind {p q : Run α} {g g' : α → Run β} (hp : p.Retold lost f q)
    (hg : ∀ a, (g a).Retold lost f (g' a)) : (p >>= g).Retold lost f (q >>= g') := by
  intro m
  obtain ⟨hl, m₁, hq⟩ | h := hp m
  · exact .inl ⟨hl, m₁, bind_of_stop hq⟩
  cases hq : q m with
  | ok a m₁ =>
      rw [hq] at h
      rw [bind_of_ok h, bind_of_ok hq]
      exact hg a m₁
  | stop why m₁ =>
      rw [hq] at h
      rw [bind_of_stop h, bind_of_stop hq]
      exact .inr rfl

theorem inScope (id : Nat) {p q : Run α} (hp : p.Retold lost f q) :
    (inScope id p).Retold lost f (inScope id q) := by
  intro m
  rw [Run.inScope, Run.inScope]
  obtain ⟨hl, m₁, hq⟩ | h := hp { m with current := id }
  · rw [hq]
    exact .inl ⟨hl, _, rfl⟩
  · rw [show p { m.retell f with current := id } = _ from h]
    right
    cases q { m with current := id } <;> rfl

/-- Leaving a call is no matter of the level. -/
theorem leaving {p q : Run α} (hp : p.Retold lost f q) :
    (leaving p).Retold lost f (leaving q) := by
  intro m
  rw [Run.leaving, Run.leaving]
  obtain ⟨hl, m₁, hq⟩ | h := hp m
  · rw [hq]
    exact .inl ⟨hl, _, rfl⟩
  · rw [h]
    right
    cases q m <;> rfl

theorem whileTrue {condition condition' : Run Bool} {body body' : Run (Option α)}
    (hc : condition.Retold lost f condition') (hb : body.Retold lost f body') (rounds : Nat) :
    Retold lost f (whileTrue condition body rounds) (whileTrue condition' body' rounds) := by
  induction rounds with
  | zero => exact plain (.fault .unfinished)
  | succ rounds ih =>
      rw [whileTrue_succ, whileTrue_succ]
      refine hc.bind fun go => ?_
      split
      · refine hb.bind fun o => ?_
        cases o with
        | none => exact ih
        | some a => exact plain (.pure (some a))
      · exact plain (.pure none)

end Retold

end Run

/-- The first configuration is like the second but for its level, and telling an event under it goes with
a change of the trace. -/
structure Config.Retells (lost : Prop) (f : Array Event → Array Event) (config config' : Config) :
    Prop where
  maxDepth : config.maxDepth = config'.maxDepth
  host : config.host = config'.host
  rounds : config.rounds = config'.rounds
  told : ∀ event, (Run.tell config event).Retold lost f (Run.tell config' event)

namespace Config.Retells

variable {f : Array Event → Array Event} {config config' : Config}

/-- Retelling is a simulation, so it holds of all that is run. -/
theorem simulation (h : config.Retells lost f config') :
    Simulation config config' fun _ p q => p.Retold lost f q where
  host := h.host
  plain := .plain
  bind := .bind
  tell := h.told
  inScope id := .inScope id
  enterCall _ := fun _ => .inr rfl
  leaving := .leaving
  checkCall callee given depth paren := by
    have hcheck : Lox.checkCall config callee given depth paren =
        Lox.checkCall config' callee given depth paren := by
      rw [Lox.checkCall, Lox.checkCall, h.maxDepth]
    rw [hcheck]
    cases Lox.checkCall config' callee given depth paren with
    | ok u => exact .plain (.pure u)
    | error fault => exact .plain (.fault fault)
  whileTrue hc hb := by
    rw [h.rounds]
    exact hc.whileTrue hb _

/-- The end of a run is told like any event. -/
theorem settle (h : config.Retells lost f config') (why : Option Stop) (m : Machine) :
    lost ∧ (settle config' why m).1 = some .unwritable ∨
      settle config why (m.retell f) =
        ((settle config' why m).1, (settle config' why m).2.retell f) := by
  rw [Lox.settle, Lox.settle]
  cases endEvent why with
  | none => exact .inr rfl
  | some event =>
      dsimp only
      obtain ⟨hl, m₁, hq⟩ | heq := h.told event m
      · rw [hq]
        exact .inl ⟨hl, rfl⟩
      · rw [heq]
        right
        cases Run.tell config' event m <;> rfl

/-- **A program does the same behind a change of the trace**, unless something is lost. -/
theorem interpret (h : config.Retells lost f config') (frames : Nat) (statements : List Node)
    (m : Machine) :
    lost ∧ (interpret config' frames statements m).1 = some .unwritable ∨
      interpret config frames statements (m.retell f) =
        ((interpret config' frames statements m).1,
          (interpret config' frames statements m).2.retell f) := by
  rw [interpret_eq_endOf, interpret_eq_endOf]
  obtain ⟨hl, m₁, hr⟩ | hr := h.simulation.runProgram (.inl (Eq.refl frames)) statements m
  · rw [hr]
    exact .inl ⟨hl, rfl⟩
  · rw [hr]
    cases runProgram config' frames statements m with
    | ok o m₁ => exact h.settle none m₁
    | stop why m₁ => exact h.settle (some why) m₁

end Config.Retells

/-! ### Sessions at a lower level -/

theorem Event.level_pos (event : Event) : 0 < event.level := by
  cases event <;> exact Nat.succ_pos _

/-- No event is told above the third level only. -/
theorem Event.level_le (event : Event) : event.level ≤ 3 := by
  cases event <;> simp only [level] <;> omega

/-- The events up to a level. -/
def upTo (k : Nat) (trace : Array Event) : Array Event := trace.filter fun event => event.level ≤ k

/-- One more event is kept if its level is within the bound. -/
theorem upTo_push (k : Nat) (trace : Array Event) (event : Event) :
    upTo k (trace.push event) = if event.level ≤ k then (upTo k trace).push event else upTo k trace := by
  rw [upTo, Array.filter_push]
  simp only [decide_eq_true_eq, upTo]

namespace Session

/-- How a step ends: with a fault, if with any. -/
def outcome (s : Session) : Step → Option Fault
  | .interpret statements => (s.interpret statements).1
  | .run statements => (s.run statements).1
  | .runTree tree => (s.runTree tree).1
  | _ => none

/-- Whether a step closes the session. -/
def Step.closes : Step → Bool
  | .run _ | .runTree _ | .close => true
  | _ => false

/-- The session as it is at a lower level. -/
def hush (k : Nat) (s : Session) : Session :=
  { settings := { s.settings with level := k }, machine := s.machine.retell (upTo k),
    telling := s.telling && decide (0 < k) }

/-- The session tells at least what it tells at a level. -/
def Covers (s : Session) (k : Nat) : Prop := min k 3 ≤ s.settings.level

section Hush

variable {s : Session} {k : Nat}

theorem hush_level (h : s.Covers k) (event : Event) :
    event.level ≤ (s.hush k).config.level ↔ event.level ≤ s.config.level ∧ event.level ≤ k := by
  have hpos := event.level_pos
  have hle := event.level_le
  simp only [Covers] at h
  by_cases ht : s.telling = true
  · by_cases hk : 0 < k
    · simp only [config, hush, ht, hk, decide_true, Bool.and_self, if_true]
      omega
    · simp only [config, hush, hk, decide_false, Bool.and_false, ht, if_true, Bool.false_eq_true,
        if_false]
      omega
  · simp only [config, hush, ht, Bool.false_and, Bool.false_eq_true, if_false]
    omega

/-- An event is told at the lower level where it is at the higher one, or it is left out of the trace there.
What cannot be told at the higher level is lost. -/
theorem hush_config (h : s.Covers k) : (s.hush k).config.Retells True (upTo k) s.config := by
  refine ⟨rfl, rfl, rfl, fun event m => ?_⟩
  rw [Run.tell, Run.tell]
  by_cases hs : event.level ≤ s.config.level
  · rw [if_pos hs]
    cases hp : event.text.isProper with
    | false => exact .inl ⟨trivial, m, rfl⟩
    | true =>
        right
        by_cases hk : event.level ≤ k
        · rw [if_pos ((hush_level h event).mpr ⟨hs, hk⟩)]
          simp [Machine.retell, Result.retell, upTo_push, hk]
        · rw [if_neg fun hc => hk ((hush_level h event).mp hc).2]
          simp [Machine.retell, Result.retell, upTo_push, hk]
  · rw [if_neg hs, if_neg fun hc => hs ((hush_level h event).mp hc).1]
    exact .inr rfl

/-- If nothing gets lost, a program does the same at a lower level and tells the part for it. -/
theorem hush_interpret (h : s.Covers k) {statements : List Node}
    (htold : (s.interpret statements).1 ≠ some .unwritable) :
    (s.hush k).interpret statements =
      ((s.interpret statements).1, (s.interpret statements).2.hush k) := by
  have hr := (hush_config h).interpret (framesFor s.settings.maxDepth) statements s.machine
  replace hr := hr.resolve_left fun hlost => htold hlost.2
  show (fun r : Option Fault × Machine => (r.1, { s.hush k with machine := r.2 }))
    (Lox.interpret (s.hush k).config (framesFor s.settings.maxDepth) statements
      (s.machine.retell (upTo k))) = _
  rw [hr]
  rfl

/-- Leaving out events before a step or behind it is the same. -/
theorem hush_perform (h : s.Covers k) {step : Step} (htold : s.outcome step ≠ some .unwritable) :
    (s.hush k).perform step = (s.perform step).hush k ∧ (s.hush k).outcome step = s.outcome step := by
  cases step with
  | interpret statements =>
      rw [perform, outcome, hush_interpret h htold]
      exact ⟨rfl, rfl⟩
  | run statements =>
      rw [perform, outcome, run, hush_interpret h htold]
      exact ⟨rfl, rfl⟩
  | runTree tree =>
      rw [outcome, runTree] at htold
      rw [perform, perform, outcome, outcome, runTree, runTree]
      cases htree : tree.statements? with
      | none => exact ⟨rfl, rfl⟩
      | some statements =>
          rw [htree] at htold
          dsimp only
          rw [run, hush_interpret h htold]
          exact ⟨rfl, rfl⟩
  | defineNative native => exact ⟨rfl, rfl⟩
  | setMaxDepth maxDepth => exact ⟨rfl, rfl⟩
  | close => exact ⟨rfl, rfl⟩

theorem perform_level (s : Session) (step : Step) :
    (s.perform step).settings.level = s.settings.level := by
  cases step with
  | runTree tree =>
      rw [perform, runTree]
      cases tree.statements? <;> rfl
  | _ => rfl

/-- No step ends because something cannot be told. -/
def TellsAll (s : Session) : List Step → Prop
  | [] => True
  | step :: steps => s.outcome step ≠ some .unwritable ∧ (s.perform step).TellsAll steps

/-- So do the steps of a session. -/
theorem hush_after (h : s.Covers k) {steps : List Step} (htold : s.TellsAll steps) :
    (s.hush k).after steps = (s.after steps).hush k := by
  induction steps generalizing s with
  | nil => rfl
  | cons step steps ih =>
      show ((s.hush k).perform step).after steps = ((s.perform step).after steps).hush k
      rw [(hush_perform h htold.1).1]
      refine ih ?_ htold.2
      rw [Covers, perform_level]
      exact h

/-- No step changes the level. -/
theorem after_level (s : Session) (steps : List Step) :
    (s.after steps).settings.level = s.settings.level := by
  induction steps generalizing s with
  | nil => rfl
  | cons step steps ih => exact (ih (s.perform step)).trans (perform_level s step)

/-- A new session has told nothing. -/
theorem hush_start (settings : Settings) (natives : List (Text × Native)) {k top : Nat}
    (h : min k 3 ≤ top) :
    (start { settings with level := top } natives).hush k =
      start { settings with level := k } natives := by
  let bind : Session → Text × Native → Session := fun s native => s.bindNative native.1 native.2
  let first : Nat → Session := fun level =>
    defineNative ⟨{ settings with level := level }, freshMachine, decide (0 < level)⟩ Native.clock
  have hfirst : (first top).hush k = first k := by
    have htelling : (decide (0 < top) && decide (0 < k)) = decide (0 < k) := by
      by_cases hk : 0 < k
      · simp only [hk, decide_true, Bool.and_true, decide_eq_true_eq]
        omega
      · simp [hk]
    show (⟨_, _, decide (0 < top) && decide (0 < k)⟩ : Session) = ⟨_, _, decide (0 < k)⟩
    rw [htelling]
    rfl
  have hhom : natives.foldl bind ((first top).hush k) = (natives.foldl bind (first top)).hush k :=
    List.foldl_hom (hush k) fun _ _ => rfl
  rw [hfirst] at hhom
  exact hhom.symm

end Hush

/-! ### Closed sessions -/

theorem interpret_closed {s : Session} (h : s.telling = false) (statements : List Node) :
    (s.interpret statements).2.machine.trace = s.machine.trace := by
  -- nothing is told, so the trace may be replaced by what it was before
  have hretells : s.config.Retells False (fun _ => s.machine.trace) s.config := by
    refine ⟨rfl, rfl, rfl, fun event m => .inr ?_⟩
    have hlevel : ¬ event.level ≤ s.config.level := by
      rw [config, h]
      exact Nat.not_le.mpr event.level_pos
    rw [Run.tell, Run.tell, if_neg hlevel, if_neg hlevel]
    rfl
  have hr := hretells.interpret (framesFor s.settings.maxDepth) statements s.machine
  replace hr := hr.resolve_left fun hlost => hlost.1
  exact congrArg (fun r : Option Fault × Machine => r.2.trace) hr

/-- A session that is closed stays closed and tells nothing more. -/
theorem perform_closed {s : Session} (h : s.telling = false) (step : Step) :
    (s.perform step).telling = false ∧ (s.perform step).machine.trace = s.machine.trace := by
  cases step with
  | interpret statements => exact ⟨h, interpret_closed h statements⟩
  | run statements => exact ⟨rfl, interpret_closed h statements⟩
  | runTree tree =>
      rw [perform, runTree]
      cases tree.statements? with
      | none => exact ⟨rfl, rfl⟩
      | some statements => exact ⟨rfl, interpret_closed h statements⟩
  | defineNative native => exact ⟨h, rfl⟩
  | setMaxDepth maxDepth => exact ⟨h, rfl⟩
  | close => exact ⟨rfl, rfl⟩

/-- Behind the end of its trace, a session tells nothing more. -/
theorem after_closed {s : Session} (h : s.telling = false) (steps : List Step) :
    (s.after steps).machine.trace = s.machine.trace := by
  induction steps generalizing s with
  | nil => rfl
  | cons step steps ih =>
      obtain ⟨hclosed, htrace⟩ := perform_closed h step
      exact (ih hclosed).trans htrace

theorem perform_closes (s : Session) {step : Step} (h : step.closes = true) :
    (s.perform step).telling = false := by
  cases step with
  | run | close => rfl
  | runTree tree =>
      rw [perform, runTree]
      cases tree.statements? <;> rfl
  | _ => cases h

/-! ### Sessions at any level -/

/-- **The level only decides what is told.**  Once a step has closed a session, nothing more is told.  And
if everything can be told at some level, then at all levels that tell no more than it does, behind any
steps, a session has printed the same, has the same scopes with the same bindings, the same current scope
and the same number of open calls, and the next step ends in the same way.  What was told at such a level
is what was told at the first one, the third for instance, without the events above the level. -/
theorem after_levels (settings : Settings) (natives : List (Text × Native)) (steps : List Step) :
    let reached := fun level => (start { settings with level := level } natives).after steps
    (∀ k before step behind, steps = before ++ step :: behind → step.closes = true →
      (reached k).machine.trace =
        ((start { settings with level := k } natives).after (before ++ [step])).machine.trace) ∧
    ∀ top, (start { settings with level := top } natives).TellsAll steps → ∀ k k',
      min k 3 ≤ top → min k' 3 ≤ top →
      (∀ step, (reached top).outcome step ≠ some .unwritable →
        (reached k).outcome step = (reached k').outcome step) ∧
      (reached k).machine.output = (reached k').machine.output ∧
      (reached k).machine.heap = (reached k').machine.heap ∧
      (reached k).machine.current = (reached k').machine.current ∧
      (reached k).machine.depth = (reached k').machine.depth ∧
      (reached k).machine.trace =
        (reached top).machine.trace.filter (fun event => event.level ≤ k) := by
  intro reached
  refine ⟨fun k before step behind hsteps hstep => ?_, fun top htold k k' hk hk' => ?_⟩
  · -- nothing is told behind the step that closes the trace
    have hsplit : reached k =
        ((start { settings with level := k } natives).after (before ++ [step])).after behind := by
      show (start { settings with level := k } natives).after steps = _
      rw [hsteps, List.append_cons, after_append]
    rw [hsplit]
    refine after_closed ?_ behind
    rw [after_append]
    exact perform_closes _ hstep
  · have hstart : (start { settings with level := top } natives).settings.level = top :=
      congrArg Settings.level (settings_start _ natives)
    have hlevel : (reached top).settings.level = top := (after_level _ steps).trans hstart
    -- every level below the top is the top one, hushed
    have hreached : ∀ level, min level 3 ≤ top → reached level = (reached top).hush level := by
      intro level hle
      show (start { settings with level := level } natives).after steps = _
      rw [← hush_start settings natives hle, hush_after (by rwa [Covers, hstart]) htold]
    have hcovers : ∀ level, min level 3 ≤ top → (reached top).Covers level :=
      fun level hle => by rwa [Covers, hlevel]
    rw [hreached k hk, hreached k' hk']
    refine ⟨fun step hstep => ?_, rfl, rfl, rfl, rfl, rfl⟩
    rw [(hush_perform (hcovers k hk) hstep).2, (hush_perform (hcovers k' hk') hstep).2]

/-- At the second level, `var x = "a";` and then `print x;` are told until the second of them has closed
the session, and what is printed behind that is not. -/
theorem after_levels_closed :
    let x := Token.ofText .identifier "x" (.word "x") 1
    let declared := Step.interpret [.declare x (.literal (.text "a"))]
    let printed := [Node.print (.reference x)]
    let steps := [declared, .run printed, .interpret printed]
    ((start { level := 2 } []).after steps).machine.output = #[("a" : Text), ("a" : Text)] ∧
    ((start { level := 2 } []).after steps).machine.output =
      ((start { level := 0 } []).after steps).machine.output ∧
    ((start { level := 2 } []).after steps).machine.trace.map Event.text =
      #[("interpret 1 statement(s)" : Text), "define x = a", "finished", "interpret 1 statement(s)",
        "finished"] ∧
    ((start { level := 2 } []).after steps).machine.trace =
      ((start { level := 3 } []).after steps).machine.trace.filter (fun event => event.level ≤ 2) ∧
    ((start { level := 2 } []).after steps).machine.trace =
      ((start { level := 2 } []).after [declared, .run printed]).machine.trace := by
  intro x declared printed steps
  have htold : (start { level := 3 } []).TellsAll steps :=
    ⟨by decide +kernel, by decide +kernel, by decide +kernel, trivial⟩
  obtain ⟨hclosed, hlevels⟩ := after_levels {} [] steps
  dsimp only at hclosed hlevels
  obtain ⟨-, houtput, -, -, -, htrace⟩ := hlevels 3 htold 2 0 (by decide) (by decide)
  have hlast := hclosed 2 [declared] (.run printed) [.interpret printed] rfl rfl
  rw [List.singleton_append] at hlast
  refine ⟨?_, houtput, ?_, htrace, hlast⟩
  · decide +kernel
  · decide +kernel

/-- A stored tree may declare a variable with a value that no file can hold.  At the first level it is
declared, and at the second the session stops. -/
theorem after_levels_lost :
    let x := Token.ofText .identifier "x" (.word "x") 1
    let declared := Step.interpret [.declare x (.literal (.text ⟨"", [(⟨0⟩, "")]⟩))]
    (start { level := 1 } []).outcome declared = none ∧
      (start { level := 2 } []).outcome declared = some .unwritable := by
  decide +kernel

end Session

end Lox
