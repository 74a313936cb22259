import Lox.Proofs.Eval.Restores
import Lox.Proofs.Eval.Simulation

/-!
# Wider limits only let a run go on

A run has three limits: on the frames that its steps may nest, on the calls that may be open at a time
and on the rounds of a loop.  Under wider limits a program does the same, up to where it was stopped at a
limit.

* `Run.Appends p`: the step `p` only adds to what was printed.
* `Run.CutShort L p p'`: the step `p` ends like `p'`, unless it stops for a reason in `L`, and then it has
  printed the first lines of what `p'` prints.
* `Config.Below L config config'`: the second configuration has wider limits, and reaching one that is
  wider is a reason in `L`.
* `Config.Below.simulation`, `Config.Below.runProgram`: so whatever is run under the first is cut short of
  what is run under the second.
-/

namespace Lox

variable {α β : Type}

/-- What the first machine has printed, the second has printed in front. -/
def Machine.Precedes (m m' : Machine) : Prop := m.output.toList <+: m'.output.toList

namespace Machine.Precedes

theorem refl (m : Machine) : m.Precedes m := List.prefix_refl _

theorem trans {m m' m'' : Machine} (h : m.Precedes m') (h' : m'.Precedes m'') : m.Precedes m'' :=
  List.IsPrefix.trans h h'

end Machine.Precedes

/-! ### Steps that only add to the output -/

namespace Run

/-- The step only adds to what was printed. -/
def Appends (p : Run α) : Prop := ∀ m : Machine, m.Precedes (p m).machine

namespace Appends

/-- A step that depends on no limit prints one line more at most. -/
theorem plain {p : Run α} (h : p.Plain) : p.Appends := by
  intro m
  cases h with
  | pure | fault | exhausted | currentScope | openCalls | newScope => exact .refl m
  | callHost config function vs =>
      rw [Run.callHost]
      split <;> exact .refl m
  | printLine line =>
      show m.output.toList <+: (m.output.push line).toList
      rw [Array.toList_push]
      exact List.prefix_append _ _
  | namesOf names =>
      rw [Run.namesOf]
      split <;> exact .refl m
  | lookup t =>
      rw [Run.lookup]
      split
      · exact .refl m
      · split <;> exact .refl m
  | assign t v =>
      rw [Run.assign]
      split
      · exact .refl m
      · split <;> exact .refl m
  | define t v =>
      rw [Run.define]
      split <;> exact .refl m

/-- Sequencing: both steps only add. -/
theorem bind {p : Run α} {f : α → Run β} (hp : p.Appends) (hf : ∀ a, (f a).Appends) :
    (p >>= f).Appends := by
  intro m
  have h := hp m
  cases hr : p m with
  | ok a m₁ =>
      rw [hr] at h
      rw [bind_of_ok hr]
      exact h.trans (hf a m₁)
  | stop why m₁ =>
      rw [hr] at h
      rw [bind_of_stop hr]
      exact h

theorem tell (config : Config) (event : Event) : (tell config event).Appends := by
  intro m
  obtain ⟨trace, h⟩ | h := tell_cases config event m
  · exact h ▸ .refl m
  · exact h ▸ .refl m

theorem inScope (id : Nat) {p : Run α} (hp : p.Appends) : (inScope id p).Appends := by
  intro m
  have h := hp { m with current := id }
  rw [Run.inScope]
  generalize p { m with current := id } = r at h
  cases r <;> exact h

/-- Leaving a call takes nothing back that was printed. -/
theorem leaving {p : Run α} (hp : p.Appends) : (leaving p).Appends := by
  intro m
  have h := hp m
  rw [Run.leaving]
  generalize p m = r at h
  cases r <;> exact h

theorem whileTrue {condition : Run Bool} {body : Run (Option α)} (hc : condition.Appends)
    (hb : body.Appends) (rounds : Nat) : Appends (whileTrue condition body rounds) := by
  induction rounds with
  | zero => exact plain (.fault .unfinished)
  | succ rounds ih =>
      rw [whileTrue_succ]
      refine hc.bind fun go => ?_
      split
      · refine hb.bind fun o => ?_
        cases o with
        | none => exact ih
        | some a => exact plain (.pure (some a))
      · exact plain (.pure none)

end Appends

end Run

/-! ### Steps cut short -/

/-- The same end, or a stop for a reason in `L`, before all the other has printed is printed. -/
inductive Result.CutShort (L : Stop → Prop) : Result α → Result α → Prop where
  | same (r : Result α) : CutShort L r r
  | cut {why : Stop} {m : Machine} {r : Result α} (hw : L why) (hm : m.Precedes r.machine) :
      CutShort L (.stop why m) r

/-- What does not stop for a reason in `L` is not cut short. -/
theorem Result.CutShort.eq {L : Stop → Prop} {r r' : Result α} (h : r.CutShort L r')
    (hr : ∀ why m, r = .stop why m → ¬ L why) : r' = r := by
  cases h with
  | same => rfl
  | cut hw _ => exact absurd hw (hr _ _ rfl)

/-- A run that was cut short has printed the first lines of what the other prints. -/
theorem Result.CutShort.precedes {L : Stop → Prop} {r r' : Result α} (h : r.CutShort L r') :
    r.machine.Precedes r'.machine := by
  cases h with
  | same => exact .refl _
  | cut _ hm => exact hm

namespace Run

/-- The first step ends like the second, unless it stops for a reason in `L`. -/
structure CutShort (L : Stop → Prop) (p p' : Run α) : Prop where
  appends : p'.Appends
  result : ∀ m, (p m).CutShort L (p' m)

namespace CutShort

variable {L : Stop → Prop}

theorem refl {p : Run α} (hp : p.Appends) : p.CutShort L p := ⟨hp, fun m => .same (p m)⟩

/-- A step that stops at once. -/
theorem stop {p p' : Run α} {why : Stop} (hw : L why) (hp : ∀ m, p m = .stop why m)
    (hp' : p'.Appends) : p.CutShort L p' := by
  refine ⟨hp', fun m => ?_⟩
  rw [hp m]
  exact .cut hw (hp' m)

/-- Sequencing: if the first step is cut short, the second one of the other run only adds to its output. -/
theorem bind {p p' : Run α} {f f' : α → Run β} (hp : p.CutShort L p')
    (hf : ∀ a, (f a).CutShort L (f' a)) : (p >>= f).CutShort L (p' >>= f') := by
  have happends := hp.appends.bind fun a => (hf a).appends
  refine ⟨happends, fun m => ?_⟩
  have h := hp.result m
  generalize hr : p m = r, hr' : p' m = r' at h
  cases h with
  | same =>
      cases r with
      | ok a m₁ =>
          rw [bind_of_ok hr, bind_of_ok hr']
          exact (hf a).result m₁
      | stop why m₁ =>
          rw [bind_of_stop hr, bind_of_stop hr']
          exact .same _
  | @cut why m₁ _ hw hm =>
      rw [bind_of_stop hr]
      refine .cut hw (hm.trans ?_)
      -- whatever the second step does after that, it only adds to the output
      cases r' with
      | ok a m₂ =>
          rw [bind_of_ok hr']
          exact (hf a).appends m₂
      | stop why₂ m₂ =>
          rw [bind_of_stop hr']
          exact .refl m₂

theorem inScope (id : Nat) {p p' : Run α} (hp : p.CutShort L p') :
    (inScope id p).CutShort L (inScope id p') := by
  refine ⟨hp.appends.inScope id, fun m => ?_⟩
  have h := hp.result { m with current := id }
  rw [Run.inScope, Run.inScope]
  generalize p { m with current := id } = r, p' { m with current := id } = r' at h
  cases h with
  | same => exact .same _
  | cut hw hm => cases r' <;> exact .cut hw hm

theorem leaving {p p' : Run α} (hp : p.CutShort L p') :
    (leaving p).CutShort L (leaving p') := by
  refine ⟨hp.appends.leaving, fun m => ?_⟩
  have h := hp.result m
  rw [Run.leaving, Run.leaving]
  generalize p m = r, p' m = r' at h
  cases h with
  | same => exact .same _
  | cut hw hm => cases r' <;> exact .cut hw hm

/-- What is done behind a statement that does not return. -/
theorem goOn (o : Option α) {p p' : Run (Option α)} (hp : p.CutShort L p') :
    (goOn o p).CutShort L (goOn o p') := by
  cases o with
  | none => exact hp
  | some a => exact refl (.plain (.pure (some a)))

/-- Loops with more rounds, by induction on the rounds of the first. -/
theorem whileTrue {condition condition' : Run Bool} {body body' : Run (Option α)}
    (hc : condition.CutShort L condition') (hb : body.CutShort L body') {rounds rounds' : Nat}
    (hr : rounds = rounds' ∨ rounds ≤ rounds' ∧ L (.fault .unfinished)) :
    CutShort L (whileTrue condition body rounds) (whileTrue condition' body' rounds') := by
  induction rounds generalizing rounds' with
  | zero =>
      rcases hr with rfl | ⟨-, hu⟩
      · exact refl (.plain (.fault .unfinished))
      · exact stop hu (fun _ => rfl) (hc.appends.whileTrue hb.appends rounds')
  | succ rounds ih =>
      cases rounds' with
      | zero => exact absurd hr (by simp)
      | succ rounds' =>
          have hrest := ih (hr.imp Nat.succ.inj fun h => ⟨Nat.le_of_succ_le_succ h.1, h.2⟩)
          rw [whileTrue_succ, whileTrue_succ]
          refine hc.bind fun go => ?_
          split
          · exact hb.bind fun o => hrest.goOn o
          · exact refl (.plain (.pure none))

end CutShort

end Run

/-! ### Configurations -/

/-- The second configuration has wider limits, and reaching one that is wider is a reason in `L`. -/
structure Config.Below (L : Stop → Prop) (config config' : Config) : Prop where
  level : config.level = config'.level
  host : config.host = config'.host
  maxDepth : config.maxDepth = config'.maxDepth ∨
    config.maxDepth ≤ config'.maxDepth ∧ ∀ paren, L (.fault (.overflow (some paren)))
  rounds : config.rounds = config'.rounds ∨
    config.rounds ≤ config'.rounds ∧ L (.fault .unfinished)

namespace Config.Below

variable {L : Stop → Prop} {config config' : Config}

/-- A call that is made is made under wider limits too, and one that is refused for another reason than
the limit is refused. -/
theorem checkCall (h : config.Below L config') (f : Value) (given depth : Nat) (paren : Token) :
    (Run.ofExcept (checkCall config f given depth paren)).CutShort L
      (Run.ofExcept (checkCall config' f given depth paren)) := by
  have hfault : ∀ f, (Run.fault f : Run Unit).CutShort L (Run.fault f) :=
    fun f => .refl (.plain (.fault f))
  rw [Lox.checkCall, Lox.checkCall]
  split
  · exact hfault _
  · split
    · exact hfault _
    · rcases h.maxDepth with heq | ⟨hle, hL⟩
      · rw [heq]
        split
        · exact hfault _
        · exact .refl (.plain (.pure ()))
      · split
        · refine .stop (hL paren) (fun _ => rfl) ?_
          split
          · exact .plain (.fault _)
          · exact .plain (.pure ())
        · rename_i hd
          rw [if_neg fun hd' => hd (Int.le_trans hle hd')]
          exact .refl (.plain (.pure ()))

/-- To be cut short is a simulation, so it holds of all that is run. -/
theorem simulation (h : config.Below L config') :
    Simulation config config' fun _ p p' => p.CutShort L p' where
  host := h.host
  plain hp := .refl (.plain hp)
  bind := .bind
  tell event := by
    have htell : Run.tell config event = Run.tell config' event := by
      funext m
      rw [Run.tell, Run.tell, h.level]
    rw [htell]
    exact .refl (.tell config' event)
  inScope id := .inScope id
  enterCall paren := .refl fun m => .refl m
  leaving := .leaving
  checkCall := h.checkCall
  whileTrue hc hb := hc.whileTrue hb h.rounds

/-- A task without frames is cut short of the same task with any number of them. -/
theorem affords (config config' : Config) (hL : L .exhausted) {n n' : Nat} (hn : n ≤ n') :
    Affords config config' (fun _ p p' => p.CutShort L p') n n' := by
  refine .inr ⟨hn, fun k => ?_, .stop hL (fun _ => rfl) (.plain (.pure ()))⟩
  have hself : config'.Below L config' := ⟨rfl, rfl, .inl rfl, .inl rfl⟩
  have hk := hself.simulation.simulates (n := k) (.inl rfl)
  have hstop : ∀ {α : Type} {p : Run α}, p.CutShort L p → Run.exhausted.CutShort L p :=
    fun hp => .stop hL (fun _ => rfl) hp.appends
  exact ⟨fun e => hstop (hk.evaluate e), fun es => hstop (hk.evaluateAll es),
    fun f vs paren => hstop (hk.invoke f vs paren), fun id ss => hstop (hk.block id ss),
    fun s => hstop (hk.execute s)⟩

/-- **A program is cut short of the same program under wider limits.** -/
theorem runProgram (h : config.Below L config') (hL : L .exhausted) {frames frames' : Nat}
    (hf : frames ≤ frames') (statements : List Node) :
    (runProgram config frames statements).CutShort L (runProgram config' frames' statements) :=
  h.simulation.runProgram (affords config config' hL hf) statements

end Config.Below

end Lox
