import Lox.Proofs.Eval.WellFormed
import Lox.Proofs.Session

/-!
# Sessions keep their scopes in order

Whatever programs a session runs and however they end, its machine is well formed between the steps
and at every moment inside them, as long as the natives bring no scopes of their own
(`Session.Admits`), which is so if they only hand on the scopes that they are given
(`Session.admits_of_addsNoScope`).  No scope ever moves into another one, and a function keeps the scope in
which its declaration was executed (`Session.Born`).

`Session.wellFormed_after` puts this together, with what it means for the walks along the scopes.
-/

namespace Lox

variable {B : Value → Prop} {m m' : Machine}

theorem Value.Fits.imp {B' : Value → Prop} {k : Nat} {v : Value} (h : v.Fits B k)
    (hB : ∀ f, B f → B' f) : v.Fits B' k :=
  ⟨h.1, fun f hf => hB f (h.2 f hf)⟩

/-- A sound machine is sound for more functions. -/
theorem Machine.Sound.imp {B' : Value → Prop} (h : m.Sound B) (hB : ∀ f, B f → B' f) :
    m.Sound B' :=
  ⟨h.rooted, h.current, h.holds.mono fun _ hv => hv.imp hB⟩

namespace Session

/-- While a session runs statements, the natives bring no scopes of their own: a function that one of them
gives is of a scope that is there. -/
def GivesWithin (s : Session) (statements : List Node) : Prop :=
  ∀ calls n name arity function vs m v,
    s.During statements calls ⟨n, .body (.native name arity function) vs, m⟩ →
    s.config.host.call function m.hostCalls vs = .value v → v.Within m.heap.size

/-- Nor do they in any of the steps. -/
def Admits (s : Session) : List Step → Prop
  | [] => True
  | step :: steps =>
    (∀ statements, step.statements? = some statements → s.GivesWithin statements) ∧
      (s.perform step).Admits steps

/-- Where the functions of a session come from: from a declaration that was executed in one of its steps,
or from a native that was called in one.  A function that was declared has the scope that was current
then. -/
inductive Born (settings : Settings) (natives : List (Text × Native)) (steps : List Step) :
    Value → Prop where
  | declared {before : List Step} {step : Step} {statements : List Node} {calls n : Nat}
      {name : Token} {params : List Token} {body : List Node} {m : Machine}
      (hs : before ++ [step] <+: steps) (hp : step.statements? = some statements)
      (hd : ((start settings natives).after before).During statements calls
        ⟨n + 1, .execute (.function name params body), m⟩) :
      Born settings natives steps
        (.function name.lexeme (params.map Token.lexeme) body m.current)
  | given {before : List Step} {step : Step} {statements : List Node} {calls n : Nat}
      {name : Text} {arity : Int} {function : HostFunction} {vs : List Value} {m : Machine} {v f : Value}
      (hs : before ++ [step] <+: steps) (hp : step.statements? = some statements)
      (hd : ((start settings natives).after before).During statements calls
        ⟨n, .body (.native name arity function) vs, m⟩)
      (hv : settings.host.call function m.hostCalls vs = .value v) (hf : v.function? = some f) :
      Born settings natives steps f

variable {settings : Settings} {natives : List (Text × Native)} {steps more : List Step}

/-- A function that was born stays so. -/
theorem Born.mono {f : Value} (h : Born settings natives steps f) (hs : steps <+: more) :
    Born settings natives more f := by
  cases h with
  | declared hb hp hd => exact .declared (hb.trans hs) hp hd
  | given hb hp hd hv hf => exact .given (hb.trans hs) hp hd hv hf

/-! ### Steps -/

theorem freshMachine_sound : freshMachine.Sound B := by
  have hget : ∀ i s, freshMachine.heap.get? i = some s → i = 0 ∧ s = ⟨none, []⟩ := by
    intro i s hs
    rw [freshMachine, Heap.get?_push] at hs
    split at hs
    · rename_i hi
      cases hs
      exact ⟨hi, rfl⟩
    · cases hs
  refine ⟨⟨⟨⟨none, []⟩, rfl, rfl⟩, fun i s hs hi => absurd (hget i s hs).1 hi⟩, Nat.zero_lt_one, ?_⟩
  exact Heap.Holds.empty.push none

/-- A native is no function of the program. -/
theorem bindNative_sound {s : Session} (hs : s.machine.Sound B) (name : Text) (native : Native) :
    s.machine.Leads B (s.bindNative name native).machine :=
  hs.define globals _ (.plain rfl)

/-- At the start no function is bound. -/
theorem start_sound : (start settings natives).machine.Sound B :=
  List.foldlRecOn (motive := fun s : Session => s.machine.Sound B) natives _
    (bindNative_sound (s := ⟨settings, freshMachine, _⟩) freshMachine_sound _ _).sound
    fun _ hs native _ => (bindNative_sound hs native.1 native.2).sound

theorem host_after_start (steps : List Step) :
    ((start settings natives).after steps).settings.host = settings.host :=
  (host_after _ steps).trans (congrArg Settings.host (settings_start settings natives))

/-- A step that runs statements keeps a machine sound if these do. -/
theorem perform_leads {s : Session} (hs : s.machine.Sound B) {step : Step}
    (hw : ∀ statements, step.statements? = some statements →
      Witnesses s.config (fun b => ∃ calls, s.During statements calls b) B) :
    s.machine.Leads B (s.perform step).machine := by
  cases step with
  | interpret statements | run statements => exact interpret_leads (hw statements rfl) hs
  | runTree tree =>
      rw [perform, runTree]
      cases ht : tree.statements? with
      | none => exact hs.same rfl rfl
      | some statements => exact interpret_leads (hw statements ht) hs
  | defineNative native => exact bindNative_sound hs _ native
  | setMaxDepth | close => exact hs.same rfl rfl

/-- The functions declared or given while the next step runs a program are among those of the session. -/
theorem witnesses {step : Step} {statements : List Node} (hp : step.statements? = some statements)
    (hg : ((start settings natives).after steps).GivesWithin statements) :
    let s := (start settings natives).after steps
    Witnesses s.config (fun b => ∃ calls, s.During statements calls b)
      (Born settings natives (steps ++ [step])) := by
  refine During.witnesses (fun _ _ _ _ _ _ h => .declared (List.prefix_refl _) hp h) ?_
  intro calls n name arity function vs m v h hv
  refine ⟨hg _ _ _ _ _ _ _ _ h hv, fun f hf => .given (List.prefix_refl _) hp h ?_ hf⟩
  rw [← hv, ← host_after_start steps]
  rfl

/-- More steps lead to a later machine, whose functions were born in them or before. -/
theorem after_leads (hs : ((start settings natives).after steps).machine.Sound
      (Born settings natives steps)) (ha : ((start settings natives).after steps).Admits more) :
    ((start settings natives).after steps).machine.Leads (Born settings natives (steps ++ more))
      ((start settings natives).after (steps ++ more)).machine := by
  induction more generalizing steps with
  | nil =>
      rw [List.append_nil]
      exact hs.same rfl rfl
  | cons step more ih =>
      have hs' := hs.imp fun f hf => hf.mono (List.prefix_append steps [step])
      have hstep := perform_leads hs' fun statements hp => witnesses hp (ha.1 statements hp)
      have hnext : ((start settings natives).after steps).perform step =
          (start settings natives).after (steps ++ [step]) := (after_append _ steps [step]).symm
      rw [hnext] at hstep
      have hrest := ih hstep.sound (hnext ▸ ha.2)
      rw [List.append_assoc] at hrest
      exact ⟨hrest.sound, hstep.grows.trans hrest.grows⟩

/-- The steps and those behind them are admitted one by one. -/
theorem Admits.append {s : Session} (h : s.Admits (steps ++ more)) :
    s.Admits steps ∧ (s.after steps).Admits more := by
  induction steps generalizing s with
  | nil => exact ⟨trivial, h⟩
  | cons step steps ih => exact ⟨⟨h.1, (ih h.2).1⟩, (ih h.2).2⟩

/-- Natives that only hand on the scopes they are given bring none of their own. -/
theorem admits_of_addsNoScope {s : Session} (hh : s.settings.host.AddsNoScope)
    (hs : s.machine.Sound fun _ => True) (steps : List Step) : s.Admits steps := by
  induction steps generalizing s with
  | nil => trivial
  | cons step steps ih =>
      have hw : ∀ statements, Witnesses s.config (fun b => ∃ calls, s.During statements calls b)
          fun _ => True := fun _ => .all hh fun ⟨_, ha⟩ h => ⟨_, .inner ha h⟩
      refine ⟨fun statements _ calls n name arity function vs m v h hv => ?_,
        ih ((host_perform s step).symm ▸ hh) (perform_leads hs fun statements _ => hw statements).sound⟩
      obtain ⟨⟨hm, hvs, -⟩, -⟩ := During.sound (hw statements) hs h
      exact (hh.fits hm (List.forall_mem_cons.mp hvs).2 hv).1

/-! ### Reached sessions -/

/-- **The scopes of a session stay in order.**  The natives bring no scopes of their own.  Behind any
steps the machine of the session is sound: every scope but the global one is inside an earlier scope,
the current scope and the scopes of all functions bound are in the heap, and every function is as it
was declared or given.  From then on the heap only grows, and no scope changes the one it is inside of.

Inside a step the same holds of every moment, also for the values that a call is about to use, and of
the end of the task that starts there, however it ends and whatever values it gives.  It holds of
whatever is run on a well-formed machine, and on such a machine all walks along the scopes end, and
lead to the global scope. -/
theorem wellFormed_after (settings : Settings) (natives : List (Text × Native))
    (steps more : List Step) (ha : (start settings natives).Admits (steps ++ more)) :
    let s := (start settings natives).after steps
    s.machine.Sound (Born settings natives steps) ∧
    s.machine.heap.Grows ((start settings natives).after (steps ++ more)).machine.heap ∧
    (∀ statements, s.GivesWithin statements → ∀ calls b, s.During statements calls b →
      let born := Born settings natives (steps ++ [.interpret statements])
      b.Sound born ∧ s.machine.heap.Grows b.machine.heap ∧
        (b.result s.config).Stays born b.machine fun k vs => ∀ v ∈ vs, v.Fits born k) ∧
    ∀ m : Machine, m.WellFormed → m.heap.Walks ∧
      ∀ config : Config, config.host.AddsNoScope → ∀ n,
        (∀ e, (evaluate config n e m).machine.WellFormed ∧
          m.heap.Grows (evaluate config n e m).machine.heap) ∧
        ∀ stmt, (execute config n stmt m).machine.WellFormed ∧
          m.heap.Grows (execute config n stmt m).machine.heap := by
  intro s
  obtain ⟨hsteps, hmore⟩ := Admits.append ha
  have hstart : ((start settings natives).after []).machine.Sound (Born settings natives []) :=
    start_sound
  have hs : s.machine.Sound (Born settings natives steps) := (after_leads hstart hsteps).sound
  refine ⟨hs, (after_leads hs hmore).grows, fun statements hg calls b h => ?_, fun m hm => ?_⟩
  · have hs' := hs.imp fun f hf => hf.mono (List.prefix_append steps [.interpret statements])
    obtain ⟨hb, hgrows⟩ := During.sound (witnesses rfl hg) hs' h
    exact ⟨hb, hgrows, hb.result (witnesses rfl hg) ⟨calls, h⟩⟩
  · refine ⟨hm.rooted.walks, fun config hh n => ?_⟩
    have hall : Witnesses config (fun _ => True) fun _ => True := .all hh fun _ _ => trivial
    refine ⟨fun e => ?_, fun stmt => ?_⟩
    · have h := ((soundly hall n).evaluate e m trivial hm.sound).machine
      exact ⟨h.sound.wellFormed, h.grows⟩
    · have h := ((soundly hall n).execute stmt m trivial hm.sound).machine
      exact ⟨h.sound.wellFormed, h.grows⟩

/-- After `fun f() {}` was run, `pick(f)();` calls a function of the global scope, at a sound moment. -/
theorem wellFormed_after_inside_call :
    let host : Host := ⟨fun _ => ⟨0⟩, fun _ _ vs => .value (vs.headD .nil)⟩
    let f := Token.ofText .identifier "f" (.word "f") 1
    let pick := Token.ofText .identifier "pick" (.word "pick") 1
    let paren := Token.ofText .rightParen ")" .null 1
    let picked := Node.call (.reference pick) paren [.reference f]
    let called := Node.expression (.call picked paren [])
    let steps := [Step.interpret [.function f [] []], .defineNative ⟨"pick", 1, .given 0⟩]
    let s := (start { host := host } []).after steps
    let born := Born { host := host } [] (steps ++ [.interpret [called]])
    ∃ b, s.During [called] 1 b ∧ b.task = .body (.function (.word "f") [] [] globals) [] ∧
      b.Sound born := by
  intro host f pick paren picked called steps s born
  have hh : host.AddsNoScope := by
    intro function before vs v k hk hvs hv
    cases function with
    | clock =>
        cases hv
        exact nofun
    | given number =>
        cases hv
        cases vs with
        | nil => exact nofun
        | cons v vs => exact hvs v List.mem_cons_self
  have hadmits : ∀ steps, (start { host := host } []).Admits steps :=
    admits_of_addsNoScope hh start_sound
  have hs : [called] = [] ++ called :: [] := rfl
  have h : s.During [called] 0 _ := .statement hs rfl rfl
  have hb : s.During [called] 1 _ :=
    .inner (.inner (.inner h .expression) (.invoke rfl rfl)) (.body rfl)
  obtain ⟨-, -, hmoments, -⟩ := wellFormed_after { host := host } [] steps [] (hadmits _)
  have hgives := (Admits.append (hadmits (steps ++ [.interpret [called]]))).2.1 [called] rfl
  exact ⟨_, hb, rfl, (hmoments [called] hgives 1 _ hb).1⟩

end Session

end Lox
