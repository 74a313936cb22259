import Lox.Proofs.Eval.Restores
import Lox.Proofs.Eval.Simulation

/-!
# Returning by unwinding

A statement hands the value of a `return` on, and whatever executes statements has to look at what it
is handed.  Here is another way to run trees, in which nothing has to: a `return` is *raised*, and it
goes up by itself to the nearest call around it, or to the end of the program (`Unwind`).  A run of this
kind also keeps a record of the calls that are entered and left, which the machine does not.

* `Run.Unwinds view p q`: the step `p` ends as `q` does, where `view` says which of its values stand for
  a `return` on its way up.
* `unwinding`: every task ends as it does by unwinding, by induction on the frames left.
* `interpret_eq_unwind`: so a program ends in the same way, on the same machine.
-/

namespace Lox

/-- A call is entered, or the call entered last of those that are open is left. -/
inductive CallEvent where
  | entered (paren : Token)
  | left
deriving DecidableEq

/-- The end of a step; the calls are those entered and left so far, the latest first. -/
inductive Ending (α : Type) where
  | done (value : α) (machine : Machine) (calls : List CallEvent)
  /-- A `return` is on its way up. -/
  | raised (value : Value) (machine : Machine) (calls : List CallEvent)
  | stop (why : Stop) (machine : Machine) (calls : List CallEvent)

/-- Changes the machine at the end of a step, whatever the end is. -/
def Ending.onMachine {α : Type} (change : Machine → Machine) : Ending α → Ending α
  | .done a m calls => .done a (change m) calls
  | .raised v m calls => .raised v (change m) calls
  | .stop why m calls => .stop why (change m) calls

/-- A step of a run in which a `return` is raised. -/
def Unwind (α : Type) : Type := Machine → List CallEvent → Ending α

namespace Unwind

variable {α β : Type}

/-- Does nothing. -/
def succeed (a : α) : Unwind α := fun m calls => .done a m calls

/-- Goes on with the value of a step; behind a raised `return` nothing is done. -/
def andThen (p : Unwind α) (f : α → Unwind β) : Unwind β := fun m calls =>
  match p m calls with
  | .done a m' calls' => f a m' calls'
  | .raised v m' calls' => .raised v m' calls'
  | .stop why m' calls' => .stop why m' calls'

instance : Monad Unwind where
  pure := succeed
  bind := andThen

/-- A step of the machine, in which nothing is raised and no call is made. -/
def lift (p : Run α) : Unwind α := fun m calls =>
  match p m with
  | .ok a m' => .done a m' calls
  | .stop why m' => .stop why m' calls

/-- Raises a `return`. -/
def raise (v : Value) : Unwind α := fun m calls => .raised v m calls

/-- Catches a `return`, whose value is then that of the step. -/
def catchReturn (p : Unwind Value) : Unwind Value := fun m calls =>
  match p m calls with
  | .done v m' calls' => .done v m' calls'
  | .raised v m' calls' => .done v m' calls'
  | .stop why m' calls' => .stop why m' calls'

/-- Makes another scope the current one for the length of a step. -/
def inScope (id : Nat) (body : Unwind α) : Unwind α := fun m calls =>
  (body { m with current := id } calls).onMachine fun m' => { m' with current := m.current }

/-- Counts a call, keeps its closing parenthesis and records it. -/
def enterCall (paren : Token) : Unwind Unit := fun m calls =>
  .done () { m with depth := m.depth + 1, lastCall := some paren } (.entered paren :: calls)

/-- Leaves the call that is open, whatever the end of a step is, and records this behind a value. -/
def leaving (body : Unwind α) : Unwind α := fun m calls =>
  match (body m calls).onMachine fun m' => { m' with depth := m'.depth - 1 } with
  | .done a m' calls' => .done a m' (.left :: calls')
  | other => other

/-- Runs a step for each item and collects the values. -/
def collect (f : β → Unwind α) : List β → Unwind (List α)
  | [] => pure []
  | b :: rest => do
    let a ← f b
    let as ← collect f rest
    pure (a :: as)

/-- Runs a step for each item. -/
def each (f : β → Unwind Unit) : List β → Unwind Unit
  | [] => pure ()
  | b :: rest => do
    f b
    each f rest

/-- Repeats a body while a condition holds. -/
def whileTrue (condition : Unwind Bool) (body : Unwind Unit) : Nat → Unwind Unit
  | 0 => lift (Run.fault .unfinished)
  | rounds + 1 => do
    if ← condition then
      body
      whileTrue condition body rounds
    else pure ()

/-! ### Expressions and statements -/

mutual

/-- The value of an expression. -/
def evaluate (config : Config) : Nat → Node → Unwind Value
  | 0, _ => lift Run.exhausted
  | frames + 1, node =>
    match node with
    | .literal value => pure (Value.ofNode value)
    | .grouping inner => evaluate config frames inner
    | .reference name => lift (Run.lookup name)
    | .assign name inner => do
      let v ← evaluate config frames inner
      lift (Run.assign name v)
      pure v
    | .logical left operator right => do
      let v ← evaluate config frames left
      if decidesAlone operator v then pure v else evaluate config frames right
    | .unary operator right => do
      let v ← evaluate config frames right
      lift (Run.ofExcept (applyUnary operator v))
    | .binary left operator right => do
      let a ← evaluate config frames left
      let b ← evaluate config frames right
      lift (Run.ofExcept (applyBinary operator a b))
    | .call callee paren arguments => do
      let f ← evaluate config frames callee
      let values ← evaluateAll config frames arguments
      invoke config frames f values paren
    | _ => lift (Run.fault .malformed)

/-- The values of the arguments of a call, in order. -/
def evaluateAll (config : Config) : Nat → List Node → Unwind (List Value)
  | 0, _ => lift Run.exhausted
  | frames + 1, arguments => collect (evaluate config frames) arguments

/-- Calls a value; the call of a function catches a `return` in its body, and gives `nil` if there is
none. -/
def invoke (config : Config) : Nat → Value → List Value → Token → Unwind Value
  | frames + 2, callee, arguments, paren => do
    let depth ← lift Run.openCalls
    lift (Run.ofExcept (checkCall config callee arguments.length depth paren))
    enterCall paren
    lift (Run.spell frames callee)
    lift (Run.tell config (.called callee (depth + 1)))
    let v ← leaving do
      match callee with
      | .function _ params body closure => do
        let names ← lift (Run.namesOf params)
        let id ← lift (Run.newScope closure (names.zip arguments))
        catchReturn do
          block config frames id body
          pure .nil
      | .native _ _ function => lift (Run.callHost config function arguments)
      | _ => lift (Run.fault .malformed)
    lift (Run.tell config (.returned v callee))
    pure v
  | _, _, _, _ => lift Run.exhausted

/-- Executes statements in a scope. -/
def block (config : Config) : Nat → Nat → List Node → Unwind Unit
  | 0, _, _ => lift Run.exhausted
  | frames + 1, id, statements => inScope id (each (execute config frames) statements)

/-- Executes a statement; a `return` is raised. -/
def execute (config : Config) : Nat → Node → Unwind Unit
  | 0, _ => lift Run.exhausted
  | frames + 1, node =>
    match node with
    | .expression inner => do
      let _ ← evaluate config frames inner
      pure ()
    | .print inner => do
      let v ← evaluate config frames inner
      lift (Run.printLine v.display)
    | .declare name initializer => do
      let v ← match initializer with
        | .null => pure Value.nil
        | inner => evaluate config frames inner
      lift (Run.define name v)
      lift (Run.tell config (.defined name.lexeme v))
    | .block statements => do
      let id ← lift (Run.newScope (← lift Run.currentScope) [])
      block config frames id statements
    | .branch condition thenBranch elseBranch => do
      let v ← evaluate config frames condition
      lift (Run.tell config (.decided v.isTruthy))
      if v.isTruthy then execute config frames thenBranch
      else
        match elseBranch with
        | .null => pure ()
        | other => execute config frames other
    | .loop condition body =>
      whileTrue (Value.isTruthy <$> evaluate config frames condition)
        (execute config frames body) config.rounds
    | .function name params body => do
      let closure ← lift Run.currentScope
      let names := params.map Token.lexeme
      lift (Run.define name (.function name.lexeme names body closure))
      lift (Run.tell config (.definedFunction name.lexeme names.length))
    | .returns _ value => do
      let v ← match value with
        | .null => pure Value.nil
        | inner => evaluate config frames inner
      raise v
    | _ => lift (Run.fault .malformed)

end

/-! ### Programs -/

/-- Runs a program up to where its end is told. -/
def runProgram (config : Config) (frames : Nat) (statements : List Node) : Unwind Unit := do
  lift (Run.tell config (.started statements.length))
  each (execute config frames) statements

/-- Runs a program; a `return` outside of calls ends it. -/
def interpret (config : Config) (frames : Nat) (statements : List Node) (m : Machine) :
    Option Fault × Machine :=
  match runProgram config frames statements m [] with
  | .done _ m' _ => settle config none m'
  | .raised _ m' _ => settle config none m'
  | .stop why m' _ => settle config (some why) m'

/-! ### Equations -/

section Equations

variable (config : Config) (n : Nat)

/-- The value of an initializer that may be absent. -/
def initialValue (e : Node) : Unwind Value :=
  match e with
  | .null => pure .nil
  | inner => evaluate config n inner

theorem initialValue_of_ne {e : Node} (he : e ≠ .null) :
    initialValue config n e = evaluate config n e := by
  cases e <;> first | rfl | exact absurd rfl he

/-- A statement that may be absent. -/
def executeOptional (s : Node) : Unwind Unit :=
  match s with
  | .null => pure ()
  | other => execute config n other

theorem executeOptional_of_ne {s : Node} (hs : s ≠ .null) :
    executeOptional config n s = execute config n s := by
  cases s <;> first | rfl | exact absurd rfl hs

/-- Sequencing is associative, a raised `return` going past both steps. -/
theorem bind_assoc {α β γ : Type} (p : Unwind α) (f : α → Unwind β) (g : β → Unwind γ) :
    p >>= f >>= g = p >>= fun a => f a >>= g := by
  funext m calls
  show andThen (andThen p f) g m calls = andThen p (fun a => andThen (f a) g) m calls
  unfold andThen
  cases p m calls <;> rfl

/-- Counts a call, announces it, and leaves it behind what is done inside. -/
def counted {α : Type} (paren : Token) (announce : Unwind Unit) (inside : Unwind α) : Unwind α := do
  enterCall paren
  announce
  leaving inside

/-- Spells the callee of a call out and tells the call. -/
def announceCall (f : Value) (depth : Nat) : Unwind Unit := do
  lift (Run.spell n f)
  lift (Run.tell config (.called f depth))

/-- What is done inside a call, once it is told. -/
def callInside (f : Value) (vs : List Value) : Unwind Value :=
  match f with
  | .function _ params body closure => do
    let names ← lift (Run.namesOf params)
    let id ← lift (Run.newScope closure (names.zip vs))
    catchReturn do
      block config n id body
      pure .nil
  | .native _ _ function => lift (Run.callHost config function vs)
  | _ => lift (Run.fault .malformed)

/-- The equation of a call, step by step as for the machine. -/
theorem invoke_add_two (f : Value) (vs : List Value) (paren : Token) :
    invoke config (n + 2) f vs paren = (do
      let depth ← lift Run.openCalls
      lift (Run.ofExcept (checkCall config f vs.length depth paren))
      let v ← counted paren (announceCall config n f (depth + 1)) (callInside config n f vs)
      lift (Run.tell config (.returned v f))
      pure v) := by
  unfold counted announceCall
  simp only [bind_assoc]
  cases f <;> rfl

theorem execute_declare (name : Token) (e : Node) :
    execute config (n + 1) (.declare name e) = (do
      let v ← initialValue config n e
      lift (Run.define name v)
      lift (Run.tell config (.defined name.lexeme v))) := by
  cases e <;> rfl

theorem execute_branch (c s s' : Node) :
    execute config (n + 1) (.branch c s s') = (do
      let v ← evaluate config n c
      lift (Run.tell config (.decided v.isTruthy))
      if v.isTruthy then execute config n s else executeOptional config n s') := by
  cases s' <;> rfl

theorem execute_returns (keyword : Token) (e : Node) :
    execute config (n + 1) (.returns keyword e) = (do
      let v ← initialValue config n e
      raise v) := by
  cases e <;> rfl

end Equations

end Unwind

/-! ### The record of calls -/

namespace CallEvent

/-- The closing parenthesis of the call entered last. -/
def latest : List CallEvent → Option Token
  | [] => none
  | .entered paren :: _ => some paren
  | .left :: earlier => latest earlier

/-- The closing parentheses of the calls that are entered and not left, the innermost first. -/
def opened : List CallEvent → List Token
  | [] => []
  | .entered paren :: earlier => paren :: opened earlier
  | .left :: earlier => (opened earlier).tail

end CallEvent

open CallEvent (latest opened)

/-- If the machine knew the call entered last, it still does. -/
def Follows (m : Machine) (calls : List CallEvent) (m' : Machine) (calls' : List CallEvent) : Prop :=
  m.lastCall = latest calls → m'.lastCall = latest calls'

/-! ### Steps that end alike -/

section Steps

variable {α β γ δ : Type}

/-- A step that was started on a machine with a record of calls ends in the same way by unwinding.  Unless
it stops, the calls that are open are then those that were. -/
inductive Result.Unwinds (view : β → Except Value α) (m : Machine) (calls : List CallEvent) :
    Result β → Ending α → Prop where
  | done {b : β} {a : α} {m' : Machine} {calls' : List CallEvent} (hv : view b = .ok a)
      (hl : Follows m calls m' calls') (ho : opened calls' = opened calls) :
      Unwinds view m calls (.ok b m') (.done a m' calls')
  | raised {b : β} {v : Value} {m' : Machine} {calls' : List CallEvent} (hv : view b = .error v)
      (hl : Follows m calls m' calls') (ho : opened calls' = opened calls) :
      Unwinds view m calls (.ok b m') (.raised v m' calls')
  | stop {why : Stop} {m' : Machine} {calls' : List CallEvent}
      (hl : Follows m calls m' calls') : Unwinds view m calls (.stop why m') (.stop why m' calls')

/-- The value of a statement stands for a `return`, if there is one. -/
def signal : Option Value → Except Value Unit
  | none => .ok ()
  | some v => .error v

namespace Run

/-- Both steps end alike; `view` says which values of the first stand for a `return`. -/
def Unwinds (view : β → Except Value α) (p : Run β) (q : Unwind α) : Prop :=
  ∀ m calls, (p m).Unwinds view m calls (q m calls)

end Run

/-- What is seen from behind a step, seen from in front of it. -/
theorem Result.Unwinds.behind {view : β → Except Value α} {m m₁ : Machine}
    {calls calls₁ : List CallEvent} {r : Result β} {e : Ending α} (h : r.Unwinds view m₁ calls₁ e)
    (hl : Follows m calls m₁ calls₁) (ho : opened calls₁ = opened calls) :
    r.Unwinds view m calls e := by
  cases h with
  | done hv hl' ho' => exact .done hv (hl' ∘ hl) (ho'.trans ho)
  | raised hv hl' ho' => exact .raised hv (hl' ∘ hl) (ho'.trans ho)
  | stop hl' => exact .stop (hl' ∘ hl)

namespace Run.Unwinds

variable {view : β → Except Value α}

/-- A step of the machine that leaves the latest call alone. -/
theorem of_lastCall {p : Run α} (hp : ∀ m, (p m).machine.lastCall = m.lastCall) :
    Unwinds .ok p (Unwind.lift p) := by
  intro m calls
  have h := hp m
  rw [Unwind.lift]
  generalize p m = r at h ⊢
  cases r with
  | ok a m' => exact .done rfl (fun hl => h.trans hl) rfl
  | stop why m' => exact .stop fun hl => h.trans hl

theorem tell (config : Config) (event : Event) :
    Unwinds .ok (Run.tell config event) (Unwind.lift (Run.tell config event)) := by
  refine of_lastCall fun m => ?_
  obtain ⟨trace, ht⟩ | ht := tell_cases config event m
  · exact ht ▸ rfl
  · exact ht ▸ rfl

/-- A step of the machine that is no call and gives no `return`. -/
theorem lift {p : Run α} (hp : p.Plain) : Unwinds .ok p (Unwind.lift p) := by
  refine of_lastCall fun m => ?_
  cases hp with
  | pure | fault | exhausted | printLine | currentScope | openCalls | newScope => rfl
  | callHost config function vs =>
      rw [callHost]
      split <;> rfl
  | namesOf names =>
      rw [namesOf]
      split <;> rfl
  | lookup t =>
      rw [lookup]
      split
      · rfl
      · split <;> rfl
  | assign t v =>
      rw [Run.assign]
      split
      · rfl
      · split <;> rfl
  | define t v =>
      rw [define]
      split <;> rfl

/-- Where every value stands for itself, nothing is raised. -/
theorem not_raised {p : Run α} {q : Unwind α} (h : Unwinds .ok p q) (m : Machine)
    (calls : List CallEvent) (v : Value) (m' : Machine) (calls' : List CallEvent) :
    q m calls ≠ .raised v m' calls' := by
  intro hq
  have h := h m calls
  rw [hq] at h
  generalize p m = r at h
  cases h with
  | raised hv => cases hv

/-- A `return` on its way up has left no call behind. -/
theorem opened_of_raised {p : Run β} {q : Unwind α} (h : Unwinds view p q) {m m' : Machine}
    {calls calls' : List CallEvent} {v : Value} (hq : q m calls = .raised v m' calls') :
    opened calls' = opened calls := by
  have h := h m calls
  rw [hq] at h
  generalize p m = r at h
  cases h with
  | raised _ _ ho => exact ho

theorem ofExcept (r : Except Fault α) : Unwinds .ok (Run.ofExcept r) (Unwind.lift (Run.ofExcept r)) := by
  cases r with
  | ok a => exact lift (.pure a)
  | error f => exact lift (.fault f)

theorem spell (frames : Nat) (callee : Value) :
    Unwinds .ok (Run.spell frames callee) (Unwind.lift (Run.spell frames callee)) := by
  rw [Run.spell]
  split
  · exact lift (.pure ())
  · exact lift .exhausted

theorem pure (a : α) : Unwinds .ok (pure a) (pure a) := lift (.pure a)

/-- A step that gives a value, and what goes on with it. -/
theorem bind {p : Run γ} {q : Unwind γ} {f : γ → Run β} {g : γ → Unwind α} (hp : Unwinds .ok p q)
    (hf : ∀ a, Unwinds view (f a) (g a)) : Unwinds view (p >>= f) (q >>= g) := by
  intro m calls
  have h := hp m calls
  show (andThen p f m).Unwinds view m calls (Unwind.andThen q g m calls)
  rw [andThen, Unwind.andThen]
  generalize p m = r, q m calls = e at h ⊢
  cases h with
  | done hv hl ho =>
      cases hv
      exact (hf _ _ _).behind hl ho
  | raised hv => cases hv
  | stop hl => exact .stop hl

theorem map {p : Run γ} {q : Unwind γ} (f : γ → δ) (hp : Unwinds .ok p q) :
    Unwinds .ok (f <$> p) (f <$> q) :=
  hp.bind fun a => pure (f a)

/-! ### Statements -/

theorem nothing : Unwinds signal (Pure.pure none) (Pure.pure ()) :=
  fun _ _ => .done rfl id rfl

/-- A step without a value is a statement without a `return`. -/
theorem silent {p : Run Unit} {q : Unwind Unit} (hp : Unwinds .ok p q) :
    Unwinds signal (do p; Pure.pure none) q := by
  intro m calls
  have h := hp m calls
  show (andThen p (fun _ => Pure.pure none) m).Unwinds signal m calls (q m calls)
  rw [andThen]
  generalize p m = r, q m calls = e at h ⊢
  cases h with
  | done hv hl ho => exact .done rfl hl ho
  | raised hv => cases hv
  | stop hl => exact .stop hl

/-- A value that is handed on is raised. -/
theorem raise {p : Run Value} {q : Unwind Value} (hp : Unwinds .ok p q) :
    Unwinds signal (some <$> p) (do Unwind.raise (← q)) :=
  hp.bind fun _ _ _ => .raised rfl id rfl

/-- Statement behind statement: what is handed on by the first skips the second. -/
theorem next {p p' : Run (Option Value)} {q q' : Unwind Unit} (hp : Unwinds signal p q)
    (hp' : Unwinds signal p' q') :
    Unwinds signal (do goOn (← p) p') (do q; q') := by
  intro m calls
  have h := hp m calls
  show (andThen p (fun o => goOn o p') m).Unwinds signal m calls
    (Unwind.andThen q (fun _ => q') m calls)
  rw [andThen, Unwind.andThen]
  generalize p m = r, q m calls = e at h ⊢
  cases h with
  | @done o _ m' _ hv hl ho =>
      cases o with
      | none => exact (hp' _ _).behind hl ho
      | some v => cases hv
  | @raised o v m' _ hv hl ho =>
      cases o with
      | none => cases hv
      | some v => exact .raised hv hl ho
  | stop hl => exact .stop hl

/-- The call of a function unwraps what is handed to it, or catches what is raised. -/
theorem caught {p : Run (Option Value)} {q : Unwind Unit} (hp : Unwinds signal p q) :
    Unwinds .ok (do Pure.pure ((← p).getD .nil)) (Unwind.catchReturn (do q; Pure.pure .nil)) := by
  intro m calls
  have h := hp m calls
  show (andThen p (fun o => Pure.pure (o.getD .nil)) m).Unwinds .ok m calls
    (match Unwind.andThen q (fun _ => Pure.pure .nil) m calls with
    | .done v m' calls' => .done v m' calls'
    | .raised v m' calls' => .done v m' calls'
    | .stop why m' calls' => .stop why m' calls')
  rw [andThen, Unwind.andThen]
  generalize p m = r, q m calls = e at h ⊢
  cases h with
  | @done o _ m' _ hv hl ho =>
      cases o with
      | none => exact .done rfl hl ho
      | some v => cases hv
  | @raised o v m' _ hv hl ho =>
      cases o with
      | none => cases hv
      | some v =>
          cases hv
          exact .done rfl hl ho
  | stop hl => exact .stop hl

/-! ### Scopes and calls -/

/-- The scope is restored on the way of a raised `return`, too. -/
theorem inScope {p : Run β} {q : Unwind α} (id : Nat) (hp : Unwinds view p q) :
    Unwinds view (Run.inScope id p) (Unwind.inScope id q) := by
  intro m calls
  have h := hp { m with current := id } calls
  rw [Run.inScope, Unwind.inScope]
  generalize p { m with current := id } = r, q { m with current := id } calls = e at h ⊢
  cases h with
  | done hv hl ho => exact .done hv hl ho
  | raised hv hl ho => exact .raised hv hl ho
  | stop hl => exact .stop hl

/-- A call that is left is open no more. -/
theorem counted {announce : Run Unit} {announce' : Unwind Unit} {p : Run α} {q : Unwind α}
    (paren : Token) (ha : Unwinds .ok announce announce') (hp : Unwinds .ok p q) :
    Unwinds .ok (Run.counted paren announce p) (Unwind.counted paren announce' q) := by
  intro m calls
  let entered : Machine := { m with depth := m.depth + 1, lastCall := some paren }
  have h := ha entered (.entered paren :: calls)
  show (andThen announce (fun _ => Run.leaving p) entered).Unwinds .ok m calls
    (Unwind.andThen announce' (fun _ => Unwind.leaving q) entered (.entered paren :: calls))
  rw [andThen, Unwind.andThen]
  generalize announce entered = r, announce' entered (.entered paren :: calls) = e at h ⊢
  cases h with
  | raised hv => cases hv
  | stop hl => exact .stop fun _ => hl rfl
  | @done _ _ m₁ calls₁ _ hl ho =>
      have h₁ := hp m₁ calls₁
      show (Run.leaving p m₁).Unwinds .ok m calls (Unwind.leaving q m₁ calls₁)
      rw [Run.leaving, Unwind.leaving]
      generalize p m₁ = r, q m₁ calls₁ = e at h₁ ⊢
      cases h₁ with
      | done hv hl₁ ho₁ =>
          refine .done hv (fun _ => hl₁ (hl rfl)) ?_
          rw [opened, ho₁, ho]
          rfl
      | raised hv => cases hv
      | stop hl₁ => exact .stop fun _ => hl₁ (hl rfl)

/-! ### Repetition -/

theorem collect {f : γ → Run α} {g : γ → Unwind α} (hf : ∀ c, Unwinds .ok (f c) (g c))
    (cs : List γ) : Unwinds .ok (Run.collect f cs) (Unwind.collect g cs) := by
  induction cs with
  | nil => exact pure []
  | cons c cs ih => exact (hf c).bind fun a => ih.bind fun as => pure (a :: as)

/-- A raised `return` skips the statements behind. -/
theorem each {f : γ → Run (Option Value)} {g : γ → Unwind Unit} (hf : ∀ c, Unwinds signal (f c) (g c))
    (cs : List γ) : Unwinds signal (firstOf f cs) (Unwind.each g cs) := by
  induction cs with
  | nil => exact nothing
  | cons c cs ih =>
      rw [firstOf_cons]
      exact (hf c).next ih

theorem whileTrue {condition : Run Bool} {condition' : Unwind Bool} {body : Run (Option Value)}
    {body' : Unwind Unit} (hc : Unwinds .ok condition condition') (hb : Unwinds signal body body')
    (rounds : Nat) :
    Unwinds signal (Run.whileTrue condition body rounds)
      (Unwind.whileTrue condition' body' rounds) := by
  induction rounds with
  | zero => exact fun m calls => .stop id
  | succ rounds ih =>
      rw [whileTrue_succ, Unwind.whileTrue]
      refine hc.bind fun go => ?_
      cases go with
      | false => exact nothing
      | true => exact hb.next ih

end Run.Unwinds

end Steps

/-! ### Tasks -/

open Run (Unwinds)

/-- With so many frames left, every task ends as it does by unwinding. -/
structure Unwinding (config : Config) (n : Nat) : Prop where
  evaluate : ∀ e, Unwinds .ok (evaluate config n e) (Unwind.evaluate config n e)
  evaluateAll : ∀ es, Unwinds .ok (evaluateAll config n es) (Unwind.evaluateAll config n es)
  invoke : ∀ f vs paren,
    Unwinds .ok (invoke config n f vs paren) (Unwind.invoke config n f vs paren)
  block : ∀ id ss, Unwinds signal (block config n id ss) (Unwind.block config n id ss)
  execute : ∀ s, Unwinds signal (execute config n s) (Unwind.execute config n s)

section Tasks

variable {config : Config} {n : Nat}

/-- Expressions raise nothing. -/
theorem evaluate_unwinds (h : Unwinding config n) (e : Node) :
    Unwinds .ok (evaluate config (n + 1) e) (Unwind.evaluate config (n + 1) e) := by
  cases e with
  | literal v => exact .pure _
  | grouping e => exact h.evaluate e
  | reference name => exact .lift (.lookup name)
  | assign name e =>
      rw [evaluate_assign, Unwind.evaluate]
      exact (h.evaluate e).bind fun v => (Unwinds.lift (.assign name v)).bind fun _ => .pure v
  | logical l o r =>
      rw [evaluate_logical, Unwind.evaluate]
      refine (h.evaluate l).bind fun v => ?_
      split
      · exact .pure v
      · exact h.evaluate r
  | unary o e =>
      rw [evaluate_unary, Unwind.evaluate]
      exact (h.evaluate e).bind fun v => .ofExcept _
  | binary l o r =>
      rw [evaluate_binary, Unwind.evaluate]
      exact (h.evaluate l).bind fun a => (h.evaluate r).bind fun b => .ofExcept _
  | call e paren es =>
      rw [evaluate_call, Unwind.evaluate]
      refine (h.evaluate e).bind fun f => (h.evaluateAll es).bind fun vs => ?_
      exact h.invoke f vs paren
  | _ => exact .lift (.fault .malformed)

/-- A function catches what its body raises. -/
theorem callInside_unwinds (h : Unwinding config n) (f : Value) (vs : List Value) :
    Unwinds .ok (callInside config n f vs) (Unwind.callInside config n f vs) := by
  cases f with
  | function name params body closure =>
      refine (Unwinds.lift (.namesOf params)).bind fun names => ?_
      exact (Unwinds.lift (.newScope closure _)).bind fun id => (h.block id body).caught
  | native name arity function => exact .lift (.callHost config function vs)
  | _ => exact .lift (.fault .malformed)

theorem announceCall_unwinds (config : Config) (n : Nat) (f : Value) (depth : Nat) :
    Unwinds .ok (announceCall config n f depth) (Unwind.announceCall config n f depth) :=
  (Unwinds.spell n f).bind fun _ => Unwinds.tell config _

/-- Calls are entered and left in the same order, and recorded. -/
theorem invoke_unwinds (h : Unwinding config n) (f : Value) (vs : List Value) (paren : Token) :
    Unwinds .ok (invoke config (n + 2) f vs paren) (Unwind.invoke config (n + 2) f vs paren) := by
  rw [invoke_add_two, Unwind.invoke_add_two]
  refine (Unwinds.lift .openCalls).bind fun depth => (Unwinds.ofExcept _).bind fun _ => ?_
  refine Unwinds.bind ?_ fun v => (Unwinds.tell config _).bind fun _ => .pure v
  exact .counted paren (announceCall_unwinds config n f _) (callInside_unwinds h f vs)

theorem initialValue_unwinds (h : Unwinding config n) (e : Node) :
    Unwinds .ok (initialValue config n e) (Unwind.initialValue config n e) := by
  by_cases he : e = .null
  · subst he
    exact .pure Value.nil
  · rw [initialValue_of_ne config n he, Unwind.initialValue_of_ne config n he]
    exact h.evaluate e

theorem executeOptional_unwinds (h : Unwinding config n) (s : Node) :
    Unwinds signal (executeOptional config n s) (Unwind.executeOptional config n s) := by
  by_cases hs : s = .null
  · subst hs
    exact .nothing
  · rw [executeOptional_of_ne config n hs, Unwind.executeOptional_of_ne config n hs]
    exact h.execute s

/-- A name is bound and this is told. -/
theorem declaration_unwinds (name : Token) (v : Value) (event : Event) :
    Unwinds signal (do
      Run.define name v
      Run.tell config event
      pure none) (do
      Unwind.lift (Run.define name v)
      Unwind.lift (Run.tell config event)) :=
  (Unwinds.lift (.define name v)).bind fun _ => (Unwinds.tell config event).silent

theorem execute_unwinds (h : Unwinding config n) (s : Node) :
    Unwinds signal (execute config (n + 1) s) (Unwind.execute config (n + 1) s) := by
  cases s with
  | expression e =>
      rw [execute_expression, Unwind.execute]
      exact (h.evaluate e).bind fun _ => .nothing
  | print e =>
      rw [execute_print, Unwind.execute]
      exact (h.evaluate e).bind fun v => (Unwinds.lift (.printLine v.display)).silent
  | declare name e =>
      rw [execute_declare, Unwind.execute_declare]
      exact (initialValue_unwinds h e).bind fun v => declaration_unwinds name v _
  | block ss =>
      rw [execute_block, Unwind.execute]
      refine (Unwinds.lift .currentScope).bind fun outer => ?_
      exact (Unwinds.lift (.newScope outer [])).bind fun id => h.block id ss
  | branch c s s' =>
      rw [execute_branch, Unwind.execute_branch]
      refine (h.evaluate c).bind fun v => (Unwinds.tell config _).bind fun _ => ?_
      split
      · exact h.execute s
      · exact executeOptional_unwinds h s'
  | loop c s =>
      rw [execute_loop, Unwind.execute]
      exact ((h.evaluate c).map _).whileTrue (h.execute s) config.rounds
  | function name params body =>
      rw [execute_function, Unwind.execute]
      exact (Unwinds.lift .currentScope).bind fun closure => declaration_unwinds name _ _
  | returns keyword e =>
      rw [execute_returns, Unwind.execute_returns]
      exact (initialValue_unwinds h e).raise
  | _ => exact fun m calls => .stop id

/-- **Every task ends as it does by unwinding.** -/
theorem unwinding (config : Config) (n : Nat) : Unwinding config n := by
  have exhausted : ∀ {α β : Type} (view : β → Except Value α),
      Unwinds view Run.exhausted (Unwind.lift Run.exhausted) :=
    fun _ _ _ => .stop id
  -- a call uses two frames at once, so what is inside it is two steps back
  induction n using Nat.strongRecOn with
  | ind n ih =>
      match n, ih with
      | 0, _ =>
          exact ⟨fun _ => exhausted _, fun _ => exhausted _, fun _ _ _ => exhausted _,
            fun _ _ => exhausted _, fun _ => exhausted _⟩
      | n + 1, ih =>
          have h := ih n (Nat.lt_succ_self n)
          refine ⟨evaluate_unwinds h, Unwinds.collect h.evaluate, ?_, fun id ss => ?_,
            execute_unwinds h⟩
          · match n, ih with
            | 0, _ => exact fun _ _ _ => exhausted _
            | n + 1, ih => exact invoke_unwinds (ih n (by omega))
          · exact Unwinds.inScope id (Unwinds.each h.execute ss)

end Tasks

/-! ### Programs -/

/-- Whole programs, up to their end. -/
theorem runProgram_unwinds (config : Config) (frames : Nat) (statements : List Node) :
    Unwinds signal (runProgram config frames statements)
      (Unwind.runProgram config frames statements) :=
  (Unwinds.tell config _).bind fun _ => Unwinds.each (unwinding config frames).execute statements

/-- **A program ends as it does by unwinding**, on the same machine. -/
theorem interpret_eq_unwind (config : Config) (frames : Nat) (statements : List Node) (m : Machine) :
    interpret config frames statements m = Unwind.interpret config frames statements m := by
  have h := runProgram_unwinds config frames statements m []
  rw [interpret_eq_endOf, Unwind.interpret]
  generalize runProgram config frames statements m = r,
    Unwind.runProgram config frames statements m [] = e at h ⊢
  cases h <;> rfl

end Lox
