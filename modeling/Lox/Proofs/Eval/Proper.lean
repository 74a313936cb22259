import Lox.Proofs.Eval.Restores
import Lox.Proofs.Scope
import Lox.Proofs.Value

/-!
# Programs of the language run within the language

A machine is *proper* when every value bound in one of its scopes is.  On a proper machine, the
expressions and statements of program texts give proper values, keep the machine proper, and stop
only for reasons of their own (`Stop.OfProgram`): with a user-facing fault, or because a bound on
nested steps or on the rounds of a loop is used up.  Only inside a function does a statement give a
value, that of a `return`.  This is so if the natives give proper values (`Host.Returns`).

* `running`: this holds of all tasks, by induction on the frames left.
* `Enters.proper`: a task of the language starts only tasks of the language, on proper machines, by one
  lemma for each kind of task.
-/

namespace Lox

open Node (IsExpression IsStatement)
open Run (Meets)

variable {α β : Type} {known : Natives}

/-- Every value bound in a scope is proper. -/
def Machine.Proper (known : Natives) (m : Machine) : Prop := m.heap.Holds (Value.Proper known)

/-- A fault of a program text: a user-facing one, found at a token that was cut from a text. -/
def Fault.OfText (f : Fault) : Prop := f.UserFacing ∧ ∀ t, f.place? = some t → t.IsCut

/-- A reason for a program to stop. -/
def Stop.OfProgram : Stop → Prop
  | .fault f => f.OfText ∨ f = .unfinished
  | .exhausted => True

/-- Nothing bound changes when an event is told. -/
theorem Machine.Proper.tell {config : Config} {event : Event} {m m' : Machine} (hm : m.Proper known)
    (h : Run.tell config event m = .ok () m') : m'.Proper known := by
  obtain ⟨trace, ht⟩ | ht := Run.tell_cases config event m
  · rw [ht] at h
    cases h
    exact hm
  · rw [ht] at h
    cases h

/-- On a proper machine, a step gives a value in `P` or stops for a reason of the program, and keeps
the machine proper. -/
abbrev Run.Runs (known : Natives) (P : α → Prop) (p : Run α) : Prop :=
  Meets (Machine.Proper known) Stop.OfProgram P p

namespace Run.Runs

/-! ### The steps of the machine -/

/-- An event whose line can be written is no reason to stop. -/
theorem tell (config : Config) {event : Event} (he : event.text.isProper = true) :
    Runs known (fun _ => True) (tell config event) := by
  intro m hm
  obtain ⟨trace, ht⟩ := tell_of_isProper config he m
  rw [ht]
  exact .ok trivial hm

/-- To spell a callee out may use up the frames. -/
theorem spell (frames : Nat) (callee : Value) : Runs known (fun _ => True) (spell frames callee) := by
  rw [Run.spell]
  split
  · exact Meets.pure trivial
  · exact Meets.exhausted trivial

theorem printLine (line : Text) : Runs known (fun _ => True) (printLine line) :=
  Meets.change (fun _ _ => trivial) fun _ hm => hm

theorem currentScope : Runs known (fun _ => True) currentScope :=
  Meets.change (fun _ _ => trivial) fun _ hm => hm

theorem openCalls : Runs known (fun _ => True) openCalls :=
  Meets.change (fun _ _ => trivial) fun _ hm => hm

/-- What is bound in a new scope has to be proper. -/
theorem newScope (enclosing : Nat) {bindings : List (Name × Value)}
    (hb : ∀ b ∈ bindings, b.2.Proper known) : Runs known (fun _ => True) (newScope enclosing bindings) :=
  Meets.change (fun _ _ => trivial) fun _ hm => (hm.push _).defineAll _ hb

/-- A name that is not bound is a fault at the token of a text. -/
theorem undefined_ofText {t : Token} (ht : t.IsCut) : (Fault.undefined t).OfText := by
  refine ⟨.undefined t, fun place h => ?_⟩
  cases h
  exact ht

/-- Whatever is found is proper. -/
theorem lookup {t : Token} (ht : t.IsCut) : Runs known (Value.Proper known) (lookup t) := by
  obtain ⟨s, hs⟩ := ht.lexeme
  intro m hm
  rw [Run.lookup, hs, Name.ofJson?_str]
  dsimp only
  split
  · rename_i v hv
    exact .ok (hm.lookup? hv) hm
  · exact .stop (.inl (undefined_ofText ht)) hm

theorem assign {t : Token} (ht : t.IsCut) {v : Value} (hv : v.Proper known) :
    Runs known (fun _ => True) (assign t v) := by
  obtain ⟨s, hs⟩ := ht.lexeme
  intro m hm
  rw [Run.assign, hs, Name.ofJson?_str]
  dsimp only
  split
  · exact .ok trivial (hm.define _ _ hv)
  · exact .stop (.inl (undefined_ofText ht)) hm

theorem define {t : Token} (ht : t.IsCut) {v : Value} (hv : v.Proper known) :
    Runs known (fun _ => True) (define t v) := by
  obtain ⟨s, hs⟩ := ht.lexeme
  intro m hm
  rw [Run.define, hs, Name.ofJson?_str]
  exact .ok trivial (hm.define _ _ hv)

/-- Parameters that are words are names. -/
theorem namesOf {names : List Json} (h : ∀ p ∈ names, ∃ s : String, p = .word s) :
    Runs known (fun _ => True) (namesOf names) := by
  have hall : ∃ found, Name.ofJsonAll? names = some found := by
    induction names with
    | nil => exact ⟨[], rfl⟩
    | cons p rest ih =>
        rw [List.forall_mem_cons] at h
        obtain ⟨⟨s, rfl⟩, hrest⟩ := h
        obtain ⟨found, hfound⟩ := ih hrest
        exact ⟨.text s :: found, by rw [Name.ofJsonAll?, Name.ofJson?_str, hfound]⟩
  obtain ⟨found, hfound⟩ := hall
  intro m hm
  rw [Run.namesOf, hfound]
  exact .ok trivial hm

/-- A function of the host gives a proper value or does not end. -/
theorem callHost {config : Config} {function : HostFunction} {vs : List Value}
    (h : ∀ before, (∀ error, config.host.call function before vs ≠ .raised error) ∧
      ∀ v, config.host.call function before vs = .value v → v.Proper known) :
    Runs known (Value.Proper known) (callHost config function vs) := by
  intro m hm
  obtain ⟨hraised, hvalue⟩ := h m.hostCalls
  rw [Run.callHost]
  split
  · exact .ok (hvalue _ ‹_›) hm
  · exact absurd ‹_› (hraised _)
  · exact .stop (.inr rfl) hm

theorem inScope {P : α → Prop} (id : Nat) {p : Run α} (hp : Runs known P p) :
    Runs known P (inScope id p) := by
  intro m hm
  have h := hp { m with current := id } hm
  rw [Run.inScope]
  generalize p { m with current := id } = r at h ⊢
  cases h with
  | ok ha hm' => exact .ok ha hm'
  | stop hw hm' => exact .stop hw hm'

theorem leaving {P : α → Prop} {p : Run α} (hp : Runs known P p) : Runs known P (leaving p) := by
  intro m hm
  have h := hp m hm
  rw [Run.leaving]
  generalize p m = r at h ⊢
  cases h with
  | ok ha hm' => exact .ok ha hm'
  | stop hw hm' => exact .stop hw hm'

theorem counted {P : α → Prop} {announce : Run Unit} {p : Run α} (paren : Token)
    (ha : Runs known (fun _ => True) announce) (hp : Runs known P p) :
    Runs known P (counted paren announce p) :=
  Meets.bind (Meets.change (P := fun _ => True) (fun _ _ => trivial) fun _ hm => hm) fun _ _ =>
    Meets.bind ha fun _ _ => leaving hp

end Run.Runs

/-! ### Tasks -/

/-- What a statement gives: a proper value, and inside a function only. -/
def Returned (known : Natives) (inFunction : Bool) (o : Option Value) : Prop :=
  ∀ v, o = some v → inFunction = true ∧ v.Proper known

/-- With so many frames left, every task of the language runs within the language. -/
structure Running (config : Config) (known : Natives) (n : Nat) : Prop where
  evaluate : ∀ e, IsExpression Token.IsCut e → (evaluate config n e).Runs known (Value.Proper known)
  evaluateAll : ∀ es, (∀ e ∈ es, IsExpression Token.IsCut e) →
    (evaluateAll config n es).Runs known fun vs => ∀ v ∈ vs, v.Proper known
  invoke : ∀ f vs paren, paren.IsCut → f.Proper known → (∀ v ∈ vs, v.Proper known) →
    (invoke config n f vs paren).Runs known (Value.Proper known)
  block : ∀ inFunction id statements, (∀ s ∈ statements, IsStatement Token.IsCut inFunction s) →
    (block config n id statements).Runs known (Returned known inFunction)
  execute : ∀ inFunction s, IsStatement Token.IsCut inFunction s →
    (execute config n s).Runs known (Returned known inFunction)

section Tasks

open Run (Runs)

variable {config : Config} {n : Nat}

/-- Expressions of a text, by their form. -/
theorem evaluate_runs (h : Running config known n) {e : Node} (he : IsExpression Token.IsCut e) :
    (evaluate config (n + 1) e).Runs known (Value.Proper known) := by
  -- an operator goes wrong by misuse of it, and so at itself
  have hplace : ∀ {o : Token} {f : Fault}, o.IsCut → f.UserFacing → (∃ cause, f = .misuse o cause) →
      Stop.OfProgram (.fault f) := by
    rintro o f ho hf ⟨cause, rfl⟩
    refine .inl ⟨hf, fun t ht => ?_⟩
    cases ht
    exact ho
  cases he with
  | literal hv => exact Meets.pure hv.proper
  | grouping he => exact h.evaluate _ he
  | reference hn _ => exact Runs.lookup hn
  | assign hn _ he =>
      rw [evaluate_assign]
      refine Meets.bind (h.evaluate _ he) fun v hv => ?_
      exact Meets.bind (Runs.assign hn hv) fun _ _ => Meets.pure hv
  | logical hl _ _ hr =>
      rw [evaluate_logical]
      refine Meets.bind (h.evaluate _ hl) fun v hv => ?_
      split
      · exact Meets.pure hv
      · exact h.evaluate _ hr
  | unary ho hk he =>
      rw [evaluate_unary]
      refine Meets.bind (h.evaluate _ he) fun v _ => ?_
      exact Meets.ofExcept (fun _ hok => applyUnary_ok hok) fun _ hf =>
        hplace ho (applyUnary_error hk hf) (applyUnary_misuse hf)
  | binary hl ho hk hr =>
      rw [evaluate_binary]
      refine Meets.bind (h.evaluate _ hl) fun a ha => Meets.bind (h.evaluate _ hr) fun b hb => ?_
      exact Meets.ofExcept (fun _ hok => applyBinary_ok ha hb hok) fun _ hf =>
        hplace ho (applyBinary_error hk hf) (applyBinary_misuse hf)
  | call he hp hes =>
      rw [evaluate_call]
      refine Meets.bind (h.evaluate _ he) fun f hf => ?_
      refine Meets.bind (h.evaluateAll _ hes) fun vs hvs => ?_
      exact h.invoke _ _ _ hp hf hvs

/-- A call is refused at its parenthesis, for a reason that users are told. -/
theorem checkCall_error {f : Value} {given depth : Nat} {paren : Token} {fault : Fault}
    (hp : paren.IsCut) (h : checkCall config f given depth paren = .error fault) : fault.OfText := by
  have hplace : ∀ t, some paren = some t → t.IsCut := by
    intro t ht
    cases ht
    exact hp
  unfold checkCall at h
  split at h
  · cases h
    exact ⟨.notCallable _ _, hplace⟩
  · split at h
    · cases h
      exact ⟨.arity _ _ _, hplace⟩
    · split at h
      · cases h
        exact ⟨.overflow _, hplace⟩
      · cases h

/-- Called with the right number of arguments, the inside of a call gives a proper value. -/
theorem callInside_runs (hh : config.host.Returns known) (h : Running config known n) {f : Value}
    {vs : List Value} (hf : f.Proper known) (hvs : ∀ v ∈ vs, v.Proper known)
    (hl : f.arity? = some (vs.length : Int)) :
    (callInside config n f vs).Runs known (Value.Proper known) := by
  cases f with
  | function name params body closure =>
      cases hf with
      | function _ hp hb =>
          refine Meets.bind (Runs.namesOf hp) fun names _ => ?_
          refine Meets.bind (Runs.newScope closure fun b hb' => ?_) fun id _ => ?_
          · exact hvs _ (List.of_mem_zip hb').2
          · refine Meets.bind (h.block true id body hb) fun returned hr => Meets.pure ?_
            cases returned with
            | none => exact .nil
            | some v => exact (hr v rfl).2
  | native name arity function =>
      exact Runs.callHost fun before => hh.call hf before (Option.some.inj hl).symm hvs
  | _ => cases hl

/-- The call of a proper value can be told. -/
theorem announceCall_runs {f : Value} (hf : f.Proper known) (depth : Nat) :
    (announceCall config n f depth).Runs known fun _ => True :=
  Meets.bind (Runs.spell n f) fun _ _ => Runs.tell config (by simp [Event.text, hf.dataText])

/-- Calls, if the natives give proper values. -/
theorem invoke_runs (hh : config.host.Returns known) (h : Running config known n) {f : Value}
    {vs : List Value} {paren : Token} (hp : paren.IsCut) (hf : f.Proper known)
    (hvs : ∀ v ∈ vs, v.Proper known) :
    (invoke config (n + 2) f vs paren).Runs known (Value.Proper known) := by
  rw [invoke_add_two]
  refine Meets.bind Runs.openCalls fun depth _ => ?_
  refine Meets.bind (Meets.ofExcept (P := fun _ => f.arity? = some (vs.length : Int))
    (fun _ hok => (checkCall_ok hok).1) fun _ hf' => .inl (checkCall_error hp hf')) fun _ hl => ?_
  refine Meets.bind (Runs.counted (P := Value.Proper known) paren (announceCall_runs hf _)
    (callInside_runs hh h hf hvs hl)) fun v hv => ?_
  refine Meets.bind (Runs.tell config ?_) fun _ _ => Meets.pure hv
  simp [Event.text, hf.dataText, hv.display]

theorem returned_none (known : Natives) (inFunction : Bool) : Returned known inFunction none :=
  fun _ h => by cases h

theorem condition_runs (h : Running config known n) {c : Node} (hc : IsExpression Token.IsCut c) :
    (Value.isTruthy <$> evaluate config n c).Runs known fun _ => True :=
  Meets.map (h.evaluate c hc) fun _ _ => trivial

/-- The line that tells of a decision can be written. -/
theorem isProper_decided (truth : Bool) : (Event.decided truth).text.isProper = true := by
  cases truth <;> rfl

/-- A name is bound and this is told. -/
theorem declaration_runs {name : Token} (hn : name.IsCut) {v : Value} (hv : v.Proper known)
    {event : Event} (he : event.text.isProper = true) (inFunction : Bool) :
    Runs known (Returned known inFunction) (do
      Run.define name v
      Run.tell config event
      pure none) := by
  refine Meets.bind (Runs.define hn hv) fun _ _ => ?_
  exact Meets.bind (Runs.tell config he) fun _ _ => Meets.pure (returned_none known _)

/-- The line that tells of a definition can be written. -/
theorem isProper_defined {name : Token} (hn : name.IsCut) {v : Value} (hv : v.Proper known) :
    (Event.defined name.lexeme v).text.isProper = true := by
  obtain ⟨s, hs⟩ := hn.lexeme
  simp [Event.text, hs, hv.display, Json.subject]

/-- The line of a declared function can be written. -/
theorem isProper_definedFunction {name : Token} (hn : name.IsCut) (arity : Nat) :
    (Event.definedFunction name.lexeme arity).text.isProper = true := by
  obtain ⟨s, hs⟩ := hn.lexeme
  simp [Event.text, hs, Json.subject]

/-- Statements of a text, by their form. -/
theorem execute_runs (h : Running config known n) {inFunction : Bool} {s : Node}
    (hs : IsStatement Token.IsCut inFunction s) :
    (execute config (n + 1) s).Runs known (Returned known inFunction) := by
  cases hs with
  | expression he =>
      rw [execute_expression]
      exact Meets.bind (h.evaluate _ he) fun _ _ => Meets.pure (returned_none known _)
  | print he =>
      rw [execute_print]
      refine Meets.bind (h.evaluate _ he) fun v _ => ?_
      exact Meets.bind (Runs.printLine _) fun _ _ => Meets.pure (returned_none known _)
  | declare hn _ =>
      rw [execute_declare]
      refine Meets.bind (Meets.pure (P := Value.Proper known) .nil) fun v hv => ?_
      exact declaration_runs hn hv (isProper_defined hn hv) _
  | declareValue hn _ he =>
      rw [execute_declare, initialValue_of_ne config n he.ne_null]
      refine Meets.bind (h.evaluate _ he) fun v hv => ?_
      exact declaration_runs hn hv (isProper_defined hn hv) _
  | block hb =>
      rw [execute_block]
      refine Meets.bind Runs.currentScope fun outer _ => ?_
      refine Meets.bind (Runs.newScope outer fun b hb' => absurd hb' List.not_mem_nil) fun id _ => ?_
      exact h.block _ id _ hb
  | branch hc hs =>
      rw [execute_branch]
      refine Meets.bind (h.evaluate _ hc) fun v _ => ?_
      refine Meets.bind (Runs.tell config (isProper_decided _)) fun _ _ => ?_
      split
      · exact h.execute _ _ hs
      · exact Meets.pure (returned_none known _)
  | branchElse hc hs hs' =>
      rw [execute_branch, executeOptional_of_ne config n hs'.ne_null]
      refine Meets.bind (h.evaluate _ hc) fun v _ => ?_
      refine Meets.bind (Runs.tell config (isProper_decided _)) fun _ _ => ?_
      split
      · exact h.execute _ _ hs
      · exact h.execute _ _ hs'
  | loop hc hs =>
      rw [execute_loop]
      exact Meets.whileTrue (.inr rfl) (condition_runs h hc) (h.execute _ _ hs)
  | function hn _ hp hb =>
      rw [execute_function]
      refine Meets.bind Runs.currentScope fun closure _ => ?_
      refine declaration_runs hn (.function hn.lexeme (fun p hp' => ?_) hb)
        (isProper_definedFunction hn _) _
      obtain ⟨t, ht, rfl⟩ := List.mem_map.mp hp'
      exact (hp t ht).1.lexeme
  | returnNothing _ =>
      rw [execute_returns]
      refine Meets.map (Meets.pure (P := Value.Proper known) .nil) fun v hv w hw => ?_
      cases hw
      exact ⟨rfl, hv⟩
  | returns _ he =>
      rw [execute_returns, initialValue_of_ne config n he.ne_null]
      refine Meets.map (h.evaluate _ he) fun v hv w hw => ?_
      cases hw
      exact ⟨rfl, hv⟩

theorem firstOf_runs (h : Running config known n) {inFunction : Bool} {statements : List Node}
    (hs : ∀ s ∈ statements, IsStatement Token.IsCut inFunction s) :
    Runs known (Returned known inFunction) (Run.firstOf (execute config n) statements) :=
  Meets.firstOf fun s hm => h.execute inFunction s (hs s hm)

/-- **Programs run within the language**, if the natives do. -/
theorem running (hh : config.host.Returns known) (n : Nat) : Running config known n := by
  induction n using Nat.strongRecOn with
  | ind n ih =>
      match n, ih with
      | 0, _ =>
          exact ⟨fun _ _ => Meets.exhausted trivial, fun _ _ => Meets.exhausted trivial,
            fun _ _ _ _ _ _ => Meets.exhausted trivial, fun _ _ _ _ => Meets.exhausted trivial,
            fun _ _ _ => Meets.exhausted trivial⟩
      | n + 1, ih =>
          have h := ih n (Nat.lt_succ_self n)
          refine ⟨fun e => evaluate_runs h, fun es hes => ?_, ?_, fun _ id _ hs => ?_,
            fun _ s => execute_runs h⟩
          · exact Meets.collect fun e he => h.evaluate e (hes e he)
          · match n, ih with
            | 0, _ => exact fun _ _ _ _ _ _ => Meets.exhausted trivial
            | n + 1, ih =>
                exact fun f vs paren hp hf hvs => invoke_runs hh (ih n (by omega)) hp hf hvs
          · exact Runs.inScope id (firstOf_runs h hs)

end Tasks

/-! ### Moments -/

/-- A task of a program: its trees are those of a program text, and its values are proper. -/
inductive Task.Proper (known : Natives) : Task → Prop where
  | evaluate {e : Node} (he : IsExpression Token.IsCut e) : Proper known (.evaluate e)
  | arguments {es : List Node} (hes : ∀ e ∈ es, IsExpression Token.IsCut e) :
      Proper known (.arguments es)
  | invoke {f : Value} {vs : List Value} {paren : Token} (hp : paren.IsCut) (hf : f.Proper known)
      (hvs : ∀ v ∈ vs, v.Proper known) : Proper known (.invoke f vs paren)
  | body {f : Value} {vs : List Value} (hf : f.Proper known) (hvs : ∀ v ∈ vs, v.Proper known) :
      Proper known (.body f vs)
  | block {inFunction : Bool} {id : Nat} {statements : List Node}
      (hs : ∀ s ∈ statements, IsStatement Token.IsCut inFunction s) : Proper known (.block id statements)
  | execute {inFunction : Bool} {s : Node} (hs : IsStatement Token.IsCut inFunction s) :
      Proper known (.execute s)

/-- A task of a program on a proper machine. -/
structure Moment.Proper (known : Natives) (b : Moment) : Prop where
  task : b.task.Proper known
  machine : b.machine.Proper known

section Moments

variable {config : Config} {a b : Moment} {n : Nat} {m : Machine}

/-- Whole rounds of a loop keep the machine proper. -/
theorem Rounds.proper {condition : Run Bool} {body : Run (Option α)} {P : Option α → Prop}
    {m m' : Machine} (hc : condition.Runs known fun _ => True) (hb : body.Runs known P)
    (hm : m.Proper known) (h : Rounds condition body m m') : m'.Proper known := by
  induction h with
  | none => exact hm
  | round _ h₁ h₂ ih => exact (hb.ok (hc.ok ih h₁).2 h₂).2

/-- A part that comes behind others starts on the machine they leave, which `running` says is proper. -/
theorem Enters.proper_evaluate (hh : config.host.Returns known) {e : Node}
    (h : Enters config ⟨n, .evaluate e, m⟩ b) (he : IsExpression Token.IsCut e)
    (hm : m.Proper known) : b.Proper known := by
  cases h with
  | grouping => cases he with
    | grouping he => exact ⟨.evaluate he, hm⟩
  | assign => cases he with
    | assign _ _ he => exact ⟨.evaluate he, hm⟩
  | logicalLeft => cases he with
    | logical hl _ _ _ => exact ⟨.evaluate hl, hm⟩
  | @logicalRight n _ _ _ _ _ _ h => cases he with
    | logical hl _ _ hr => exact ⟨.evaluate hr, (((running hh n).evaluate _ hl).ok hm h).2⟩
  | unary => cases he with
    | unary _ _ he => exact ⟨.evaluate he, hm⟩
  | binaryLeft => cases he with
    | binary hl _ _ _ => exact ⟨.evaluate hl, hm⟩
  | @binaryRight n _ _ _ _ _ _ h => cases he with
    | binary hl _ _ hr => exact ⟨.evaluate hr, (((running hh n).evaluate _ hl).ok hm h).2⟩
  | callee => cases he with
    | call he _ _ => exact ⟨.evaluate he, hm⟩
  | @arguments n _ _ _ _ _ _ h => cases he with
    | call he _ hes => exact ⟨.arguments hes, (((running hh n).evaluate _ he).ok hm h).2⟩
  | @invoke n _ _ _ _ _ _ _ _ h₁ h₂ => cases he with
    | call he hp hes =>
        obtain ⟨hf, hm₁⟩ := ((running hh n).evaluate _ he).ok hm h₁
        obtain ⟨hvs, hm₂⟩ := ((running hh n).evaluateAll _ hes).ok hm₁ h₂
        exact ⟨.invoke hp hf hvs, hm₂⟩

theorem Enters.proper_arguments (hh : config.host.Returns known) {es : List Node}
    (h : Enters config ⟨n, .arguments es, m⟩ b) (hes : ∀ e ∈ es, IsExpression Token.IsCut e)
    (hm : m.Proper known) : b.Proper known := by
  cases h with
  | @argument n before behind e _ _ _ h =>
      rw [List.forall_mem_append, List.forall_mem_cons] at hes
      have hb := Meets.collect fun e he => (running hh n).evaluate e (hes.1 e he)
      exact ⟨.evaluate hes.2.1, (hb.ok hm h).2⟩

/-- Inside the call of a function, its parameters are bound to the arguments. -/
theorem Enters.proper_body {f : Value} {vs : List Value} (h : Enters config ⟨n, .body f vs, m⟩ b)
    (hf : f.Proper known) (hvs : ∀ v ∈ vs, v.Proper known) (hm : m.Proper known) :
    b.Proper known := by
  cases h with
  | function _ h₁ _ h₂ => cases hf with
    | function _ _ hb =>
        refine ⟨.block hb, ((Run.Runs.newScope _ fun b hb' => ?_).ok (hm.tell h₁) h₂).2⟩
        exact hvs _ (List.of_mem_zip hb').2

theorem Enters.proper_block (hh : config.host.Returns known) {inFunction : Bool} {id : Nat}
    {statements : List Node} (h : Enters config ⟨n, .block id statements, m⟩ b)
    (hs : ∀ s ∈ statements, IsStatement Token.IsCut inFunction s) (hm : m.Proper known) :
    b.Proper known := by
  cases h with
  | @statement n id before behind s m _ h =>
      rw [List.forall_mem_append, List.forall_mem_cons] at hs
      have hm : Machine.Proper known { m with current := id } := hm
      exact ⟨.execute hs.2.1, ((firstOf_runs (running hh n) hs.1).ok hm h).2⟩

theorem Enters.proper_execute (hh : config.host.Returns known) {inFunction : Bool} {s : Node}
    (h : Enters config ⟨n, .execute s, m⟩ b) (hs : IsStatement Token.IsCut inFunction s)
    (hm : m.Proper known) : b.Proper known := by
  cases h with
  | expression => cases hs with
    | expression he => exact ⟨.evaluate he, hm⟩
  | print => cases hs with
    | print he => exact ⟨.evaluate he, hm⟩
  | declare hne => cases hs with
    | declare _ _ => exact absurd rfl hne
    | declareValue _ _ he => exact ⟨.evaluate he, hm⟩
  | block h => cases hs with
    | block hb =>
        refine ⟨.block hb, ((Run.Runs.newScope _ fun b hb' => ?_).ok hm h).2⟩
        exact absurd hb' List.not_mem_nil
  | condition => cases hs with
    | branch hc _ | branchElse hc _ _ => exact ⟨.evaluate hc, hm⟩
  | @thenBranch n _ _ _ _ _ _ _ h₁ _ h₂ => cases hs with
    | branch hc hs | branchElse hc hs _ =>
        exact ⟨.execute hs, (((running hh n).evaluate _ hc).ok hm h₁).2.tell h₂⟩
  | @elseBranch n _ _ _ _ _ _ _ h₁ _ h₂ hne => cases hs with
    | branch _ _ => exact absurd rfl hne
    | branchElse hc _ hs' =>
        exact ⟨.execute hs', (((running hh n).evaluate _ hc).ok hm h₁).2.tell h₂⟩
  | @loopCondition n _ _ _ _ h => cases hs with
    | loop hc hs =>
        -- whole rounds were made before this one
        have hr := running hh n
        exact ⟨.evaluate hc, h.proper (condition_runs hr hc) (hr.execute _ _ hs) hm⟩
  | @loopBody n _ _ _ _ _ _ h h₁ _ => cases hs with
    | loop hc hs =>
        have hr := running hh n
        have hm₁ := h.proper (condition_runs hr hc) (hr.execute _ _ hs) hm
        exact ⟨.execute hs, ((hr.evaluate _ hc).ok hm₁ h₁).2⟩
  | returns hne => cases hs with
    | returnNothing _ => exact absurd rfl hne
    | returns _ he => exact ⟨.evaluate he, hm⟩

/-- A task of a program starts only such tasks, on proper machines. -/
theorem Enters.proper (hh : config.host.Returns known) (h : Enters config a b) (ha : a.Proper known) :
    b.Proper known := by
  obtain ⟨n, task, m⟩ := a
  obtain ⟨ht, hm⟩ := ha
  cases ht with
  | evaluate he => exact h.proper_evaluate hh he hm
  | arguments hes => exact h.proper_arguments hh hes hm
  | invoke _ hf hvs => cases h with
    | body _ => exact ⟨.body hf hvs, hm⟩
  | body hf hvs => exact h.proper_body hf hvs hm
  | block hs => exact h.proper_block hh hs hm
  | execute hs => exact h.proper_execute hh hs hm

/-- What a task of a program gives is proper. -/
theorem Moment.Proper.gives (hh : config.host.Returns known) (hb : b.Proper known) {v : Value}
    (h : b.Gives config v) : v.Proper known := by
  obtain ⟨ht, hm⟩ := hb
  cases h with
  | @evaluate n _ _ _ _ h => cases ht with
    | evaluate he => exact (((running hh n).evaluate _ he).ok hm h).1
  | @argument n _ _ _ _ _ h hv => cases ht with
    | arguments hes => exact (((running hh n).evaluateAll _ hes).ok hm h).1 v hv
  | @invoke n _ _ _ _ _ _ h => cases ht with
    | invoke hp hf hvs => exact (((running hh n).invoke _ _ _ hp hf hvs).ok hm h).1
  | @block n _ _ _ _ _ h => cases ht with
    | block hs => exact ((((running hh n).block _ _ _ hs).ok hm h).1 v rfl).2
  | @execute n _ _ _ _ h => cases ht with
    | execute hs => exact ((((running hh n).execute _ _ hs).ok hm h).1 v rfl).2

/-- Every moment of a run of a program is one of the language. -/
theorem During.proper (hh : config.host.Returns known) {frames calls : Nat} {statements : List Node}
    {m : Machine} (hs : ∀ s ∈ statements, IsStatement Token.IsCut false s) (hm : m.Proper known)
    (h : During config frames statements m calls b) : b.Proper known := by
  induction h with
  | statement hst ht hb =>
      rw [hst, List.forall_mem_append, List.forall_mem_cons] at hs
      exact ⟨.execute hs.2.1, ((firstOf_runs (running hh frames) hs.1).ok (hm.tell ht) hb).2⟩
  | inner _ h ih => exact h.proper hh ih

end Moments

end Lox
