import Lox.Proofs.Parser.Declarations
import Lox.Proofs.Scope.Lexical
import Lox.Proofs.Session

/-!
# Where names are introduced

A name is bound in the scope that is current, and the scopes that functions and blocks are executed in
are new ones.  So whatever an expression calls, the scopes that were there before have the names that they
had; a statement can introduce names in the current scope only, and most cannot even do that.

* `Heap.Preserved J free`: the property `J` of heaps is kept by making scopes, by binding names in *free*
  scopes, and by giving a bound name another value.  The names of one scope are such a property, all other
  scopes being free (`Heap.names_preserved`); so is that a scope binds a name, all scopes being free
  (`Heap.binds_preserved`).
* `Run.Guards J free away p`: the step `p` keeps `J`, given that the current scope is free if `away` holds.
* `guarding`: all tasks do so, by induction on the frames left; a statement that declares nothing need not
  be away.
* `Machine.introduces`: what this comes to for the names of scopes.
-/

namespace Lox

variable {α β : Type}

/-! ### Heaps -/

namespace Heap

variable {J : Heap Value → Prop} {free : Nat → Prop} {h : Heap Value}

/-- A property that is kept by what is done in free scopes, and by giving a bound name another value.
New scopes are free. -/
structure Preserved (J : Heap Value → Prop) (free : Nat → Prop) : Prop where
  fresh : ∀ h, J h → free h.size
  push : ∀ h o, J h → J (h.push o)
  define : ∀ h id x v, J h → free id ∨ h.binds x id = true → J (h.define id x v)

/-- Many names may be bound in a free scope, as in that of a call. -/
theorem Preserved.defineAll (hp : Preserved J free) {id : Nat} (hid : free id) (hh : J h)
    (bindings : List (Name × Value)) : J (h.defineAll id bindings) := by
  induction bindings generalizing h with
  | nil => exact hh
  | cons b bindings ih => exact ih (hp.define h id b.1 b.2 hh (.inl hid))

/-- A new scope binds nothing. -/
theorem binds_push (h : Heap Value) (o : Option Nat) (x : Name) (i : Nat) :
    (h.push o).binds x i = h.binds x i := by
  rw [binds, binds, get?_push]
  split
  · rename_i s hs
    split at hs
    · rename_i hi
      cases hs
      rw [hi, get?_eq_none (Nat.le_refl _)]
      rfl
    · rw [hs]
  · rename_i hs
    split at hs
    · cases hs
    · rw [hs]

/-- The names of a scope are kept by what is done elsewhere. -/
theorem names_preserved (i : Nat) (names : Name → Bool) :
    Preserved (fun h => i < h.size ∧ ∀ x, h.binds x i = names x) (· ≠ i) where
  fresh _ hh := Nat.ne_of_gt hh.1
  push h o hh := by
    refine ⟨?_, fun x => by rw [binds_push, hh.2]⟩
    rw [size_push]
    exact Nat.lt_succ_of_lt hh.1
  define h id x v hh hfree := by
    refine ⟨by rw [size_define]; exact hh.1, fun y => ?_⟩
    rw [← hh.2, Bool.eq_iff_iff, binds_define]
    refine or_iff_left_of_imp ?_
    rintro ⟨rfl, rfl, -⟩
    exact hfree.resolve_left fun hne => hne rfl

/-- A name that a scope binds stays bound, whatever is done. -/
theorem binds_preserved (i : Nat) (x : Name) :
    Preserved (fun h => h.binds x i = true) fun _ => True where
  fresh _ _ := trivial
  push h o hh := (binds_push h o x i).trans hh
  define _ _ _ _ hh _ := (binds_define ..).mpr (.inl hh)

/-- A walk ends at a scope that binds the name. -/
theorem binds_of_resolve? {e r : Nat} {x : Name} (hr : h.resolve? e x = some r) :
    h.binds x r = true := by
  have hwalk : ∀ fuel e, h.resolveFrom x fuel e = some r → h.binds x r = true := by
    intro fuel
    induction fuel with
    | zero => exact fun e hr => by cases hr
    | succ fuel ih =>
        intro e hr
        rw [resolveFrom] at hr
        split at hr
        · cases hr
        · rename_i s hs
          split at hr
          · rename_i hd
            cases hr
            rw [binds, hs]
            exact hd
          · split at hr
            · cases hr
            · exact ih _ hr
  exact hwalk _ e hr

end Heap

/-! ### Steps -/

/-- The heap has a property, and the current scope is free if `away` holds. -/
structure Machine.Guards (J : Heap Value → Prop) (free : Nat → Prop) (away : Prop) (m : Machine) :
    Prop where
  heap : J m.heap
  current : away → free m.current

namespace Run

/-- However it ends, a step keeps a property of the heap; if `away` holds, it may bind names in the
current scope, which is free then. -/
abbrev Guards (J : Heap Value → Prop) (free : Nat → Prop) (away : Prop) (p : Run α) : Prop :=
  Meets (Machine.Guards J free away) (fun _ => True) (fun _ => True) p

namespace Guards

variable {J : Heap Value → Prop} {free : Nat → Prop} {away : Prop}

/-- What a step guards is there at its end. -/
theorem machine {p : Run α} (hp : p.Guards J free away) {m : Machine} (hm : m.Guards J free away) :
    J (p m).machine.heap := by
  have h := hp m hm
  generalize p m = r at h ⊢
  cases h with
  | ok _ hm' => exact hm'.heap
  | stop _ hm' => exact hm'.heap

theorem pure (a : α) : Guards J free away (pure a) := Meets.pure trivial

theorem fault (f : Fault) : Guards J free away (fault f : Run α) := Meets.fault trivial

theorem exhausted : Guards J free away (exhausted : Run α) := Meets.exhausted trivial

theorem ofExcept (r : Except Fault α) : Guards J free away (ofExcept r) :=
  Meets.ofExcept (fun _ _ => trivial) fun _ _ => trivial

/-- Sequencing, with nothing to know of the value in between. -/
theorem next {p : Run α} {f : α → Run β} (hp : p.Guards J free away)
    (hf : ∀ a, (f a).Guards J free away) : (p >>= f).Guards J free away :=
  Meets.bind hp fun a _ => hf a

theorem map {p : Run α} {f : α → β} (hp : p.Guards J free away) : (f <$> p).Guards J free away :=
  Meets.map hp fun _ _ => trivial

theorem collect {f : β → Run α} (hf : ∀ b, (f b).Guards J free away) (bs : List β) :
    (collect f bs).Guards J free away :=
  (Meets.collect fun b _ => hf b).mono fun _ _ => trivial

theorem firstOf {f : β → Run (Option α)} (hf : ∀ b, (f b).Guards J free away) (bs : List β) :
    Guards J free away (firstOf f bs) := by
  refine (Meets.firstOf (P := fun _ => True) fun b _ => ?_).mono fun _ _ => trivial
  exact (hf b).mono fun _ _ _ _ => trivial

theorem whileTrue {condition : Run Bool} {body : Run (Option α)}
    (hc : condition.Guards J free away) (hb : body.Guards J free away) (rounds : Nat) :
    Guards J free away (whileTrue condition body rounds) := by
  refine (Meets.whileTrue (P := fun _ => True) trivial hc ?_).mono fun _ _ => trivial
  exact hb.mono fun _ _ _ _ => trivial

/-- A step that keeps the heap and the current scope. -/
theorem other {p : Run α}
    (h : ∀ m, (p m).machine.heap = m.heap ∧ (p m).machine.current = m.current) :
    p.Guards J free away := by
  intro m hm
  obtain ⟨hh, hc⟩ := h m
  have hm' : (p m).machine.Guards J free away := ⟨hh ▸ hm.heap, fun ha => hc ▸ hm.current ha⟩
  generalize p m = r at hm' ⊢
  cases r with
  | ok a m' => exact .ok trivial hm'
  | stop why m' => exact .stop trivial hm'

/-! ### The steps of the machine -/

theorem tell (config : Config) (event : Event) : (tell config event).Guards J free away := by
  refine other fun m => ?_
  obtain ⟨trace, h⟩ | h := tell_cases config event m
  · rw [h]
    exact ⟨rfl, rfl⟩
  · rw [h]
    exact ⟨rfl, rfl⟩

theorem spell (frames : Nat) (f : Value) : (spell frames f).Guards J free away := by
  rw [Run.spell]
  split
  · exact pure ()
  · exact exhausted

/-- A function of the host touches no scope. -/
theorem callHost (config : Config) (function : HostFunction) (vs : List Value) :
    (callHost config function vs).Guards J free away := by
  refine other fun m => ?_
  rw [Run.callHost]
  split <;> exact ⟨rfl, rfl⟩

theorem printLine (line : Text) : (printLine line).Guards J free away := other fun _ => ⟨rfl, rfl⟩

theorem currentScope : currentScope.Guards J free away := other fun _ => ⟨rfl, rfl⟩

theorem openCalls : openCalls.Guards J free away := other fun _ => ⟨rfl, rfl⟩

theorem namesOf (names : List Json) : (namesOf names).Guards J free away := by
  refine other fun m => ?_
  rw [Run.namesOf]
  split <;> exact ⟨rfl, rfl⟩

theorem lookup (t : Token) : (lookup t).Guards J free away := by
  refine other fun m => ?_
  rw [Run.lookup]
  split
  · exact ⟨rfl, rfl⟩
  · split <;> exact ⟨rfl, rfl⟩

/-- A variable gets a value where it is bound already. -/
theorem assign (hp : Heap.Preserved J free) (t : Token) (v : Value) :
    (assign t v).Guards J free away := by
  intro m hm
  rw [Run.assign]
  split
  · exact .stop trivial hm
  · split
    · rename_i r hr
      refine .ok trivial ⟨?_, hm.current⟩
      exact hp.define _ r _ v hm.heap (.inr (Heap.binds_of_resolve? hr))
    · exact .stop trivial hm

/-- A name is bound in the current scope, which is free. -/
theorem define (hp : Heap.Preserved J free) (ha : away) (t : Token) (v : Value) :
    (define t v).Guards J free away := by
  intro m hm
  rw [Run.define]
  split
  · exact .stop trivial hm
  · exact .ok trivial ⟨hp.define _ _ _ v hm.heap (.inl (hm.current ha)), hm.current⟩

/-- The scope made is a free one. -/
theorem newScope (hp : Heap.Preserved J free) (enclosing : Nat) (bindings : List (Name × Value)) :
    Meets (Machine.Guards J free away) (fun _ => True) free (newScope enclosing bindings) := by
  intro m hm
  have hfree := hp.fresh m.heap hm.heap
  refine .ok hfree ⟨?_, hm.current⟩
  exact hp.defineAll hfree (hp.push m.heap (some enclosing) hm.heap) bindings

/-- Inside a free scope names may be bound. -/
theorem inScope {id : Nat} (hid : free id) {p : Run α} (hp : p.Guards J free True) :
    (inScope id p).Guards J free away := by
  intro m hm
  have h := hp { m with current := id } ⟨hm.heap, fun _ => hid⟩
  rw [Run.inScope]
  generalize p { m with current := id } = r at h ⊢
  cases h with
  | ok _ hm' => exact .ok trivial ⟨hm'.heap, hm.current⟩
  | stop _ hm' => exact .stop trivial ⟨hm'.heap, hm.current⟩

theorem leaving {p : Run α} (hp : p.Guards J free away) : (leaving p).Guards J free away := by
  intro m hm
  have h := hp m hm
  rw [Run.leaving]
  generalize p m = r at h ⊢
  cases h with
  | ok _ hm' => exact .ok trivial ⟨hm'.heap, hm'.current⟩
  | stop _ hm' => exact .stop trivial ⟨hm'.heap, hm'.current⟩

/-- Counting and telling a call are no matter of the heap. -/
theorem counted (paren : Token) {announce : Run Unit} {p : Run α}
    (ha : announce.Guards J free away) (hp : p.Guards J free away) :
    (counted paren announce p).Guards J free away := by
  have henter : (enterCall paren).Guards J free away := other fun _ => ⟨rfl, rfl⟩
  exact henter.next fun _ => ha.next fun _ => hp.leaving

end Guards

end Run

/-! ### Tasks -/

/-- With so many frames left, every task keeps a property of heaps. -/
structure Guarding (J : Heap Value → Prop) (free : Nat → Prop) (config : Config) (n : Nat) : Prop where
  evaluate : ∀ away e, (evaluate config n e).Guards J free away
  evaluateAll : ∀ away es, (evaluateAll config n es).Guards J free away
  invoke : ∀ away f vs paren, (invoke config n f vs paren).Guards J free away
  block : ∀ away id statements, free id → (block config n id statements).Guards J free away
  execute : ∀ (away : Prop) s, away ∨ s.declares = false → (execute config n s).Guards J free away

open Run (Guards)

section Tasks

variable {J : Heap Value → Prop} {free : Nat → Prop} {config : Config} {n : Nat}

/-- Expressions: only an assignment changes the heap here, and it binds no new name. -/
theorem evaluate_guards (hp : Heap.Preserved J free) (h : Guarding J free config n) (away : Prop)
    (e : Node) : (evaluate config (n + 1) e).Guards J free away := by
  cases e with
  | literal v => exact Guards.pure _
  | grouping e => exact h.evaluate away e
  | reference name => exact Guards.lookup name
  | assign name e =>
      rw [evaluate_assign]
      exact (h.evaluate away e).next fun v => (Guards.assign hp name v).next fun _ => Guards.pure v
  | logical l o r =>
      rw [evaluate_logical]
      refine (h.evaluate away l).next fun v => ?_
      split
      · exact Guards.pure v
      · exact h.evaluate away r
  | unary o e =>
      rw [evaluate_unary]
      exact (h.evaluate away e).next fun v => Guards.ofExcept _
  | binary l o r =>
      rw [evaluate_binary]
      exact (h.evaluate away l).next fun a => (h.evaluate away r).next fun b => Guards.ofExcept _
  | call e paren es =>
      rw [evaluate_call]
      refine (h.evaluate away e).next fun f => (h.evaluateAll away es).next fun vs => ?_
      exact h.invoke away f vs paren
  | _ => exact Guards.fault .malformed

/-- The body of a function is executed in a new scope. -/
theorem callInside_guards (hp : Heap.Preserved J free) (h : Guarding J free config n) (away : Prop)
    (f : Value) (vs : List Value) : (callInside config n f vs).Guards J free away := by
  cases f with
  | function name params body closure =>
      refine (Guards.namesOf params).next fun names => ?_
      refine (Guards.newScope hp closure _).bind fun id hid => ?_
      exact (h.block away id body hid).next fun returned => Guards.pure _
  | native name arity function => exact Guards.callHost config function vs
  | _ => exact Guards.fault .malformed

/-- A call is executed in a scope of its own. -/
theorem invoke_guards (hp : Heap.Preserved J free) (h : Guarding J free config n) (away : Prop)
    (f : Value) (vs : List Value) (paren : Token) :
    (invoke config (n + 2) f vs paren).Guards J free away := by
  rw [invoke_add_two]
  refine Guards.openCalls.next fun depth => (Guards.ofExcept _).next fun _ => ?_
  refine Guards.next (Guards.counted paren ?_ (callInside_guards hp h away f vs)) fun v =>
    (Guards.tell config _).next fun _ => Guards.pure v
  exact (Guards.spell n f).next fun _ => Guards.tell config _

theorem initialValue_guards (h : Guarding J free config n) (away : Prop) (e : Node) :
    (initialValue config n e).Guards J free away := by
  by_cases he : e = .null
  · subst he
    exact Guards.pure _
  · rw [initialValue_of_ne config n he]
    exact h.evaluate away e

theorem executeOptional_guards (h : Guarding J free config n) {away : Prop} {s : Node}
    (hs : away ∨ s.declares = false) : (executeOptional config n s).Guards J free away := by
  by_cases hn : s = .null
  · subst hn
    exact Guards.pure _
  · rw [executeOptional_of_ne config n hn]
    exact h.execute away s hs

/-- A declaration binds in the current scope, which has to be free; all else does not. -/
theorem execute_guards (hp : Heap.Preserved J free) (h : Guarding J free config n) (away : Prop)
    (s : Node) (hs : away ∨ s.declares = false) :
    (execute config (n + 1) s).Guards J free away := by
  cases s with
  | expression e =>
      rw [execute_expression]
      exact (h.evaluate away e).next fun _ => Guards.pure none
  | print e =>
      rw [execute_print]
      exact (h.evaluate away e).next fun v => (Guards.printLine _).next fun _ => Guards.pure none
  | declare name e =>
      have ha : away := hs.resolve_right Bool.noConfusion
      rw [execute_declare]
      refine (initialValue_guards h away e).next fun v => (Guards.define hp ha name v).next fun _ => ?_
      exact (Guards.tell config _).next fun _ => Guards.pure none
  | block statements =>
      rw [execute_block]
      refine Guards.currentScope.next fun outer => (Guards.newScope hp outer []).bind fun id hid => ?_
      exact h.block away id statements hid
  | branch c s s' =>
      have hboth : away ∨ s.declares = false ∧ s'.declares = false :=
        hs.imp_right fun hd => Bool.or_eq_false_iff.mp hd
      rw [execute_branch]
      refine (h.evaluate away c).next fun v => (Guards.tell config _).next fun _ => ?_
      split
      · exact h.execute away s (hboth.imp_right And.left)
      · exact executeOptional_guards h (hboth.imp_right And.right)
  | loop c s =>
      rw [execute_loop]
      exact Guards.whileTrue (h.evaluate away c).map (h.execute away s hs) config.rounds
  | function name params body =>
      have ha : away := hs.resolve_right Bool.noConfusion
      rw [execute_function]
      refine Guards.currentScope.next fun closure => (Guards.define hp ha name _).next fun _ => ?_
      exact (Guards.tell config _).next fun _ => Guards.pure none
  | returns keyword e =>
      rw [execute_returns]
      exact (initialValue_guards h away e).map
  | _ => exact Guards.fault .malformed

/-- **What is done in free scopes only, every task keeps.** -/
theorem guarding (hp : Heap.Preserved J free) (config : Config) (n : Nat) :
    Guarding J free config n := by
  -- a call uses two frames at once, so what is inside it is two steps back
  induction n using Nat.strongRecOn with
  | ind n ih =>
      match n, ih with
      | 0, _ =>
          exact ⟨fun _ _ => Guards.exhausted, fun _ _ => Guards.exhausted,
            fun _ _ _ _ => Guards.exhausted, fun _ _ _ _ => Guards.exhausted,
            fun _ _ _ => Guards.exhausted⟩
      | n + 1, ih =>
          have h := ih n (Nat.lt_succ_self n)
          refine ⟨evaluate_guards hp h, fun away => Guards.collect (h.evaluate away), ?_,
            fun away id statements hid => ?_, execute_guards hp h⟩
          · match n, ih with
            | 0, _ => exact fun _ _ _ _ => Guards.exhausted
            | n + 1, ih => exact invoke_guards hp (ih n (by omega))
          · exact Guards.inScope hid (Guards.firstOf (fun s => h.execute True s (.inl trivial)) statements)

end Tasks

/-! ### Sessions -/

namespace Session

variable {J : Heap Value → Prop} {free : Nat → Prop}

/-- If all scopes are free, a program keeps the property as well. -/
theorem interpret_preserved (hp : Heap.Preserved J free) (hfree : ∀ i, free i) {s : Session}
    (hs : J s.machine.heap) (statements : List Node) : J (s.interpret statements).2.machine.heap := by
  have hg := guarding hp s.config (framesFor s.settings.maxDepth)
  have hr : (runProgram s.config (framesFor s.settings.maxDepth) statements).Guards J free True :=
    (Guards.tell s.config _).next fun _ =>
      Guards.firstOf (fun stmt => hg.execute True stmt (.inl trivial)) statements
  have h := hr.machine ⟨hs, fun _ => hfree s.machine.current⟩
  obtain ⟨trace, he⟩ := s.interpret_machine statements
  rw [he]
  exact h

theorem perform_preserved (hp : Heap.Preserved J free) (hfree : ∀ i, free i) {s : Session}
    (hs : J s.machine.heap) (step : Step) : J (s.perform step).machine.heap := by
  cases step with
  | interpret statements => exact interpret_preserved hp hfree hs statements
  | run statements => exact interpret_preserved hp hfree hs statements
  | runTree tree =>
      rw [perform, runTree]
      split
      · exact interpret_preserved hp hfree hs _
      · exact hs
  | defineNative native => exact hp.define _ _ _ _ hs (.inl (hfree _))
  | setMaxDepth maxDepth => exact hs
  | close => exact hs

theorem after_preserved (hp : Heap.Preserved J free) (hfree : ∀ i, free i) {s : Session}
    (hs : J s.machine.heap) (steps : List Step) : J (s.after steps).machine.heap := by
  induction steps generalizing s with
  | nil => exact hs
  | cons step steps ih => exact ih (perform_preserved hp hfree hs step)

end Session

/-! ### Names -/

/-- A scope has the same names in two heaps. -/
def Heap.SameNames (h h' : Heap Value) (i : Nat) : Prop := ∀ x, h'.binds x i = h.binds x i

/-- Whatever a scope binds in the first heap, it binds in the second. -/
def Heap.KeepsNames (h h' : Heap Value) : Prop := ∀ i x, h.binds x i = true → h'.binds x i = true

/-- Where names are introduced by what is run on a machine, however it ends. -/
structure Machine.Introduces (config : Config) (n : Nat) (m : Machine) : Prop where
  /-- An expression leaves the names of all scopes as they are, and so does a call. -/
  evaluate : ∀ e, ∀ i < m.heap.size, m.heap.SameNames (Lox.evaluate config n e m).machine.heap i
  invoke : ∀ f vs paren, ∀ i < m.heap.size,
    m.heap.SameNames (Lox.invoke config n f vs paren m).machine.heap i
  /-- A statement leaves those of all scopes but the current one. -/
  execute : ∀ s, ∀ i < m.heap.size, i ≠ m.current →
    m.heap.SameNames (Lox.execute config n s m).machine.heap i
  /-- A block leaves those of the current one as well. -/
  block : ∀ statements, ∀ i < m.heap.size,
    m.heap.SameNames (Lox.execute config n (.block statements) m).machine.heap i
  /-- And so does a statement inside an accepted program that is no declaration. -/
  parsed : ∀ depth tokens statements, (parseWithin depth tokens).result = .ok statements →
    ∀ d ∈ statements, ∀ s, d.Contains s → s.isDeclaration = false → ∀ i < m.heap.size,
      m.heap.SameNames (Lox.execute config n s m).machine.heap i
  /-- No name gets lost. -/
  evaluate_keeps : ∀ e, m.heap.KeepsNames (Lox.evaluate config n e m).machine.heap
  invoke_keeps : ∀ f vs paren, m.heap.KeepsNames (Lox.invoke config n f vs paren m).machine.heap
  execute_keeps : ∀ s, m.heap.KeepsNames (Lox.execute config n s m).machine.heap

namespace Machine

variable (m : Machine)

/-- A step that guards the names of each scope. -/
theorem sameNames_of_guards {p : Run α} {away : Prop} {i : Nat} (hi : i < m.heap.size)
    (hc : away → m.current ≠ i)
    (hp : ∀ J free, Heap.Preserved J free → p.Guards J free away) :
    m.heap.SameNames (p m).machine.heap i := by
  have hn := Heap.names_preserved i fun x => m.heap.binds x i
  exact ((hp _ _ hn).machine ⟨⟨hi, fun _ => rfl⟩, hc⟩).2

/-- A name that is bound stays bound. -/
theorem keepsNames_of_guards {p : Run α}
    (hp : ∀ J free, Heap.Preserved J free → p.Guards J free True) :
    m.heap.KeepsNames (p m).machine.heap :=
  fun i x hx => (hp _ _ (Heap.binds_preserved i x)).machine ⟨hx, fun _ => trivial⟩

theorem introduces (config : Config) (n : Nat) : m.Introduces config n := by
  have hexec : ∀ s : Node, s.declares = false → ∀ i < m.heap.size,
      m.heap.SameNames (execute config n s m).machine.heap i := fun s hs i hi =>
    m.sameNames_of_guards hi (False.elim ·) fun _ _ hp =>
      (guarding hp config n).execute False s (.inr hs)
  constructor
  · exact fun e i hi => m.sameNames_of_guards hi (False.elim ·) fun _ _ hp =>
      (guarding hp config n).evaluate False e
  · exact fun f vs paren i hi => m.sameNames_of_guards hi (False.elim ·) fun _ _ hp =>
      (guarding hp config n).invoke False f vs paren
  · exact fun s i hi hc => m.sameNames_of_guards hi (fun _ => hc.symm) fun _ _ hp =>
      (guarding hp config n).execute True s (.inl trivial)
  · exact fun statements => hexec (.block statements) rfl
  · intro depth tokens statements hparsed d hd s hs hdecl
    exact hexec s ((parseWithin_exposed hparsed d hd s hs).trans hdecl)
  · exact fun e => m.keepsNames_of_guards fun _ _ hp => (guarding hp config n).evaluate True e
  · exact fun f vs paren => m.keepsNames_of_guards fun _ _ hp =>
      (guarding hp config n).invoke True f vs paren
  · exact fun s => m.keepsNames_of_guards fun _ _ hp =>
      (guarding hp config n).execute True s (.inl trivial)

end Machine

/-- **Names are introduced in the current scope only**, on whatever machine, and none is ever lost, neither
by the steps of a session nor by what is done to a heap. -/
theorem names_introduced :
    (∀ config n m, Machine.Introduces config n m) ∧
    (∀ (s : Session) steps, s.machine.heap.KeepsNames (s.after steps).machine.heap) ∧
    ∀ h : Heap Value, (∀ o, h.KeepsNames (h.push o)) ∧
      (∀ id x v, h.KeepsNames (h.define id x v)) ∧
      ∀ id x v h', h.assign? id x v = some h' → h.KeepsNames h' := by
  refine ⟨fun config n m => m.introduces config n, fun s steps i x hx => ?_, fun h => ⟨?_, ?_, ?_⟩⟩
  · exact s.after_preserved (Heap.binds_preserved i x) (fun _ => trivial) hx steps
  · exact fun o i x hx => (Heap.binds_preserved i x).push h o hx
  · exact fun id y v i x hx => (Heap.binds_preserved i x).define h id y v hx (.inl trivial)
  · intro id y v h' ha i x hx
    rw [Heap.assign?] at ha
    split at ha
    · cases ha
    · cases ha
      exact (Heap.binds_preserved i x).define h _ y v hx (.inl trivial)

/-- `if (true) { var a; }` leaves the global scope without the name. -/
theorem names_introduced_in_branch :
    let word (kind : Kind) (text : String) : Token := .ofText kind text .null 1
    let tokens := [word .ifWord "if", word .leftParen "(", word .trueWord "true", word .rightParen ")",
      word .leftBrace "\x7b", word .varWord "var", word .identifier "a", word .semicolon ";",
      word .rightBrace "\x7d", word .eof ""]
    let s := Session.start {} []
    ∃ statement, (parse tokens).result = .ok [statement] ∧
      (execute s.config 5 statement s.machine).machine.heap.binds (.text "a") 0 = false := by
  intro word tokens s
  let statement : Node :=
    .branch (.literal (.bool true)) (.block [.declare (word .identifier "a") .null]) .null
  have hparsed : (parseWithin nestingLimit tokens).result = .ok [statement] := rfl
  refine ⟨statement, hparsed, ?_⟩
  have hm := names_introduced.1 s.config 5 s.machine
  exact hm.parsed _ _ _ hparsed _ List.mem_cons_self _ (.self _) rfl 0 (by decide) (.text "a")

end Lox
