import Mathlib.Combinatorics.Enumerative.DyckWord
import Lox.Proofs.Eval.Restores
import Lox.Proofs.Eval.Simulation

/-!
# Calls and returns are nested

A run that tells of its calls tells of each call before it does what is inside and of each return behind
it.  Read as brackets, the calls and returns of a step are balanced if the step gives a value; a step that
stops leaves some of them open.  A call is labelled with the number of calls counted as open.  At the start
of a run this need not be zero, since a call that could not be told stays counted.

* `Nested bound d es`: the events `es`, told while `d` calls are counted, are nested.  Each call in them has
  the number of calls counted with it, which is within the bound, and its return names what was called.
* `Nested.exists_dyckWord`, `Nested.called`, `Nested.returned`: what this says of the brackets, of one call
  and of one return.
* `Run.Nests bound p`: the step `p` tells nested events, or stops within such.
* `nesting`: all tasks do so, by induction on the frames left.
-/

namespace Lox

variable {α β : Type}

/-! ### Events -/

/-- A call opens a bracket, and a return closes one. -/
def Event.bracket? : Event → Option DyckStep
  | .called .. => some .U
  | .returned .. => some .D
  | _ => none

/-- Whether an event tells of the end of a run. -/
def Event.isEnd : Event → Bool
  | .finished | .failed .. | .hostLimit => true
  | _ => false

/-- The calls and returns among some events. -/
def brackets (es : List Event) : List DyckStep := es.filterMap Event.bracket?

/-- Events inside a run, told while `d` calls are counted, in which every call is left again. -/
inductive Nested (bound : Int) : Nat → List Event → Prop where
  | nil {d : Nat} : Nested bound d []
  | aside {d : Nat} {e : Event} {es : List Event} (he : e.bracket? = none) (hn : e.isEnd = false)
      (h : Nested bound d es) : Nested bound d (e :: es)
  | call {d : Nat} {f v : Value} {inner rest : List Event} (hd : (d : Int) < bound)
      (hi : Nested bound (d + 1) inner) (h : Nested bound d rest) :
      Nested bound d (.called f (d + 1) :: (inner ++ .returned v f :: rest))

/-- The brackets of a stretch are those of its parts. -/
theorem brackets_append (es es' : List Event) : brackets (es ++ es') = brackets es ++ brackets es' :=
  List.filterMap_append

theorem brackets_aside {e : Event} (he : e.bracket? = none) (es : List Event) :
    brackets (e :: es) = brackets es :=
  List.filterMap_cons_none he

theorem brackets_called (f : Value) (k : Nat) (es : List Event) :
    brackets (.called f k :: es) = .U :: brackets es :=
  rfl

theorem brackets_returned (v f : Value) (es : List Event) :
    brackets (.returned v f :: es) = .D :: brackets es :=
  rfl

/-- Two ways to take a list apart around an item. -/
theorem append_cons_eq_append_cons {as bs cs ds : List α} {a b : α}
    (h : as ++ a :: bs = cs ++ b :: ds) :
    (∃ es, as = cs ++ b :: es) ∨ (as = cs ∧ a = b) ∨
      ∃ es, cs = as ++ a :: es ∧ bs = es ++ b :: ds := by
  rcases List.append_eq_append_iff.mp h with ⟨es, rfl, he⟩ | ⟨es, rfl, he⟩
  · cases es with
    | nil =>
        cases he
        exact .inr (.inl ⟨(List.append_nil as).symm, rfl⟩)
    | cons e es =>
        cases he
        exact .inr (.inr ⟨es, rfl, rfl⟩)
  · cases es with
    | nil =>
        cases he
        exact .inr (.inl ⟨List.append_nil cs, rfl⟩)
    | cons e es =>
        cases he
        exact .inl ⟨es, rfl⟩

namespace Nested

variable {bound : Int} {d : Nat} {es es' : List Event}

/-- Two nested stretches, one behind the other, are nested. -/
theorem append (h : Nested bound d es) (h' : Nested bound d es') : Nested bound d (es ++ es') := by
  induction h with
  | nil => exact h'
  | aside he hn _ ih => exact .aside he hn (ih h')
  | call hd hi _ _ ih =>
      rw [List.cons_append, List.append_assoc]
      exact .call hd hi (ih h')

/-- The brackets are balanced. -/
theorem exists_dyckWord (h : Nested bound d es) : ∃ w : DyckWord, w.toList = brackets es := by
  induction h with
  | nil => exact ⟨0, rfl⟩
  | aside he _ _ ih =>
      rw [brackets_aside he]
      exact ih
  | call _ _ _ ih ih' =>
      obtain ⟨w, hw⟩ := ih
      obtain ⟨w', hw'⟩ := ih'
      refine ⟨w.nest + w', ?_⟩
      rw [brackets_called, brackets_append, brackets_returned, ← hw, ← hw']
      exact List.append_assoc (.U :: w.toList) [.D] w'.toList

/-- In a nested stretch there are as many returns as calls. -/
theorem count_eq (h : Nested bound d es) : (brackets es).count .U = (brackets es).count .D := by
  obtain ⟨w, hw⟩ := h.exists_dyckWord
  rw [← hw, w.count_U_eq_count_D]

theorem isEnd_eq_false (h : Nested bound d es) : ∀ e ∈ es, e.isEnd = false := by
  induction h with
  | nil => exact fun e he => absurd he List.not_mem_nil
  | aside _ hn _ ih => exact List.forall_mem_cons.mpr ⟨hn, ih⟩
  | call _ _ _ ihi ih =>
      rw [List.forall_mem_cons, List.forall_mem_append, List.forall_mem_cons]
      exact ⟨rfl, ihi, rfl, ih⟩

/-- A call has the number of calls that are counted with it, which is within the bound. -/
theorem called {front back : List Event} {f : Value} {k : Nat} (h : Nested bound d es)
    (hes : es = front ++ .called f k :: back) :
    k + (brackets front).count .D = d + (brackets front).count .U + 1 ∧ (k : Int) ≤ bound := by
  induction h generalizing front back with
  | nil => exact absurd hes.symm (List.append_ne_nil_of_right_ne_nil _ (List.cons_ne_nil _ _))
  | @aside d e es he _ _ ih =>
      cases front with
      | nil =>
          cases hes
          cases he
      | cons first front =>
          cases hes
          rw [brackets_aside he]
          exact ih rfl
  | @call d g v inner rest hd hi _ ihi ih =>
      cases front with
      | nil =>
          cases hes
          exact ⟨rfl, hd⟩
      | cons first front =>
          rw [List.cons_append, List.cons.injEq] at hes
          obtain ⟨rfl, hes⟩ := hes
          rw [brackets_called, List.count_cons_self, List.count_cons_of_ne (by decide)]
          rcases append_cons_eq_append_cons hes with ⟨mid, rfl⟩ | ⟨-, he⟩ | ⟨mid, rfl, rfl⟩
          · obtain ⟨hk, hb⟩ := ihi rfl
            exact ⟨by omega, hb⟩
          · cases he
          · -- the call that is left in between counts on both sides
            obtain ⟨hk, hb⟩ := ih rfl
            have hinner := hi.count_eq
            rw [brackets_append, brackets_returned, List.count_append, List.count_append,
              List.count_cons_self, List.count_cons_of_ne (by decide)]
            exact ⟨by omega, hb⟩

/-- A return names what was called, and what is in between is nested. -/
theorem returned {front back : List Event} {v f : Value} (h : Nested bound d es)
    (hes : es = front ++ .returned v f :: back) :
    ∃ before k inner, front = before ++ .called f k :: inner ∧ Nested bound k inner := by
  induction h generalizing front back with
  | nil => exact absurd hes.symm (List.append_ne_nil_of_right_ne_nil _ (List.cons_ne_nil _ _))
  | @aside d e es he _ _ ih =>
      cases front with
      | nil =>
          cases hes
          cases he
      | cons first front =>
          cases hes
          obtain ⟨before, k, inner, rfl, hn⟩ := ih rfl
          exact ⟨e :: before, k, inner, rfl, hn⟩
  | @call d g w inner rest hd hi _ ihi ih =>
      cases front with
      | nil => cases hes
      | cons first front =>
          rw [List.cons_append, List.cons.injEq] at hes
          obtain ⟨rfl, hes⟩ := hes
          rcases append_cons_eq_append_cons hes with ⟨mid, rfl⟩ | ⟨rfl, he⟩ | ⟨mid, rfl, rfl⟩
          · obtain ⟨before, k, inner', rfl, hn⟩ := ihi rfl
            exact ⟨.called g (d + 1) :: before, k, inner', rfl, hn⟩
          · cases he
            exact ⟨[], d + 1, inner, rfl, hi⟩
          · obtain ⟨before, k, inner', rfl, hn⟩ := ih rfl
            refine ⟨.called g (d + 1) :: (inner ++ .returned w g :: before), k, inner', ?_, hn⟩
            rw [List.cons_append, List.append_assoc, List.cons_append]

end Nested

/-! ### Steps -/

/-- Started on `m`, a step tells nested events if it gives a value, and the first part of such if it
stops. -/
inductive Result.Nests (bound : Int) (m : Machine) : Result α → Prop where
  | ok {a : α} {m' : Machine} (told : List Event) (ht : m'.trace.toList = m.trace.toList ++ told)
      (hn : Nested bound m.depth told) (hd : m'.depth = m.depth) : Nests bound m (.ok a m')
  | stop {why : Stop} {m' : Machine} (told rest : List Event)
      (ht : m'.trace.toList = m.trace.toList ++ told) (hn : Nested bound m.depth (told ++ rest)) :
      Nests bound m (.stop why m')

/-- A result that was reached behind some nested events. -/
theorem Result.Nests.behind {bound : Int} {m m' : Machine} {r : Result α} {told : List Event}
    (ht : m'.trace.toList = m.trace.toList ++ told) (hn : Nested bound m.depth told)
    (hd : m'.depth = m.depth) (h : r.Nests bound m') : r.Nests bound m := by
  cases h with
  | ok told' ht' hn' hd' =>
      refine .ok (told ++ told') ?_ (hn.append (hd ▸ hn')) (hd'.trans hd)
      rw [ht', ht, List.append_assoc]
  | stop told' rest ht' hn' =>
      refine .stop (told ++ told') rest ?_ ?_
      · rw [ht', ht, List.append_assoc]
      · rw [List.append_assoc]
        exact hn.append (hd ▸ hn')

namespace Run

/-- The step tells nested events, or stops within such. -/
def Nests (bound : Int) (p : Run α) : Prop := ∀ m, (p m).Nests bound m

namespace Nests

variable {bound : Int}

/-- A step that tells nothing and opens no call. -/
theorem other {p : Run α} (h : ∀ m, (p m).machine.trace = m.trace ∧ (p m).machine.depth = m.depth) :
    p.Nests bound := by
  intro m
  obtain ⟨ht, hd⟩ := h m
  have htold : (p m).machine.trace.toList = m.trace.toList ++ [] := by
    rw [ht, List.append_nil]
  generalize p m = r at htold hd ⊢
  cases r with
  | ok a m' => exact .ok [] htold .nil hd
  | stop why m' => exact .stop [] [] htold .nil

/-- A step that tells nothing and opens no call. -/
theorem plain {p : Run α} (h : p.Plain) : p.Nests bound := by
  refine other fun m => ?_
  cases h with
  | pure | fault | exhausted | printLine | currentScope | openCalls | newScope => exact ⟨rfl, rfl⟩
  | namesOf names =>
      rw [Run.namesOf]
      split <;> exact ⟨rfl, rfl⟩
  | lookup t =>
      rw [Run.lookup]
      split
      · exact ⟨rfl, rfl⟩
      · split <;> exact ⟨rfl, rfl⟩
  | assign t v =>
      rw [Run.assign]
      split
      · exact ⟨rfl, rfl⟩
      · split <;> exact ⟨rfl, rfl⟩
  | define t v =>
      rw [Run.define]
      split <;> exact ⟨rfl, rfl⟩
  | callHost config function vs =>
      rw [Run.callHost]
      split <;> exact ⟨rfl, rfl⟩

theorem ofExcept (r : Except Fault α) : (ofExcept r).Nests bound := by
  cases r with
  | ok a => exact plain (.pure a)
  | error f => exact plain (.fault f)

/-- Sequencing: if the second step stops, what it has told so far stands behind what the first one told. -/
theorem bind {p : Run α} {f : α → Run β} (hp : p.Nests bound) (hf : ∀ a, (f a).Nests bound) :
    (p >>= f).Nests bound := by
  intro m
  have h := hp m
  cases hr : p m with
  | ok a m₁ =>
      rw [hr] at h
      rw [bind_of_ok hr]
      cases h with
      | ok told ht hn hd => exact (hf a m₁).behind ht hn hd
  | stop why m₁ =>
      rw [hr] at h
      rw [bind_of_stop hr]
      cases h with
      | stop told rest ht hn => exact .stop told rest ht hn

theorem map {p : Run α} (f : α → β) (hp : p.Nests bound) : (f <$> p).Nests bound :=
  hp.bind fun a => plain (.pure (f a))

theorem goOn (o : Option α) {p : Run (Option α)} (hp : p.Nests bound) : (goOn o p).Nests bound := by
  cases o with
  | none => exact hp
  | some a => exact plain (.pure (some a))

theorem collect {f : β → Run α} (hf : ∀ b, (f b).Nests bound) (bs : List β) :
    (collect f bs).Nests bound := by
  induction bs with
  | nil => exact plain (.pure [])
  | cons b bs ih => exact (hf b).bind fun a => ih.bind fun as => plain (.pure (a :: as))

/-- Statements one after the other, up to the first that returns. -/
theorem firstOf {f : β → Run (Option α)} (hf : ∀ b, (f b).Nests bound) (bs : List β) :
    Nests bound (firstOf f bs) := by
  induction bs with
  | nil => exact plain (.pure none)
  | cons b bs ih =>
      rw [firstOf_cons]
      exact (hf b).bind fun o => .goOn o ih

/-- Loops, by induction on the rounds. -/
theorem whileTrue {condition : Run Bool} {body : Run (Option α)} (hc : condition.Nests bound)
    (hb : body.Nests bound) (rounds : Nat) : Nests bound (whileTrue condition body rounds) := by
  induction rounds with
  | zero => exact plain (.fault .unfinished)
  | succ rounds ih =>
      rw [whileTrue_succ]
      refine hc.bind fun go => ?_
      split
      · exact hb.bind fun o => .goOn o ih
      · exact plain (.pure none)

/-- Telling of anything but a call, a return or the end. -/
theorem tell (config : Config) {event : Event} (he : event.bracket? = none)
    (hn : event.isEnd = false) : (tell config event).Nests bound := by
  intro m
  rw [Run.tell]
  split
  · split
    · exact .ok [event] Array.toList_push (.aside he hn .nil) rfl
    · exact .stop [] [] (List.append_nil _).symm .nil
  · exact .ok [] (List.append_nil _).symm .nil rfl

theorem inScope (id : Nat) {p : Run α} (hp : p.Nests bound) : (inScope id p).Nests bound := by
  intro m
  have h := hp { m with current := id }
  rw [Run.inScope]
  generalize p { m with current := id } = r at h ⊢
  cases h with
  | ok told ht hn hd => exact .ok told ht hn hd
  | stop told rest ht hn => exact .stop told rest ht hn

end Nests

/-- An event whose level is wanted is told, or its line cannot be written. -/
theorem tell_cases_of_le {config : Config} (event : Event) (h : event.level ≤ config.level)
    (m : Machine) :
    Run.tell config event m = .ok () { m with trace := m.trace.push event } ∨
      Run.tell config event m = .stop (.fault .unwritable) m := by
  rw [Run.tell, if_pos h]
  split
  · exact .inl rfl
  · exact .inr rfl

/-- What is inside a call that is told, and its return behind that. -/
theorem called_nests {config : Config} (hl : 3 ≤ config.level) {bound : Int} {f : Value}
    {inside : Run Value} (hi : inside.Nests bound) {m : Machine} {d : Nat} (hd : m.depth = d + 1)
    (hbound : (d : Int) < bound) {before : Machine} (hbefore : before.depth = d)
    (htrace : m.trace.toList = before.trace.toList ++ [.called f (d + 1)]) :
    ((do
      let v ← leaving inside
      Run.tell config (.returned v f)
      pure v : Run Value) m).Nests bound before := by
  have h := hi m
  rw [← hbefore] at hbound htrace
  cases hr : inside m with
  | stop why m₁ =>
      rw [hr] at h
      rw [bind_of_stop (leaving_of_stop hr)]
      cases h with
      | stop told rest ht hn =>
          rw [hd, ← hbefore] at hn
          refine .stop (.called f (before.depth + 1) :: told) (rest ++ [.returned .nil f]) ?_ ?_
          · rw [ht, htrace, List.append_assoc]
            rfl
          · rw [List.cons_append, ← List.append_assoc]
            exact .call hbound hn .nil
  | ok v m₁ =>
      rw [hr] at h
      have hleft : leaving inside m = .ok v { m₁ with depth := m₁.depth - 1 } := by rw [leaving, hr]
      rw [bind_of_ok hleft]
      cases h with
      | ok told ht hn hd₁ =>
          rw [hd, ← hbefore] at hn
          have hall : m₁.trace.toList = before.trace.toList ++ (.called f (before.depth + 1) :: told) := by
            rw [ht, htrace, List.append_assoc]
            rfl
          obtain htell | htell := tell_cases_of_le (.returned v f) hl
            { m₁ with depth := m₁.depth - 1 }
          · rw [bind_of_ok htell]
            refine .ok (.called f (before.depth + 1) :: (told ++ [.returned v f])) ?_
              (.call hbound hn .nil) ?_
            · rw [Array.toList_push, hall, List.append_assoc]
              rfl
            · show m₁.depth - 1 = before.depth
              omega
          · -- the call is left, and its return is missing
            rw [bind_of_stop htell]
            exact .stop _ [.returned v f] hall (.call hbound hn .nil)

/-- A call below the bound is told with what is inside it, and its return behind that; if it cannot be told,
nothing is. -/
theorem call_nests {config : Config} (hl : 3 ≤ config.level) {bound : Int} {n : Nat} {f : Value}
    {inside : Run Value} (hi : inside.Nests bound) (paren : Token) {m : Machine}
    (hd : (m.depth : Int) < bound) :
    ((do
      let v ← counted paren (announceCall config n f (m.depth + 1)) inside
      Run.tell config (.returned v f)
      pure v : Run Value) m).Nests bound m := by
  let entered : Machine := { m with depth := m.depth + 1, lastCall := some paren }
  have henter : enterCall paren m = .ok () entered := rfl
  unfold counted
  simp only [bind_assoc]
  rw [bind_of_ok henter]
  cases hannounce : announceCall config n f (m.depth + 1) entered with
  | stop why m₁ =>
      rw [bind_of_stop hannounce]
      obtain ⟨-, rfl⟩ := announceCall_stop hannounce
      exact .stop [] [] (List.append_nil _).symm .nil
  | ok _ m₁ =>
      rw [bind_of_ok hannounce]
      obtain ⟨-, htell⟩ := announceCall_eq_ok_iff.mp hannounce
      obtain h | h := tell_cases_of_le (.called f (m.depth + 1)) hl entered
      · rw [h] at htell
        cases htell
        exact called_nests hl hi rfl hd rfl Array.toList_push
      · rw [h] at htell
        cases htell

end Run

/-! ### Tasks -/

/-- With so many frames left, every task tells nested events. -/
structure Nesting (config : Config) (n : Nat) : Prop where
  evaluate : ∀ e, (evaluate config n e).Nests config.maxDepth
  evaluateAll : ∀ es, (evaluateAll config n es).Nests config.maxDepth
  invoke : ∀ f vs paren, (invoke config n f vs paren).Nests config.maxDepth
  block : ∀ id statements, (block config n id statements).Nests config.maxDepth
  execute : ∀ s, (execute config n s).Nests config.maxDepth

open Run (Nests)

section Tasks

variable {config : Config} {n : Nat}

theorem evaluate_nests (h : Nesting config n) (e : Node) :
    (evaluate config (n + 1) e).Nests config.maxDepth := by
  cases e with
  | literal v => exact .plain (.pure _)
  | grouping e => exact h.evaluate e
  | reference name => exact .plain (.lookup name)
  | assign name e =>
      rw [evaluate_assign]
      refine (h.evaluate e).bind fun v => (Nests.plain (.assign name v)).bind fun _ => ?_
      exact .plain (.pure v)
  | logical l o r =>
      rw [evaluate_logical]
      refine (h.evaluate l).bind fun v => ?_
      split
      · exact .plain (.pure v)
      · exact h.evaluate r
  | unary o e =>
      rw [evaluate_unary]
      exact (h.evaluate e).bind fun v => .ofExcept _
  | binary l o r =>
      rw [evaluate_binary]
      exact (h.evaluate l).bind fun a => (h.evaluate r).bind fun b => .ofExcept _
  | call e paren es =>
      rw [evaluate_call]
      refine (h.evaluate e).bind fun f => (h.evaluateAll es).bind fun vs => ?_
      exact h.invoke f vs paren
  | _ => exact .plain (.fault .malformed)

/-- The inside of a call, one deeper. -/
theorem callInside_nests (h : Nesting config n) (f : Value) (vs : List Value) :
    (callInside config n f vs).Nests config.maxDepth := by
  cases f with
  | function name params body closure =>
      refine (Nests.plain (.namesOf params)).bind fun names => ?_
      refine (Nests.plain (.newScope closure _)).bind fun id => ?_
      exact (h.block id body).bind fun returned => .plain (.pure _)
  | native name arity function => exact .plain (.callHost config function vs)
  | _ => exact .plain (.fault .malformed)

/-- A call puts a bracket around what is told inside, at the level at which calls are told. -/
theorem invoke_nests (hl : 3 ≤ config.level) (h : Nesting config n) (f : Value) (vs : List Value)
    (paren : Token) : (invoke config (n + 2) f vs paren).Nests config.maxDepth := by
  intro m
  rw [invoke_add_two, Run.bind_of_ok (show Run.openCalls m = .ok m.depth m from rfl)]
  cases hc : checkCall config f vs.length m.depth paren with
  | error fault => exact .stop [] [] (List.append_nil _).symm .nil
  | ok _ => exact Run.call_nests hl (callInside_nests h f vs) paren (checkCall_ok hc).2

theorem initialValue_nests (h : Nesting config n) (e : Node) :
    (initialValue config n e).Nests config.maxDepth := by
  by_cases he : e = .null
  · subst he
    exact .plain (.pure _)
  · rw [initialValue_of_ne config n he]
    exact h.evaluate e

theorem executeOptional_nests (h : Nesting config n) (s : Node) :
    (executeOptional config n s).Nests config.maxDepth := by
  by_cases hs : s = .null
  · subst hs
    exact .plain (.pure _)
  · rw [executeOptional_of_ne config n hs]
    exact h.execute s

theorem execute_nests (h : Nesting config n) (s : Node) :
    (execute config (n + 1) s).Nests config.maxDepth := by
  cases s with
  | expression e =>
      rw [execute_expression]
      exact (h.evaluate e).bind fun _ => .plain (.pure none)
  | print e =>
      rw [execute_print]
      refine (h.evaluate e).bind fun v => (Nests.plain (.printLine _)).bind fun _ => ?_
      exact .plain (.pure none)
  | declare name e =>
      rw [execute_declare]
      refine (initialValue_nests h e).bind fun v => (Nests.plain (.define name v)).bind fun _ => ?_
      exact (Nests.tell config rfl rfl).bind fun _ => .plain (.pure none)
  | block statements =>
      rw [execute_block]
      refine (Nests.plain .currentScope).bind fun outer => ?_
      exact (Nests.plain (.newScope outer [])).bind fun id => h.block id statements
  | branch c s s' =>
      rw [execute_branch]
      refine (h.evaluate c).bind fun v => (Nests.tell config rfl rfl).bind fun _ => ?_
      split
      · exact h.execute s
      · exact executeOptional_nests h s'
  | loop c s =>
      rw [execute_loop]
      exact Nests.whileTrue (.map _ (h.evaluate c)) (h.execute s) config.rounds
  | function name params body =>
      rw [execute_function]
      refine (Nests.plain .currentScope).bind fun closure => ?_
      refine (Nests.plain (.define name _)).bind fun _ => ?_
      exact (Nests.tell config rfl rfl).bind fun _ => .plain (.pure none)
  | returns keyword e =>
      rw [execute_returns]
      exact .map _ (initialValue_nests h e)
  | _ => exact .plain (.fault .malformed)

/-- **Calls and returns are nested**, if they are told. -/
theorem nesting (hl : 3 ≤ config.level) (n : Nat) : Nesting config n := by
  -- a call uses two frames at once, so what is inside it is two steps back
  have hnone : ∀ {α : Type}, (Run.exhausted : Run α).Nests config.maxDepth := .plain .exhausted
  induction n using Nat.strongRecOn with
  | ind n ih =>
      match n, ih with
      | 0, _ =>
          exact ⟨fun _ => hnone, fun _ => hnone, fun _ _ _ => hnone, fun _ _ => hnone,
            fun _ => hnone⟩
      | n + 1, ih =>
          have h := ih n (Nat.lt_succ_self n)
          refine ⟨evaluate_nests h, Nests.collect h.evaluate, ?_, fun id statements => ?_,
            execute_nests h⟩
          · match n, ih with
            | 0, _ => exact fun _ _ _ => hnone
            | n + 1, ih => exact invoke_nests hl (ih n (by omega))
          · exact Nests.inScope id (Nests.firstOf h.execute statements)

end Tasks

end Lox
