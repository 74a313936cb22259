import Lox.Proofs.Eval.Frames
import Lox.Proofs.Eval.Hollow
import Lox.Proofs.Parser.ForClauses
import Lox.Proofs.Session.WellFormed

/-!
# What a `for` statement means

A `for` statement is read as a `while` loop with its clauses put around the body.  Its meaning can
be said without that (`ForClauses.run`): a loop scope is opened, the initializer runs in it once, and
while the condition holds the body is executed and then the increment is evaluated.  The two differ
in scopes that bind nothing: the `while` loop opens one for each round if there is an increment, and
none around the loop if there is no initializer.

`forStatement_agrees`: from every well-formed machine, the loop that a `for` statement is read as
ends as the statement means, up to scopes that bind nothing; and the other way around, with six more
frames for the blocks that the loop is wrapped in.
-/

namespace Lox

open Run (Alike StaysAlike Truncates Restores)

/-! ### The meaning of the clauses -/

namespace ForClauses

section Meaning

variable (config : Config) (n : Nat) (f : ForClauses)

/-- Runs the clause in front of the loop, if there is one. -/
def start : Run Unit :=
  match f.initializer with
  | some s => do
    let _ ← execute config n s
    pure ()
  | none => pure ()

/-- Whether the loop goes on; an absent condition is true. -/
def holds : Run Bool :=
  match f.condition with
  | some e => Value.isTruthy <$> evaluate config n e
  | none => pure true

/-- Evaluates the increment, if there is one, and drops its value. -/
def advance : Run (Option Value) :=
  match f.increment with
  | some e => do
    let _ ← evaluate config n e
    pure none
  | none => pure none

/-- One round: the body and then the increment, unless the body returns. -/
def round : Run (Option Value) := do
  match ← execute config n f.body with
  | some v => pure (some v)
  | none => f.advance config n

/-- What a `for` statement means: in one loop scope, the initializer once, and rounds while the
condition holds. -/
def run : Run (Option Value) := Run.inBlock do
  f.start config n
  Run.whileTrue (f.holds config n) (f.round config n) config.rounds

/-- Rounds while the condition holds, each in a scope of its own if asked for. -/
def repeated (each : Bool) : Run (Option Value) :=
  Run.whileTrue (f.holds config n) (Run.inBlockIf each (f.round config n)) config.rounds

/-- What is done inside of the loop scope. -/
def turns (each : Bool) : Run (Option Value) := do
  f.start config n
  f.repeated config n each

/-- The meaning of the clauses is what is done inside of the loop scope, with rounds in no scope of their
own. -/
theorem run_eq : f.run config n = Run.inBlock (f.turns config n false) := rfl

end Meaning

/-! ### What is kept -/

section Kept

variable (config : Config) (n : Nat) (f : ForClauses)

theorem start_restores : (f.start config n).Restores := by
  rw [start]
  split
  · exact ((restoring config n).execute _).bind fun _ => Restores.pure ()
  · exact Restores.pure ()

theorem holds_restores : (f.holds config n).Restores := by
  rw [holds]
  split
  · exact ((restoring config n).evaluate _).map
  · exact Restores.pure true

theorem advance_restores : (f.advance config n).Restores := by
  rw [advance]
  split
  · exact ((restoring config n).evaluate _).bind fun _ => Restores.pure none
  · exact Restores.pure none

theorem round_restores : (f.round config n).Restores := by
  refine ((restoring config n).execute f.body).bind fun o => ?_
  cases o with
  | some v => exact Restores.pure (some v)
  | none => exact f.advance_restores config n

/-- All clauses restore scope and depth, so their sequence does. -/
theorem turns_restores (each : Bool) : (f.turns config n each).Restores :=
  (f.start_restores config n).bind fun _ =>
    Restores.whileTrue (f.holds_restores config n) ((f.round_restores config n).inBlockIf each)
      config.rounds

section Alike

variable {config} {f} {solid : Prop} {c : Correspondence} {k k' : Nat} (hh : config.host.InStep c)

include hh

/-- The initializer may bind a name, so it is run in a solid scope. -/
theorem start_alike (hs : solid ∨ f.initializer = none) :
    Alike c solid k k' (fun _ _ => Eq) (f.start config n) (f.start config n) := by
  rw [start]
  split
  · rename_i s heq
    have hsolid : solid := hs.resolve_right (by rw [heq]; nofun)
    exact ((inStep hh n).execute solid k k' s (.inl hsolid)).bind fun _ _ _ _ _ _ _ =>
      Alike.pure fun _ _ _ _ => rfl
  · exact Alike.pure fun _ _ _ _ => rfl

theorem holds_alike :
    Alike c solid k k' (fun _ _ => Eq) (f.holds config n) (f.holds config n) := by
  rw [holds]
  split
  · exact ((inStep hh n).evaluate solid k k' _).map fun _ _ _ _ hv => hv.isTruthy
  · exact Alike.pure fun _ _ _ _ => rfl

/-- The increment sees the same bindings in either run. -/
theorem advance_alike :
    Alike c solid k k' (ReturnsAlike c) (f.advance config n) (f.advance config n) := by
  rw [advance]
  split
  · exact ((inStep hh n).evaluate solid k k' _).bind fun _ _ _ _ _ _ _ =>
      Alike.pure fun _ _ _ _ => .none
  · exact Alike.pure fun _ _ _ _ => .none

/-- Neither the body nor the increment binds a name in the scope of the round. -/
theorem Proper.round_alike (hf : f.Proper) :
    Alike c solid k k' (ReturnsAlike c) (f.round config n) (f.round config n) := by
  refine ((inStep hh n).execute solid k k' f.body (.inr hf.body)).bind
    fun l l' o o' _ _ ho => ?_
  cases ho with
  | some hv => exact Alike.pure fun _ _ hl hl' => .some (hv.mono hl hl')
  | none => exact advance_alike n hh

end Alike

variable {config} {f} {solid : Prop} {k : Nat} (hh : config.host.IgnoresScopes k)

include hh

/-- Rounds in scopes of their own are in step with rounds in the loop scope. -/
theorem Proper.turns_staysAlike (hf : f.Proper) (hs : solid ∨ f.initializer = none) (each : Bool) :
    StaysAlike k solid (f.turns config n each) (f.turns config n false) := by
  have hround : StaysAlike k solid (Run.inBlockIf each (f.round config n))
      (Run.inBlockIf false (f.round config n)) := by
    refine StaysAlike.inBlockIf (.of_alike fun c hc => hf.round_alike n (hh c hc)) ?_ ?_ each false
    · exact f.round_restores config n
    · exact f.round_restores config n
  exact StaysAlike.next (fun c hc => start_alike n (hh c hc) hs) fun _ =>
    StaysAlike.whileTrue (fun c hc => holds_alike n (hh c hc)) hround config.rounds

/-- **The clauses mean the same with other scopes around the rounds**, and without a loop scope if
there is no initializer. -/
theorem Proper.staysAlike (hf : f.Proper) (each : Bool) :
    StaysAlike k solid (Run.inBlockIf f.initializer.isSome (f.turns config n each))
      (f.run config n) := by
  rw [run_eq]
  by_cases hi : f.initializer = none
  · rw [hi]
    refine StaysAlike.inBlockIf (hf.turns_staysAlike n hh (.inr hi) each) ?_ ?_ false true
    · exact f.turns_restores config n each
    · exact f.turns_restores config n false
  · rw [Option.isSome_iff_ne_none.mpr hi]
    exact (hf.turns_staysAlike n hh (.inl trivial) each).inBlock

end Kept

end ForClauses

/-! ### The loop as it is executed

Frames apart, executing the loop runs the clauses in these scopes. -/

section Frames

variable (config : Config) (n : Nat)

theorem Run.Truncates.inBlock {p q : Run (Option Value)} (h : p.Truncates q) :
    Truncates (Run.inBlock p) (Run.inBlock q) :=
  Truncates.bind (.refl _) fun _ => Truncates.bind (.refl _) fun i => h.inScope i

theorem Run.firstOf_pair {β : Type} (f : β → Run (Option Value)) (a b : β) :
    Run.firstOf f [a, b] = (do
      match ← f a with
      | some v => pure (some v)
      | none => f b : Run (Option Value)) := by
  funext m
  show Run.firstOf f [a, b] m = Run.andThen (f a) _ m
  rw [Run.firstOf, Run.andThen]
  cases f a m with
  | stop why m₁ => rfl
  | ok o m₁ =>
      cases o with
      | some v => rfl
      | none =>
          show Run.firstOf f [b] m₁ = f b m₁
          rw [Run.firstOf]
          cases f b m₁ with
          | stop why m₂ => rfl
          | ok o m₂ =>
              cases o with
              | some v => rfl
              | none => rfl

/-- One step behind another, unless that gives a value, is cut off where the two are. -/
theorem Run.Truncates.unlessReturned {p p' q q' : Run (Option Value)} (hp : p.Truncates p')
    (hq : q.Truncates q') :
    Truncates (do
      match ← p with
      | some v => pure (some v)
      | none => q) (do
      match ← p' with
      | some v => pure (some v)
      | none => q') :=
  hp.bind fun o => match o with
    | some _ => .refl _
    | none => hq

/-- A block with some frames left does what it does with any number of them, unless these are used up. -/
theorem execute_block_truncates (statements : List Node) :
    (execute config n (.block statements)).Truncates
      (Run.inBlock (Run.firstOf (execute config n) statements)) := by
  match n with
  | 0 => exact .exhausted _
  | 1 =>
      rw [execute_block]
      exact Truncates.bind (.refl _) fun outer => Truncates.bind (.refl _) fun i => .exhausted _
  | n + 2 =>
      have h := (truncating config (Nat.le_add_right n 2)).execute
      exact Truncates.inBlock (Truncates.firstOf h statements)

theorem execute_loop_truncates (e s : Node) :
    (execute config n (.loop e s)).Truncates
      (Run.whileTrue (Value.isTruthy <$> evaluate config n e) (execute config n s)
        config.rounds) := by
  match n with
  | 0 => exact .exhausted _
  | n + 1 =>
      have h := truncating config (Nat.le_succ n)
      rw [execute_loop]
      exact Truncates.whileTrue ((h.evaluate e).map _) (h.execute s) config.rounds

theorem execute_expression_truncates (e : Node) :
    (execute config n (.expression e)).Truncates (do
      let _ ← evaluate config n e
      pure none) := by
  match n with
  | 0 => exact .exhausted _
  | n + 1 =>
      rw [execute_expression]
      exact ((truncating config (Nat.le_succ n)).evaluate e).bind fun _ => .refl _

/-- A clause in front of a loop never returns. -/
theorem Node.IsInitializer.execute_eq_ok {s : Node} (hs : s.IsInitializer) {o : Option Value}
    {m m' : Machine} (h : execute config n s m = .ok o m') : o = none := by
  have any : ∀ {α : Type} (p : Run α),
      p.Meets (fun _ => True) (fun _ => True) fun _ => True := fun p m _ => by
    cases p m with
    | ok a m' => exact .ok trivial trivial
    | stop why m' => exact .stop trivial trivial
  have hmeets : (execute config n s).Meets (fun _ => True) (fun _ => True) (· = none) := by
    match n, hs with
    | 0, _ => exact Run.Meets.exhausted trivial
    | n + 1, .expression e =>
        rw [execute_expression]
        exact (any _).bind fun _ _ => Run.Meets.pure rfl
    | n + 1, .declare name e =>
        rw [execute_declare]
        exact (any _).bind fun _ _ => (any _).bind fun _ _ => (any _).bind fun _ _ =>
          Run.Meets.pure rfl
  exact (hmeets.ok trivial h).1

namespace ForClauses

variable (f : ForClauses)

/-- The body of the loop that the clauses stand for. -/
def loopBody : Node :=
  match f.increment with
  | some e => .block [f.body, .expression e]
  | none => f.body

/-- The loop that the clauses stand for, without the initializer. -/
def bareLoop : Node := .loop (f.condition.getD (.literal (.bool true))) f.loopBody

theorem round_of_none (hi : f.increment = none) : f.round config n = execute config n f.body := by
  funext m
  show Run.andThen (execute config n f.body) _ m = _
  rw [Run.andThen]
  cases execute config n f.body m with
  | stop why m₁ => rfl
  | ok o m₁ =>
      cases o with
      | some v => rfl
      | none =>
          show f.advance config n m₁ = _
          rw [advance, hi]
          rfl

/-- With an increment, body and increment are one block of the loop. -/
theorem loopBody_truncates :
    (execute config n f.loopBody).Truncates
      (Run.inBlockIf f.increment.isSome (f.round config n)) := by
  rw [loopBody]
  split
  · rename_i e hi
    rw [hi]
    refine (execute_block_truncates config n _).trans (Truncates.inBlock ?_)
    rw [Run.firstOf_pair]
    refine Truncates.unlessReturned (.refl _) ?_
    rw [advance, hi]
    exact execute_expression_truncates config n e
  · rename_i hi
    rw [hi]
    show (execute config n f.body).Truncates (f.round config n)
    rw [f.round_of_none config n hi]
    exact .refl _

/-- Three more frames are enough for that block and the parts in it. -/
theorem truncates_loopBody :
    (Run.inBlockIf f.increment.isSome (f.round config n)).Truncates
      (execute config (n + 3) f.loopBody) := by
  rw [loopBody]
  split
  · rename_i e hi
    rw [hi]
    show (Run.inBlock (f.round config n)).Truncates
      (Run.inBlock (Run.firstOf (execute config (n + 1)) [f.body, .expression e]))
    rw [Run.firstOf_pair]
    have hbody := (truncating config (Nat.le_succ n)).execute f.body
    refine Truncates.inBlock (Truncates.unlessReturned hbody ?_)
    rw [advance, hi]
    exact .refl _
  · rename_i hi
    rw [hi]
    show (f.round config n).Truncates (execute config (n + 3) f.body)
    rw [f.round_of_none config n hi]
    exact (truncating config (Nat.le_add_right n 3)).execute f.body

/-- An absent condition is the literal `true`, which takes a frame to evaluate. -/
theorem condition_truncates :
    Truncates (Value.isTruthy <$> evaluate config n (f.condition.getD (.literal (.bool true))))
      (f.holds config n) := by
  rw [holds]
  cases f.condition with
  | some e => exact .refl _
  | none =>
      match n with
      | 0 => exact fun _ hm => absurd rfl hm
      | n + 1 => exact .refl _

theorem truncates_condition :
    (f.holds config n).Truncates
      (Value.isTruthy <$> evaluate config (n + 1) (f.condition.getD (.literal (.bool true)))) := by
  rw [holds]
  cases f.condition with
  | some e => exact ((truncating config (Nat.le_succ n)).evaluate e).map _
  | none => exact .refl _

/-- The loop goes round as the clauses say, as far as its frames last. -/
theorem bareLoop_truncates :
    (execute config n f.bareLoop).Truncates (f.repeated config n f.increment.isSome) :=
  (execute_loop_truncates config n _ _).trans
    (Truncates.whileTrue (f.condition_truncates config n) (f.loopBody_truncates config n) _)

/-- The clauses go round as the loop does with four more frames. -/
theorem truncates_bareLoop :
    (f.repeated config n f.increment.isSome).Truncates (execute config (n + 4) f.bareLoop) := by
  have hc := (truncating config (Nat.le_add_right (n + 1) 2)).evaluate
  exact Truncates.whileTrue ((f.truncates_condition config n).trans ((hc _).map _))
    (f.truncates_loopBody config n) _

/-- The initializer in front of a step is the first of two statements. -/
theorem start_bind {s : Node} (hi : f.initializer = some s) (hs : s.IsInitializer)
    (p : Run (Option Value)) :
    (do f.start config n; p) = (do
      match ← execute config n s with
      | some v => pure (some v)
      | none => p) := by
  funext m
  show Run.andThen (f.start config n) (fun _ => p) m = Run.andThen (execute config n s) _ m
  rw [start, hi]
  show Run.andThen (Run.andThen (execute config n s) _) (fun _ => p) m = _
  rw [Run.andThen, Run.andThen, Run.andThen]
  cases h : execute config n s m with
  | stop why m₁ => rfl
  | ok o m₁ =>
      rw [hs.execute_eq_ok config n h]
      rfl

theorem loop_of_none (hi : f.initializer = none) : f.loop = f.bareLoop := by
  obtain ⟨initializer, condition, increment, body⟩ := f
  obtain rfl : initializer = none := hi
  rfl

/-- With an initializer, the loop is wrapped in a block. -/
theorem loop_of_some {s : Node} (hi : f.initializer = some s) :
    f.loop = .block [s, f.bareLoop] := by
  obtain ⟨initializer, condition, increment, body⟩ := f
  obtain rfl : initializer = some s := hi
  rfl

variable {f}

/-- Executing the loop is running the clauses, cut off where the frames are used up. -/
theorem Proper.loop_truncates (hf : f.Proper) :
    (execute config n f.loop).Truncates
      (Run.inBlockIf f.initializer.isSome (f.turns config n f.increment.isSome)) := by
  cases hi : f.initializer with
  | none =>
      rw [f.loop_of_none hi, turns, start, hi]
      exact f.bareLoop_truncates config n
  | some s =>
      rw [f.loop_of_some hi, turns, f.start_bind config n hi (hf.initializer s hi)]
      refine (execute_block_truncates config n _).trans (Truncates.inBlock ?_)
      rw [Run.firstOf_pair]
      exact Truncates.unlessReturned (.refl _) (f.bareLoop_truncates config n)

/-- With six more frames the loop runs as far as the clauses do. -/
theorem Proper.truncates_loop (hf : f.Proper) :
    (Run.inBlockIf f.initializer.isSome (f.turns config n f.increment.isSome)).Truncates
      (execute config (n + 6) f.loop) := by
  cases hi : f.initializer with
  | none =>
      rw [f.loop_of_none hi, turns, start, hi]
      exact (f.truncates_bareLoop config n).trans
        ((truncating config (Nat.le_add_right (n + 4) 2)).execute f.bareLoop)
  | some s =>
      rw [f.loop_of_some hi, turns, f.start_bind config n hi (hf.initializer s hi)]
      show (Run.inBlock _).Truncates
        (Run.inBlock (Run.firstOf (execute config (n + 4)) [s, f.bareLoop]))
      rw [Run.firstOf_pair]
      have hs := (truncating config (Nat.le_add_right n 4)).execute s
      exact Truncates.inBlock (Truncates.unlessReturned hs (f.truncates_bareLoop config n))

end ForClauses

end Frames

/-! ### Agreement -/

/-- Two ends of a statement that was executed on a machine agree, up to scopes that bind nothing.
They have the same outcome, output, trace and so on (`Result.Alike`), with the same bindings in
counterparts: every scope that was there is its own counterpart, a scope without one binds nothing,
and the current scope is again the one it was. -/
structure Result.Agrees (m : Machine) (c : Correspondence) (r r' : Result (Option Value)) :
    Prop where
  alike : r.Alike c True m.heap.size m.heap.size (ReturnsAlike c) r'
  old : ∀ i < m.heap.size, c.Pairs i i
  left : ∀ i s, r.machine.heap.get? i = some s → (∃ j, c.Pairs i j) ∨ s.bindings = []
  right : ∀ j s, r'.machine.heap.get? j = some s → (∃ i, c.Pairs i j) ∨ s.bindings = []
  current : r.machine.current = m.current
  current' : r'.machine.current = m.current

/-- On a well-formed machine, statements that stay alike agree. -/
theorem Run.StaysAlike.agrees {p p' : Run (Option Value)} {m : Machine}
    (h : StaysAlike m.heap.size True p p') (hp : p.Restores) (hp' : p'.Restores) (hm : m.WellFormed) :
    ∃ c, (p m).Agrees m c (p' m) := by
  -- at the start, every scope is its own counterpart
  have hclosed : m.Closed fun _ => True :=
    ⟨trivial, fun _ _ _ _ _ _ => trivial, fun _ _ _ _ _ _ _ _ => trivial, fun _ _ => trivial⟩
  have hcomplete : (Correspondence.onSet (fun _ => True) m.heap m.heap).Complete m.heap.size :=
    ⟨fun {i} _ => ⟨i, rfl, trivial⟩, fun {j} _ => ⟨j, rfl, trivial⟩, fun _ _ => ⟨rfl, trivial⟩,
      Nat.le_refl _, Nat.le_refl _⟩
  obtain ⟨c, hc, he, hr⟩ := h _ m m hcomplete (hm.alike hclosed (Heap.SameOn.refl _ m.heap))
  refine ⟨c, hr, fun i hi => he.pairs hi hi ⟨rfl, trivial⟩, fun i s hs => ?_, fun j s hs => ?_,
    (hp m).current, (hp' m).current⟩
  · by_cases hl : c.left i = i
    · exact .inl (hc.left hl)
    · exact .inr (hr.machine.heap.first.hollow i s hs hl).1
  · by_cases hl : c.right j = j
    · exact .inl (hc.right hl)
    · exact .inr (hr.machine.heap.second.hollow j s hs hl).1

theorem ForClauses.run_restores (config : Config) (n : Nat) (f : ForClauses) :
    (f.run config n).Restores :=
  (f.turns_restores config n false).inBlock

/-- The clauses run in the scopes of the loop agree with what they mean. -/
theorem ForClauses.Proper.agrees {f : ForClauses} (hf : f.Proper) {config : Config} (n : Nat)
    {m : Machine} (hh : config.host.IgnoresScopes m.heap.size) (hm : m.WellFormed) :
    ∃ c, (Run.inBlockIf f.initializer.isSome (f.turns config n f.increment.isSome) m).Agrees m c
      (f.run config n m) :=
  (hf.staysAlike n hh f.increment.isSome).agrees
    ((f.turns_restores config n _).inBlockIf _) (f.run_restores config n) hm

/-- If one of two ends that agree has run out of frames, so has the other. -/
theorem Result.Agrees.isExhausted {m : Machine} {c : Correspondence} {r r' : Result (Option Value)}
    (h : r.Agrees m c r') (hr : r.IsExhausted) : r'.IsExhausted := by
  cases h.alike with
  | ok => cases hr
  | stop => exact hr

/-- **The loop that a `for` statement is read as does what the statement means.**  Whatever the
parser makes of the tokens behind a `for`, at any depth, its clauses were read on the way.  From
every well-formed machine, as every machine that a session reaches is, executing the loop agrees with
running the clauses, unless the frames are used up; and where running the clauses does not use them
up, executing the loop with six more agrees with it.  The natives are asked not to look into scopes, as
these differ by some that bind nothing. -/
theorem forStatement_agrees {inFunction : Bool} {depth : Nat} {s s' : Parser.State} {loop : Node}
    (h : Parser.forStatement (Parser.assignment depth) (Parser.statement inFunction depth) s =
      .done loop s') :
    ∃ f : ForClauses,
      Parser.forClauses (Parser.assignment depth) (Parser.statement inFunction depth) s =
        .done f s' ∧
      ∀ config n m, Machine.WellFormed m → Host.IgnoresScopes config.host m.heap.size →
        (¬ (execute config n loop m).IsExhausted →
          ∃ c, (execute config n loop m).Agrees m c (f.run config n m)) ∧
        (¬ (f.run config n m).IsExhausted →
          ∃ c, (execute config (n + 6) loop m).Agrees m c (f.run config n m)) := by
  rw [Parser.forStatement_eq] at h
  obtain ⟨f, s₁, hread, hpure⟩ := Parser.bind_eq_done h
  cases hpure
  have hf : f.Proper := Parser.forClauses_yields _ (Parser.statement_yields _ _) s f _ hread
  refine ⟨f, hread, fun config n m hm hh => ?_⟩
  obtain ⟨c, hc⟩ := hf.agrees n hh hm
  constructor
  · intro hne
    rw [hf.loop_truncates config n m hne]
    exact ⟨c, hc⟩
  · intro hne
    rw [← hf.truncates_loop config n m fun hex => hne (hc.isExhausted hex)]
    exact ⟨c, hc⟩

/-- `(var go = true; go; go = false) print go;` prints once and then comes to its end. -/
theorem forStatement_agrees_once :
    let token kind text := Token.ofText kind text .null 1
    let go := token .identifier "go"
    let tokens := [token .leftParen "(", token .varWord "var", go, token .equal "=",
      token .trueWord "true", token .semicolon ";", go, token .semicolon ";", go,
      token .equal "=", token .falseWord "false", token .rightParen ")",
      token .printWord "print", go, token .semicolon ";", token .eof ""]
    let f : ForClauses := ⟨some (.declare go (.literal (.bool true))), some (.reference go),
      some (.assign go (.literal (.bool false))), .print (.reference go)⟩
    let host := Host.ofClock fun _ => ⟨0⟩
    let config : Config := { maxDepth := 1, level := 0, host := host, rounds := 2 }
    let m := Session.freshMachine
    let r := execute config 9 f.loop m
    Parser.forStatement (Parser.assignment 5) (Parser.statement false 5) ⟨tokens, 0, []⟩ =
        .done f.loop ⟨[token .eof ""], 15, []⟩ ∧
      m.WellFormed ∧ host.IgnoresScopes m.heap.size ∧ ¬ r.IsExhausted ∧ r.machine.output = #[("true" : Text)] ∧
      ∃ c, r.Agrees m c (f.run config 9 m) := by
  intro token go tokens f host config m r
  have h : Parser.forStatement (Parser.assignment 5) (Parser.statement false 5) ⟨tokens, 0, []⟩ =
      .done f.loop ⟨[token .eof ""], 15, []⟩ := by cbv
  have hf : Parser.forClauses (Parser.assignment 5) (Parser.statement false 5) ⟨tokens, 0, []⟩ =
      .done f ⟨[token .eof ""], 15, []⟩ := by cbv
  have hm : m.WellFormed := (Session.freshMachine_sound (B := fun _ => True)).wellFormed
  have hh := Host.ofClock_ignoresScopes (fun _ => ⟨0⟩) m.heap.size
  have hr : ¬ r.IsExhausted := by decide +kernel
  have hout : r.machine.output = #[("true" : Text)] := by decide +kernel
  obtain ⟨f', hf', hagrees⟩ := forStatement_agrees h
  rw [hf] at hf'
  cases hf'
  exact ⟨h, hm, hh, hr, hout, (hagrees config 9 m hm hh).1 hr⟩

end Lox
