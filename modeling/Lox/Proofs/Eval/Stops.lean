import Lox.Proofs.Eval.Restores
import Lox.Proofs.Value

/-!
# Where a run stops

A step that stops does so in one of its parts.  So a task that stops has started another one that stops in
the same way, and in the end one that stops by itself.

Two ways to stop come from calls only: an overflow is found at a call that is refused, and a call is left
counted only when it cannot be told.  What these have in common is said of a relation `P` between the number
of open calls at the start of a task, the reason to stop and the number of open calls then
(`Stop.FromCalls`).

* `Moment.Ends config P b`: the task of `b` stops in a way that is in `P`.
* `Moment.Ends.origin`: then it is a call that is refused, or it has started a call that cannot be told or
  another task that stops in a way that is in `P`.
* `During.source`: so a run that comes to such a task comes to a call that is refused or cannot be told.
-/

namespace Lox

variable {α β : Type}

/-! ### Parts of a step -/

namespace Run

variable {why : Stop} {m m' : Machine}

/-- A sequence stops in its first step or in its second. -/
theorem bind_eq_stop {p : Run α} {f : α → Run β} (h : (p >>= f) m = .stop why m') :
    p m = .stop why m' ∨ ∃ a m₁, p m = .ok a m₁ ∧ f a m₁ = .stop why m' := by
  cases hp : p m with
  | ok a m₁ =>
      rw [bind_of_ok hp] at h
      exact .inr ⟨a, m₁, rfl, h⟩
  | stop why₁ m₁ =>
      rw [bind_of_stop hp] at h
      cases h
      exact .inl rfl

/-- What is done with a value does not stop a step. -/
theorem map_eq_stop_iff {p : Run α} {f : α → β} :
    (f <$> p) m = .stop why m' ↔ p m = .stop why m' := by
  constructor
  · intro h
    obtain h | ⟨a, m₁, -, h⟩ := bind_eq_stop (f := fun a => pure (f a)) h
    · exact h
    · cases h
  · exact fun h => bind_of_stop (f := fun a => pure (f a)) h

theorem map_eq_ok {p : Run α} {f : α → β} {b : β} (h : (f <$> p) m = .ok b m') :
    ∃ a, p m = .ok a m' ∧ f a = b := by
  change Run.andThen p (fun a => pure (f a)) m = .ok b m' at h
  rw [Run.andThen] at h
  split at h
  · rename_i a m₁ hp
    cases h
    exact ⟨a, hp, rfl⟩
  · cases h

theorem inScope_eq_stop {id : Nat} {p : Run α} (h : inScope id p m = .stop why m') :
    ∃ m₁, p { m with current := id } = .stop why m₁ ∧ m'.depth = m₁.depth := by
  rw [inScope] at h
  generalize p { m with current := id } = r at h
  cases r with
  | ok => cases h
  | stop why₁ m₁ =>
      cases h
      exact ⟨m₁, rfl, rfl⟩

/-- A call that stops inside is left all the same. -/
theorem leaving_eq_stop {p : Run α} (h : leaving p m = .stop why m') :
    ∃ m₁, p m = .stop why m₁ ∧ m'.depth = m₁.depth - 1 := by
  rw [leaving] at h
  generalize p m = r at h
  cases r with
  | ok => cases h
  | stop why₁ m₁ =>
      cases h
      exact ⟨m₁, rfl, rfl⟩

/-- The items in front have given their values, and one stops. -/
theorem collect_eq_stop {f : β → Run α} {bs : List β} (h : collect f bs m = .stop why m') :
    ∃ before b behind as m₁, bs = before ++ b :: behind ∧ collect f before m = .ok as m₁ ∧
      f b m₁ = .stop why m' := by
  induction bs generalizing m with
  | nil => cases h
  | cons b bs ih =>
      obtain h | ⟨a, m₁, h₁, h⟩ := bind_eq_stop h
      · exact ⟨[], b, bs, [], m, rfl, rfl, h⟩
      · obtain h | ⟨as, m₂, -, h⟩ := bind_eq_stop h
        · obtain ⟨before, b', behind, as, m₂, rfl, h₂, h⟩ := ih h
          refine ⟨b :: before, b', behind, a :: as, m₂, rfl, ?_, h⟩
          exact (bind_of_ok h₁).trans (bind_of_ok h₂)
        · cases h

/-- The items in front have given no value, and one stops. -/
theorem firstOf_eq_stop {f : β → Run (Option α)} {bs : List β} (h : firstOf f bs m = .stop why m') :
    ∃ before b behind m₁, bs = before ++ b :: behind ∧ firstOf f before m = .ok none m₁ ∧
      f b m₁ = .stop why m' := by
  induction bs generalizing m with
  | nil => cases h
  | cons b bs ih =>
      rw [firstOf] at h
      cases hb : f b m with
      | stop why₁ m₁ =>
          rw [hb] at h
          exact ⟨[], b, bs, m, rfl, rfl, hb.trans h⟩
      | ok o m₁ =>
          rw [hb] at h
          cases o with
          | some a => cases h
          | none =>
              obtain ⟨before, b', behind, m₂, rfl, h₂, h⟩ := ih h
              refine ⟨b :: before, b', behind, m₂, rfl, ?_, h⟩
              rw [firstOf, hb]
              exact h₂

/-- A loop stops behind some whole rounds: in its condition, in its body, or because no more rounds may be
made. -/
theorem whileTrue_eq_stop {condition : Run Bool} {body : Run (Option α)} {rounds : Nat}
    {start : Machine} (hr : Rounds condition body start m)
    (h : whileTrue condition body rounds m = .stop why m') :
    ∃ m₁, Rounds condition body start m₁ ∧ (why = .fault .unfinished ∧ m' = m₁ ∨
      condition m₁ = .stop why m' ∨ ∃ m₂, condition m₁ = .ok true m₂ ∧ body m₂ = .stop why m') := by
  induction rounds generalizing m with
  | zero =>
      cases h
      exact ⟨_, hr, .inl ⟨rfl, rfl⟩⟩
  | succ rounds ih =>
      rw [whileTrue] at h
      cases hc : condition m with
      | stop why₁ m₁ =>
          rw [hc] at h
          cases h
          exact ⟨m, hr, .inr (.inl hc)⟩
      | ok go m₁ =>
          rw [hc] at h
          cases go with
          | false => cases h
          | true =>
              dsimp only at h
              cases hb : body m₁ with
              | stop why₂ m₂ =>
                  rw [hb] at h
                  cases h
                  exact ⟨m, hr, .inr (.inr ⟨m₁, hc, hb⟩)⟩
              | ok o m₂ =>
                  rw [hb] at h
                  cases o with
                  | some a => cases h
                  | none => exact ih (hr.round hc hb) h

theorem namesOf_eq_ok {names : List Json} {found : List Name} (h : namesOf names m = .ok found m') :
    Name.ofJsonAll? names = some found ∧ m' = m := by
  rw [namesOf] at h
  split at h
  · rename_i hfound
    cases h
    exact ⟨hfound, rfl⟩
  · cases h

end Run

/-! ### Steps that make no call -/

/-- A step ends with as many calls open as before, and not with an overflow. -/
inductive Result.Uncalled (depth : Nat) : Result α → Prop where
  | ok {a : α} {m : Machine} (hd : m.depth = depth) : Uncalled depth (.ok a m)
  | stop {why : Stop} {m : Machine} (hw : ∀ place, why ≠ .fault (.overflow place))
      (hd : m.depth = depth) : Uncalled depth (.stop why m)

/-- The step makes no call. -/
def Run.Uncalled (p : Run α) : Prop := ∀ m, (p m).Uncalled m.depth

namespace Run.Uncalled

theorem bind {p : Run α} {f : α → Run β} (hp : p.Uncalled) (hf : ∀ a, (f a).Uncalled) :
    (p >>= f).Uncalled := by
  intro m
  show (andThen p f m).Uncalled m.depth
  rw [andThen]
  have h := hp m
  generalize p m = r at h ⊢
  cases h with
  | stop hw hd => exact .stop hw hd
  | @ok a m' hd =>
      rw [← hd]
      exact hf a m'

theorem pure (a : α) : Uncalled (pure a : Run α) := fun _ => .ok rfl

theorem fault {f : Fault} (hf : ∀ place, f ≠ .overflow place) : Uncalled (fault f : Run α) :=
  fun _ => .stop (fun place h => hf place (Stop.fault.inj h)) rfl

theorem malformed : Uncalled (Run.fault .malformed : Run α) := fault fun _ h => by cases h

theorem exhausted : Uncalled (exhausted : Run α) := fun _ => .stop (fun _ h => by cases h) rfl

theorem tell (config : Config) (event : Event) : Uncalled (tell config event) := by
  intro m
  obtain ⟨trace, h⟩ | h := tell_cases config event m
  · exact h ▸ .ok rfl
  · exact h ▸ .stop (fun _ h => by cases h) rfl

theorem lookup (t : Token) : Uncalled (lookup t) := by
  intro m
  rw [Run.lookup]
  split
  · exact .stop (fun _ h => by cases h) rfl
  · split
    · exact .ok rfl
    · exact .stop (fun _ h => by cases h) rfl

theorem assign (t : Token) (v : Value) : Uncalled (assign t v) := by
  intro m
  rw [Run.assign]
  split
  · exact .stop (fun _ h => by cases h) rfl
  · split
    · exact .ok rfl
    · exact .stop (fun _ h => by cases h) rfl

theorem define (t : Token) (v : Value) : Uncalled (define t v) := by
  intro m
  rw [Run.define]
  split
  · exact .stop (fun _ h => by cases h) rfl
  · exact .ok rfl

/-- To bind a name and tell it is no call. -/
theorem declaration (config : Config) (name : Token) (v : Value) (event : Event) :
    Uncalled (do
      Run.define name v
      Run.tell config event
      Pure.pure (none : Option Value)) :=
  (define name v).bind fun _ => (tell config event).bind fun _ => pure none

theorem namesOf (names : List Json) : Uncalled (namesOf names) := by
  intro m
  rw [Run.namesOf]
  split
  · exact .ok rfl
  · exact .stop (fun _ h => by cases h) rfl

theorem ofExcept {r : Except Fault α} (hr : ∀ place, r ≠ .error (.overflow place)) :
    Uncalled (ofExcept r) := by
  cases r with
  | ok a => exact pure a
  | error f => exact fault fun place hf => hr place (congrArg _ hf)

/-- Operators fail in ways of their own. -/
theorem unary (o : Token) (v : Value) : Uncalled (Run.ofExcept (applyUnary o v)) := by
  refine ofExcept fun place h => ?_
  obtain ⟨cause, hf⟩ := applyUnary_misuse h
  cases hf

theorem binary (o : Token) (a b : Value) : Uncalled (Run.ofExcept (applyBinary o a b)) := by
  refine ofExcept fun place h => ?_
  obtain ⟨cause, hf⟩ := applyBinary_misuse h
  cases hf

/-- What a native does is no call of the program, even where it fails. -/
theorem callHost (config : Config) (function : HostFunction) (vs : List Value) :
    Uncalled (callHost config function vs) := by
  intro m
  rw [Run.callHost]
  split
  · exact .ok rfl
  · exact .stop (fun _ h => by cases h) rfl
  · exact .stop (fun _ h => by cases h) rfl

end Run.Uncalled

/-! ### Ends of tasks -/

/-- What is done once a call is entered. -/
def callBody (config : Config) (n : Nat) (f : Value) (vs : List Value) : Run Value := do
  let depth ← Run.openCalls
  announceCall config n f depth
  callInside config n f vs

/-- How the task of a moment ends, and the values it gives then. -/
def Moment.result (config : Config) (b : Moment) : Result (List Value) :=
  match b.task with
  | .evaluate e => ((fun v => [v]) <$> evaluate config b.frames e) b.machine
  | .arguments es => evaluateAll config b.frames es b.machine
  | .invoke f vs paren => ((fun v => [v]) <$> invoke config b.frames f vs paren) b.machine
  | .body f vs => ((fun v => [v]) <$> callBody config b.frames f vs) b.machine
  | .block id statements => (Option.toList <$> block config b.frames id statements) b.machine
  | .execute s => (Option.toList <$> execute config b.frames s) b.machine

/-- A call is refused, because as many calls are open as may be. -/
inductive Moment.Refused (config : Config) (paren : Token) : Moment → Prop where
  | invoke {n : Nat} {f : Value} {vs : List Value} {m : Machine}
      (h : checkCall config f vs.length m.depth paren = .error (.overflow (some paren))) :
      Refused config paren ⟨n + 2, .invoke f vs paren, m⟩

/-- A call that is counted cannot be told. -/
inductive Moment.Untold (config : Config) : Moment → Prop where
  | body {n : Nat} {f : Value} {vs : List Value} {why : Stop} {m m' : Machine}
      (h : announceCall config n f m.depth m = .stop why m') : Untold config ⟨n, .body f vs, m⟩

/-- A way to stop that comes from calls only: with as many calls open as before there is only the overflow,
and it is the same inside a call. -/
structure Stop.FromCalls (P : Nat → Stop → Nat → Prop) : Prop where
  own : ∀ {depth why}, (∀ place, why ≠ .fault (.overflow place)) → ¬ P depth why depth
  inside : ∀ {depth why depth'}, P depth why depth' → P (depth + 1) why (depth' + 1)

/-- The task stops in a way that is in `P`. -/
def Moment.Ends (config : Config) (P : Nat → Stop → Nat → Prop) (b : Moment) : Prop :=
  ∃ why m, b.result config = .stop why m ∧ P b.machine.depth why m.depth

/-- A call overflows at its closing parenthesis, because as many calls are open as may be. -/
theorem checkCall_eq_overflow {config : Config} {f : Value} {given depth : Nat} {paren : Token}
    {place : Option Token} (h : checkCall config f given depth paren = .error (.overflow place)) :
    place = some paren ∧ config.maxDepth ≤ depth := by
  rw [checkCall] at h
  split at h
  · cases h
  · split at h
    · cases h
    · split at h
      · rename_i hfull
        cases h
        exact ⟨rfl, hfull⟩
      · cases h

/-- A task that another starts has less left to do: fewer frames, or the inside of a call is behind it. -/
theorem Enters.lt {config : Config} {a b : Moment} (h : Enters config a b) :
    2 * b.frames + b.task.calls < 2 * a.frames + a.task.calls := by
  cases h <;> simp only [Task.calls] <;> omega

section Ends

open Run (Restores Uncalled bind_eq_stop map_eq_stop_iff)

variable {config : Config} {P : Nat → Stop → Nat → Prop} {n : Nat} {m m₁ m' : Machine} {why : Stop}

/-- What makes no call does not stop in such a way. -/
theorem Run.Uncalled.not_ends {p : Run α} (hp : p.Uncalled) (hP : Stop.FromCalls P)
    (h : p m₁ = .stop why m') (hd : m₁.depth = m.depth) : ¬ P m.depth why m'.depth := by
  have hr := hp m₁
  rw [h] at hr
  cases hr with
  | stop hw hd' =>
      rw [hd', hd]
      exact hP.own hw

/-- A task that another one starts at the same depth, and that stops in the same way. -/
theorem Enters.ends {a b : Moment} (he : Enters config a b) (hb : b.task.calls = 0)
    (h : b.result config = .stop why m') (hend : P a.machine.depth why m'.depth) :
    ∃ b, Enters config a b ∧ b.Ends config P := by
  refine ⟨b, he, why, m', h, ?_⟩
  rw [he.depth, hb]
  exact hend

/-- An expression that stops in such a way has a part that does. -/
theorem evaluate_ends (hP : Stop.FromCalls P) {e : Node} (h : evaluate config n e m = .stop why m')
    (hend : P m.depth why m'.depth) :
    ∃ b, Enters config ⟨n, .evaluate e, m⟩ b ∧ b.Ends config P := by
  cases n with
  | zero => exact absurd hend (Uncalled.exhausted.not_ends hP h rfl)
  | succ n =>
      have hr := restoring config n
      cases e with
      | literal v => cases h
      | grouping e => exact Enters.grouping.ends rfl (map_eq_stop_iff.mpr h) hend
      | reference name => exact absurd hend ((Uncalled.lookup name).not_ends hP h rfl)
      | assign name e =>
          rw [evaluate_assign] at h
          obtain h | ⟨v, m₁, h₁, h⟩ := bind_eq_stop h
          · exact Enters.assign.ends rfl (map_eq_stop_iff.mpr h) hend
          · -- the assignment itself makes no call, so a stop there is its own
            refine absurd hend (Uncalled.not_ends ?_ hP h ((hr.evaluate e).ok h₁).2)
            exact (Uncalled.assign name v).bind fun _ => .pure v
      | logical l o r =>
          rw [evaluate_logical] at h
          obtain h | ⟨v, m₁, h₁, h⟩ := bind_eq_stop h
          · exact Enters.logicalLeft.ends rfl (map_eq_stop_iff.mpr h) hend
          · split at h
            · cases h
            · rename_i hv
              exact (Enters.logicalRight h₁ (by simpa using hv)).ends rfl (map_eq_stop_iff.mpr h) hend
      | unary o e =>
          rw [evaluate_unary] at h
          obtain h | ⟨v, m₁, h₁, h⟩ := bind_eq_stop h
          · exact Enters.unary.ends rfl (map_eq_stop_iff.mpr h) hend
          · exact absurd hend ((Uncalled.unary o v).not_ends hP h ((hr.evaluate e).ok h₁).2)
      | binary l o r =>
          rw [evaluate_binary] at h
          obtain h | ⟨a, m₁, h₁, h⟩ := bind_eq_stop h
          · exact Enters.binaryLeft.ends rfl (map_eq_stop_iff.mpr h) hend
          · obtain h | ⟨b, m₂, h₂, h⟩ := bind_eq_stop h
            · exact (Enters.binaryRight h₁).ends rfl (map_eq_stop_iff.mpr h) hend
            · -- as many calls are open at the operator as at the start
              have hd := ((hr.evaluate r).ok h₂).2.trans ((hr.evaluate l).ok h₁).2
              exact absurd hend ((Uncalled.binary o a b).not_ends hP h hd)
      | call e paren es =>
          rw [evaluate_call] at h
          obtain h | ⟨f, m₁, h₁, h⟩ := bind_eq_stop h
          · exact Enters.callee.ends rfl (map_eq_stop_iff.mpr h) hend
          · obtain h | ⟨vs, m₂, h₂, h⟩ := bind_eq_stop h
            · exact (Enters.arguments h₁).ends rfl h hend
            · exact (Enters.invoke h₁ h₂).ends rfl (map_eq_stop_iff.mpr h) hend
      | _ => exact absurd hend (Uncalled.malformed.not_ends hP h rfl)

theorem arguments_ends (hP : Stop.FromCalls P) {es : List Node}
    (h : evaluateAll config n es m = .stop why m') (hend : P m.depth why m'.depth) :
    ∃ b, Enters config ⟨n, .arguments es, m⟩ b ∧ b.Ends config P := by
  cases n with
  | zero => exact absurd hend (Uncalled.exhausted.not_ends hP h rfl)
  | succ n =>
      obtain ⟨before, e, behind, vs, m₁, rfl, hbefore, h⟩ := Run.collect_eq_stop h
      exact (Enters.argument hbefore).ends rfl (map_eq_stop_iff.mpr h) hend

/-- A call is refused, or it cannot be told, or its inside ends in such a way. -/
theorem invoke_ends (hP : Stop.FromCalls P) {f : Value} {vs : List Value} {paren : Token}
    (h : invoke config n f vs paren m = .stop why m') (hend : P m.depth why m'.depth) :
    (Moment.Refused config paren ⟨n, .invoke f vs paren, m⟩ ∧
        P m.depth (.fault (.overflow (some paren))) m.depth) ∨
      ∃ b, Enters config ⟨n, .invoke f vs paren, m⟩ b ∧ ((b.Untold config ∧
        why.EndsTelling ∧ P m.depth why (m.depth + 1)) ∨ b.Ends config P) := by
  match n with
  | 0 | 1 => exact absurd hend (Uncalled.exhausted.not_ends hP h rfl)
  | n + 2 =>
      rw [invoke_add_two] at h
      obtain h | ⟨depth, _, hdepth, h⟩ := bind_eq_stop h
      · cases h
      · cases hdepth
        cases hcheck : checkCall config f vs.length m.depth paren with
        | error fault =>
            rw [hcheck] at h
            change Run.fault fault m = _ at h
            by_cases hf : ∃ place, fault = .overflow place
            · obtain ⟨place, rfl⟩ := hf
              obtain ⟨rfl, -⟩ := checkCall_eq_overflow hcheck
              cases h
              exact .inl ⟨.invoke hcheck, hend⟩
            · have hp : Uncalled (Run.fault fault : Run Value) :=
                .fault fun place hplace => hf ⟨place, hplace⟩
              exact absurd hend (hp.not_ends hP h rfl)
        | ok =>
            rw [hcheck] at h
            have hr := counted_restores (restoring config n) f vs paren (m.depth + 1)
            obtain h | ⟨v, m₂, hv, h⟩ := bind_eq_stop (p := Run.counted paren _ _) h
            · refine .inr ⟨_, .body hcheck, ?_⟩
              -- the announcement starts on the machine on which the body does
              obtain h | ⟨_, m₁, ht, h⟩ := bind_eq_stop (p := announceCall config n f (m.depth + 1)) h
              · obtain ⟨hw, rfl⟩ := announceCall_stop h
                exact .inl ⟨.body h, hw, hend⟩
              · obtain ⟨m₂, h, hd⟩ := Run.leaving_eq_stop h
                refine .inr ⟨why, m₂, map_eq_stop_iff.mpr ((Run.bind_of_ok ht).trans h), ?_⟩
                have hpos : m'.depth + 1 = m₂.depth := by
                  have h₁ := ((announceCall_restores f (m.depth + 1)).ok ht).2
                  have h₂ := callInside_restores (restoring config n) f vs m₁
                  rw [h, h₁] at h₂
                  cases h₂ with
                  | stop _ hd' | untold _ _ hd' =>
                      dsimp only at hd'
                      omega
                rw [← hpos]
                exact hP.inside hend
            · have hp : Uncalled (do
                  Run.tell config (.returned v f)
                  pure v) := (Uncalled.tell config _).bind fun _ => .pure v
              exact absurd hend (hp.not_ends hP h (hr.ok hv).2)

/-- What is done inside a call, once it is told, stops so only in its block. -/
theorem body_ends (hP : Stop.FromCalls P) {f : Value} {vs : List Value}
    (h : callBody config n f vs m = .stop why m') (hend : P m.depth why m'.depth) :
    ∃ b, Enters config ⟨n, .body f vs, m⟩ b ∧ b.Ends config P := by
  obtain h | ⟨_, m₁, ht, h⟩ := bind_eq_stop (p := announceCall config n f m.depth) h
  · obtain ⟨hw, rfl⟩ := announceCall_stop h
    exact absurd hend (hP.own hw.not_overflow)
  · have hd := ((announceCall_restores f m.depth).ok ht).2
    cases f with
    | function name params body closure =>
        obtain h | ⟨names, m₂, hn, hrest⟩ := bind_eq_stop h
        · exact absurd hend ((Uncalled.namesOf params).not_ends hP h hd)
        · obtain ⟨hnames, rfl⟩ := Run.namesOf_eq_ok hn
          obtain h | ⟨id, m₃, hs, hblock⟩ := bind_eq_stop hrest
          · cases h
          · obtain ⟨hf, ht⟩ := announceCall_eq_ok_iff.mp ht
            obtain h | ⟨returned, m₄, -, h⟩ := bind_eq_stop hblock
            · exact (Enters.function hf ht hnames hs).ends rfl (map_eq_stop_iff.mpr h) hend
            · cases h
    | native name arity function =>
        exact absurd hend ((Uncalled.callHost config function vs).not_ends hP h hd)
    | _ => exact absurd hend (Uncalled.malformed.not_ends hP h hd)

/-- A block stops so only in one of its statements. -/
theorem block_ends (hP : Stop.FromCalls P) {id : Nat} {ss : List Node}
    (h : block config n id ss m = .stop why m') (hend : P m.depth why m'.depth) :
    ∃ b, Enters config ⟨n, .block id ss, m⟩ b ∧ b.Ends config P := by
  cases n with
  | zero => exact absurd hend (Uncalled.exhausted.not_ends hP h rfl)
  | succ n =>
      obtain ⟨m₁, h, hd⟩ := Run.inScope_eq_stop h
      obtain ⟨before, s, behind, m₂, rfl, hbefore, h⟩ := Run.firstOf_eq_stop h
      exact (Enters.statement hbefore).ends rfl (map_eq_stop_iff.mpr h) (hd ▸ hend)

/-- A part that may be absent stops, so it is there. -/
theorem initialValue_stops {e : Node} (h : initialValue config n e m = .stop why m') :
    e ≠ .null ∧ Moment.result config ⟨n, .evaluate e, m⟩ = .stop why m' := by
  have hne : e ≠ .null := by
    rintro rfl
    cases h
  rw [initialValue_of_ne config n hne] at h
  exact ⟨hne, map_eq_stop_iff.mpr h⟩

/-- A statement that stops in such a way has a part that does. -/
theorem execute_ends (hP : Stop.FromCalls P) {s : Node} (h : execute config n s m = .stop why m')
    (hend : P m.depth why m'.depth) :
    ∃ b, Enters config ⟨n, .execute s, m⟩ b ∧ b.Ends config P := by
  cases n with
  | zero => exact absurd hend (Uncalled.exhausted.not_ends hP h rfl)
  | succ n =>
      have hr := restoring config n
      cases s with
      | expression e =>
          rw [execute_expression] at h
          obtain h | ⟨_, _, -, h⟩ := bind_eq_stop h
          · exact Enters.expression.ends rfl (map_eq_stop_iff.mpr h) hend
          · cases h
      | print e =>
          rw [execute_print] at h
          obtain h | ⟨_, _, -, h⟩ := bind_eq_stop h
          · exact Enters.print.ends rfl (map_eq_stop_iff.mpr h) hend
          · cases h
      | declare name e =>
          rw [execute_declare] at h
          obtain h | ⟨v, _, h₁, h⟩ := bind_eq_stop h
          · -- only an initializer that is there can stop
            obtain ⟨hne, h⟩ := initialValue_stops h
            exact (Enters.declare hne).ends rfl h hend
          · have hd := ((initialValue_restores hr e).ok h₁).2
            exact absurd hend ((Uncalled.declaration config name v _).not_ends hP h hd)
      | block ss =>
          rw [execute_block] at h
          obtain h | ⟨outer, _, ho, h⟩ := bind_eq_stop h
          · cases h
          · cases ho
            obtain h | ⟨id, m₁, hs, h⟩ := bind_eq_stop h
            · cases h
            · exact (Enters.block hs).ends rfl (map_eq_stop_iff.mpr h) hend
      | branch c s s' =>
          rw [execute_branch] at h
          obtain h | ⟨v, m₁, hc, h⟩ := bind_eq_stop h
          · exact Enters.condition.ends rfl (map_eq_stop_iff.mpr h) hend
          · obtain h | ⟨_, m₂, ht, h⟩ := bind_eq_stop h
            · exact absurd hend ((Uncalled.tell config _).not_ends hP h ((hr.evaluate c).ok hc).2)
            · split at h
              · rename_i hv
                exact (Enters.thenBranch hc hv ht).ends rfl (map_eq_stop_iff.mpr h) hend
              · rename_i hv
                -- a branch that is missing does not stop
                have hne : s' ≠ .null := by
                  rintro rfl
                  cases h
                rw [executeOptional_of_ne config n hne] at h
                exact (Enters.elseBranch hc (by simpa using hv) ht hne).ends rfl
                  (map_eq_stop_iff.mpr h) hend
      | loop c s =>
          rw [execute_loop] at h
          obtain ⟨m₁, hrounds, h⟩ := Run.whileTrue_eq_stop (.none m) h
          obtain ⟨rfl, rfl⟩ | h | ⟨m₂, hc, h⟩ := h
          · -- no more rounds: whole rounds leave no call open
            rw [(hrounds.restores (hr.evaluate c).map (hr.execute s)).2] at hend
            exact absurd hend (hP.own nofun)
          · exact (Enters.loopCondition hrounds).ends rfl (map_eq_stop_iff.mpr (map_eq_stop_iff.mp h)) hend
          · obtain ⟨v, hv, ht⟩ := Run.map_eq_ok hc
            exact (Enters.loopBody hrounds hv ht).ends rfl (map_eq_stop_iff.mpr h) hend
      | function name params body =>
          rw [execute_function] at h
          obtain h | ⟨closure, _, hc, h⟩ := bind_eq_stop h
          · cases h
          · cases hc
            exact absurd hend ((Uncalled.declaration config name _ _).not_ends hP h rfl)
      | returns keyword e =>
          rw [execute_returns] at h
          obtain ⟨hne, h⟩ := initialValue_stops (map_eq_stop_iff.mp h)
          exact (Enters.returns hne).ends rfl h hend
      | _ => exact absurd hend (Uncalled.malformed.not_ends hP h rfl)

/-- **Where a task stops.**  A task that stops in a way that comes from calls only is a call that is refused,
or it has started a call that cannot be told or another task that stops in such a way. -/
theorem Moment.Ends.origin (hP : Stop.FromCalls P) {a : Moment} (h : a.Ends config P) :
    (∃ paren, a.Refused config paren ∧
        P a.machine.depth (.fault (.overflow (some paren))) a.machine.depth) ∨
      ∃ b, Enters config a b ∧ ((b.Untold config ∧ ∃ why, why.EndsTelling ∧
        P a.machine.depth why (a.machine.depth + 1)) ∨ b.Ends config P) := by
  obtain ⟨n, task, m⟩ := a
  obtain ⟨why, m', h, hend⟩ := h
  have inner : (∃ b, Enters config ⟨n, task, m⟩ b ∧ b.Ends config P) → ∃ b,
      Enters config ⟨n, task, m⟩ b ∧ ((b.Untold config ∧ ∃ why, why.EndsTelling ∧
        P m.depth why (m.depth + 1)) ∨ b.Ends config P) :=
    fun ⟨b, he, hb⟩ => ⟨b, he, .inr hb⟩
  cases task with
  | evaluate e => exact .inr (inner (evaluate_ends hP (map_eq_stop_iff.mp h) hend))
  | arguments es => exact .inr (inner (arguments_ends hP h hend))
  | invoke f vs paren =>
      obtain h | ⟨b, he, ⟨hb, hw, hend⟩ | hb⟩ := invoke_ends hP (map_eq_stop_iff.mp h) hend
      · exact .inl ⟨paren, h⟩
      · exact .inr ⟨b, he, .inl ⟨hb, why, hw, hend⟩⟩
      · exact .inr (inner ⟨b, he, hb⟩)
  | body f vs => exact .inr (inner (body_ends hP (map_eq_stop_iff.mp h) hend))
  | block id ss => exact .inr (inner (block_ends hP (map_eq_stop_iff.mp h) hend))
  | execute s => exact .inr (inner (execute_ends hP (map_eq_stop_iff.mp h) hend))

variable {frames : Nat} {statements : List Node}

/-- **From a moment that ends in such a way, a run comes to a call that is refused or cannot be told.** -/
theorem During.source (hP : Stop.FromCalls P) {calls : Nat} {a : Moment}
    (ha : During config frames statements m calls a) (h : a.Ends config P) :
    (∃ paren calls' b, During config frames statements m calls' b ∧ b.Refused config paren ∧
        ∃ depth, P depth (.fault (.overflow (some paren))) depth) ∨
      ∃ calls' b, During config frames statements m calls' b ∧ b.Untold config ∧
        ∃ depth why, why.EndsTelling ∧ P depth why (depth + 1) := by
  obtain ⟨paren, hr, hend⟩ | ⟨b, he, ⟨hb, why, hw, hend⟩ | hb⟩ := h.origin hP
  · exact .inl ⟨paren, calls, a, ha, hr, _, hend⟩
  · exact .inr ⟨_, b, .inner ha he, hb, _, why, hw, hend⟩
  · have := he.lt
    exact During.source hP (.inner ha he) hb
termination_by 2 * a.frames + a.task.calls

/-- The same of a whole program. -/
theorem runProgram_source (hP : Stop.FromCalls P)
    (h : runProgram config frames statements m = .stop why m') (hend : P m.depth why m'.depth) :
    (∃ paren calls b, During config frames statements m calls b ∧ b.Refused config paren ∧
        ∃ depth, P depth (.fault (.overflow (some paren))) depth) ∨
      ∃ calls b, During config frames statements m calls b ∧ b.Untold config ∧
        ∃ depth why, why.EndsTelling ∧ P depth why (depth + 1) := by
  obtain ⟨trace, htell⟩ := Run.tell_of_isProper config (Event.isProper_started statements.length) m
  rw [runProgram_of_tell htell] at h
  obtain ⟨before, s, behind, m₁, hs, hbefore, h⟩ := Run.firstOf_eq_stop h
  have hd := ((Restores.firstOf (restoring config frames).execute before).ok hbefore).2
  refine During.source hP (.statement hs htell hbefore) ⟨why, m', map_eq_stop_iff.mpr h, ?_⟩
  show P m₁.depth why m'.depth
  rw [hd]
  exact hend

end Ends

end Lox
