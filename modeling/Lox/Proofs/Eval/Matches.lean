import Lox.Proofs.Eval.Alike
import Lox.Proofs.Scope.Matches

/-!
# Runs of programs that differ only in where their tokens stand

No step of a run looks at the line of a token.  Programs that match are run in lockstep, from machines
that match to machines that match, and the faults they end with are found at tokens that are like each
other.

* `Machine.Matches L known m m'`: the heaps match, and the machines have the same current scope, as
  many open calls and the same output.  The latest calls are like each other if `known` holds, or as
  soon as there is one; what was told does not matter.
* `Fault.Matches L known f f'`: the same fault, at places that are like each other.
* `Run.Matches`: from machines that match, two steps end in the same way.  It goes through sequencing
  and the loops of the machine.
* `matching`: all tasks, by induction on the frames left; `interpret_matches`: whole programs.
-/

namespace Lox

variable {L L' : Token.Likeness} {known : Prop} {α α' β β' : Type}

/-! ### Faults -/

/-- The latest calls are like each other if they are known, or as soon as there is one. -/
def Token.Likeness.Latest (L : Token.Likeness) (known : Prop) (call call' : Option Token) : Prop :=
  known ∨ call.isSome → Option.Rel L.Rel call call'

/-- The same fault, at places that are like each other. -/
inductive Fault.Matches (L : Token.Likeness) (known : Prop) : Fault → Fault → Prop where
  | undefined {t t' : Token} (h : L.Rel t t') : Matches L known (.undefined t) (.undefined t')
  | misuse {t t' : Token} {cause : Misuse} (h : L.Rel t t') :
      Matches L known (.misuse t cause) (.misuse t' cause)
  | overflow {call call' : Option Token} (h : L.Latest known call call') :
      Matches L known (.overflow call) (.overflow call')
  | other {f : Fault} (h : f.label? = none) : Matches L known f f

namespace Fault.Matches

variable {f f' : Fault}

theorem label? (h : f.Matches L known f') : f.label? = f'.label? := by
  cases h <;> rfl

/-- Faults that match have the same message. -/
theorem text (h : f.Matches L known f') : f.text = f'.text := by
  cases h with
  | undefined h => rw [Fault.text, Fault.text, L.lexemeText h]
  | _ => rfl

/-- And their places are like each other. -/
theorem place? (h : f.Matches L True f') : Option.Rel L.Rel f.place? f'.place? := by
  cases h with
  | undefined h => exact .some h
  | misuse h => exact .some h
  | overflow h => exact h (.inl trivial)
  | other h =>
      cases f with
      | undefined | misuse | overflow => cases h
      | _ => exact .none

/-- At known places, faults match whatever is known of the latest calls. -/
theorem weaken (h : f.Matches L True f') : f.Matches L known f' := by
  cases h with
  | undefined h => exact .undefined h
  | misuse h => exact .misuse h
  | overflow h => exact .overflow fun _ => h (.inl trivial)
  | other h => exact .other h

/-- Both messages can be written, or neither. -/
theorem written (h : f.Matches L True f') : f.message.isProper = f'.message.isProper := by
  have hplace := h.place?
  rw [Fault.message, Fault.message, h.text]
  generalize f.place? = o, f'.place? = o' at hplace ⊢
  cases hplace with
  | none => rfl
  | some ht => simp [L.written ht]

end Fault.Matches

/-- Why two runs stop: for the same reason.  The place of a fault is one of the tokens that are run. -/
inductive Stop.Matches (L : Token.Likeness) : Stop → Stop → Prop where
  | fault {f f' : Fault} (h : f.Matches L True f') : Matches L (.fault f) (.fault f')
  | exhausted : Matches L .exhausted .exhausted

/-! ### Machines -/

/-- All that the tokens of a program can show in is the bodies of functions and the latest call. -/
structure Machine.Matches (L : Token.Likeness) (known : Prop) (m m' : Machine) : Prop where
  heap : m.heap.Matches L m'.heap
  current : m.current = m'.current
  depth : m.depth = m'.depth
  lastCall : L.Latest known m.lastCall m'.lastCall
  hostCalls : m.hostCalls = m'.hostCalls
  output : m.output = m'.output

/-- Values that match are bound on both sides. -/
theorem Machine.Matches.define {m m' : Machine} (hm : m.Matches L known m') {i j : Nat} (hi : i = j)
    (name : Name) {v v' : Value} (hv : v.Matches L v') :
    Machine.Matches L known { m with heap := m.heap.define i name v }
      { m' with heap := m'.heap.define j name v' } :=
  { hm with heap := hi ▸ hm.heap.define i name hv }

/-- What was told does not matter. -/
theorem Machine.Matches.told {m m' : Machine} (hm : m.Matches L known m') (trace trace' : Array Event) :
    Machine.Matches L known { m with trace := trace } { m' with trace := trace' } :=
  { hm with }

/-- Two steps end in the same way, on machines that match. -/
inductive Result.Matches (L : Token.Likeness) (known : Prop) (V : α → α' → Prop) :
    Result α → Result α' → Prop where
  | ok {a : α} {a' : α'} {m m' : Machine} (ha : V a a') (hm : m.Matches L known m') :
      Matches L known V (.ok a m) (.ok a' m')
  | stop {why why' : Stop} {m m' : Machine} (hw : why.Matches L why')
      (hm : m.Matches L known m') : Matches L known V (.stop why m) (.stop why' m')

namespace Run

/-- From machines that match, the steps end in the same way. -/
def Matches (L : Token.Likeness) (known : Prop) (V : α → α' → Prop) (p : Run α) (p' : Run α') :
    Prop :=
  ∀ m m', m.Matches L known m' → (p m).Matches L known V (p' m')

namespace Matches

variable {V : α → α' → Prop} {W : β → β' → Prop}

theorem bind {p : Run α} {p' : Run α'} {f : α → Run β} {f' : α' → Run β'}
    (hp : Matches L known V p p') (hf : ∀ a a', V a a' → Matches L known W (f a) (f' a')) :
    Matches L known W (p >>= f) (p' >>= f') := by
  intro m m' hm
  have h := hp m m' hm
  show (andThen p f m).Matches L known W (andThen p' f' m')
  rw [andThen, andThen]
  generalize p m = r, p' m' = r' at h ⊢
  cases h with
  | stop hw hm => exact .stop hw hm
  | ok ha hm => exact hf _ _ ha _ _ hm

theorem pure {a : α} {a' : α'} (ha : V a a') : Matches L known V (pure a) (pure a') :=
  fun _ _ hm => .ok ha hm

theorem map {p : Run α} {p' : Run α'} {f : α → β} {f' : α' → β'} (hp : Matches L known V p p')
    (hf : ∀ a a', V a a' → W (f a) (f' a')) : Matches L known W (f <$> p) (f' <$> p') :=
  hp.bind fun a a' ha => pure (hf a a' ha)

theorem fault {f f' : Fault} (h : f.Matches L True f') :
    Matches L known V (fault f) (fault f') :=
  fun _ _ hm => .stop (.fault h) hm

theorem exhausted : Matches L known V exhausted exhausted :=
  fun _ _ hm => .stop .exhausted hm

/-! ### The steps of the machine -/

/-- Told events need the same text and level only, so a line of the program in them is not lost. -/
theorem tell (config : Config) {event event' : Event} (ht : event.text = event'.text)
    (hl : event.level = event'.level) :
    Matches L known Eq (tell config event) (tell config event') := by
  intro m m' hm
  rw [Run.tell, Run.tell, hl, ht]
  split
  · split
    · exact .ok rfl (hm.told _ _)
    · exact .stop (.fault (.other rfl)) hm
  · exact .ok rfl hm

theorem printLine (line : Text) : Matches L known Eq (printLine line) (printLine line) := by
  intro m m' hm
  refine .ok rfl { hm with output := ?_ }
  simp only [hm.output]

theorem namesOf (names : List Json) : Matches L known Eq (namesOf names) (namesOf names) := by
  intro m m' hm
  rw [Run.namesOf, Run.namesOf]
  split
  · exact .ok rfl hm
  · exact .stop (.fault (.other rfl)) hm

theorem openCalls : Matches L known Eq openCalls openCalls := fun _ _ hm => .ok hm.depth hm

theorem currentScope : Matches L known Eq currentScope currentScope :=
  fun _ _ hm => .ok hm.current hm

/-- A name is looked up by its text, whichever token spells it. -/
theorem lookup {t t' : Token} (ht : L.Rel t t') :
    Matches L known (Value.Matches L) (lookup t) (lookup t') := by
  intro m m' hm
  rw [Run.lookup, Run.lookup, ← L.lexeme ht, ← hm.current]
  split
  · exact .stop (.fault (.other rfl)) hm
  · rename_i name _
    have h := hm.heap.lookup? m.current name
    generalize m.heap.lookup? m.current name = o, m'.heap.lookup? m.current name = o' at h ⊢
    cases h with
    | none => exact .stop (.fault (.undefined ht)) hm
    | some hv => exact .ok hv hm

theorem assign {t t' : Token} (ht : L.Rel t t') {v v' : Value} (hv : v.Matches L v') :
    Matches L known Eq (assign t v) (assign t' v') := by
  intro m m' hm
  rw [Run.assign, Run.assign, ← L.lexeme ht]
  split
  · exact .stop (.fault (.other rfl)) hm
  · rename_i name _
    have hfound : m'.heap.resolve? m'.current name = m.heap.resolve? m.current name := by
      rw [← hm.current, hm.heap.resolve?]
    rw [hfound]
    split
    · exact .ok rfl (hm.define rfl name hv)
    · exact .stop (.fault (.undefined ht)) hm

theorem define {t t' : Token} (ht : L.Rel t t') {v v' : Value} (hv : v.Matches L v') :
    Matches L known Eq (define t v) (define t' v') := by
  intro m m' hm
  rw [Run.define, Run.define, ← L.lexeme ht]
  split
  · exact .stop (.fault (.other rfl)) hm
  · rename_i name _
    exact .ok rfl (hm.define hm.current name hv)

/-- Both make the same scope, with values that match in it. -/
theorem newScope (outer : Nat) {bindings bindings' : List (Name × Value)}
    (hb : BindingsRel (Value.Matches L) bindings bindings') :
    Matches L known Eq (newScope outer bindings) (newScope outer bindings') := by
  intro m m' hm
  rw [Run.newScope, Run.newScope, ← hm.heap.size]
  exact .ok rfl { hm with heap := (hm.heap.push (some outer)).defineAll m.heap.size hb }

theorem inScope (i : Nat) {p : Run α} {p' : Run α'} (h : Matches L known V p p') :
    Matches L known V (inScope i p) (inScope i p') := by
  intro m m' hm
  have h := h { m with current := i } { m' with current := i } { hm with current := rfl }
  rw [Run.inScope, Run.inScope]
  generalize p { m with current := i } = r, p' { m' with current := i } = r' at h ⊢
  cases h with
  | ok ha hm₁ => exact .ok ha { hm₁ with current := hm.current }
  | stop hw hm₁ => exact .stop hw { hm₁ with current := hm.current }

theorem leaving {p : Run α} {p' : Run α'} (h : Matches L known V p p') :
    Matches L known V (leaving p) (leaving p') := by
  intro m m' hm
  have h := h m m' hm
  rw [Run.leaving, Run.leaving]
  generalize p m = r, p' m' = r' at h ⊢
  cases h with
  | ok ha hm₁ => exact .ok ha { hm₁ with depth := congrArg (· - 1) hm₁.depth }
  | stop hw hm₁ => exact .stop hw { hm₁ with depth := congrArg (· - 1) hm₁.depth }

/-- From where a call is counted on, the latest call is known. -/
theorem counted {paren paren' : Token} (ht : L.Rel paren paren') {announce announce' : Run Unit}
    {p : Run α} {p' : Run α'} (ha : Matches L known Eq announce announce')
    (h : Matches L known V p p') :
    Matches L known V (counted paren announce p) (counted paren' announce' p') := by
  have henter : Matches L known Eq (enterCall paren) (enterCall paren') := fun _ _ hm =>
    .ok rfl { hm with depth := congrArg (· + 1) hm.depth, lastCall := fun _ => .some ht }
  exact henter.bind fun _ _ _ => ha.bind fun _ _ _ => h.leaving

/-- Callees that match take as many frames to spell out. -/
theorem spell (frames : Nat) {f f' : Value} (hf : f.Matches L f') :
    Matches L known Eq (spell frames f) (spell frames f') := by
  rw [Run.spell, Run.spell, hf.spellingFrames]
  split
  · exact pure rfl
  · exact exhausted

/-- The host is called in the same way, as often as before. -/
theorem callHost {config : Config} (hh : config.host.Respects L) (function : HostFunction)
    {vs vs' : List Value} (hvs : List.Forall₂ (Value.Matches L) vs vs') :
    Matches L known (Value.Matches L) (callHost config function vs)
      (callHost config function vs') := by
  intro m m' hm
  have hnext : Machine.Matches L known { m with hostCalls := m'.hostCalls + 1 }
      { m' with hostCalls := m'.hostCalls + 1 } := { hm with hostCalls := rfl }
  have hr := hh function m'.hostCalls vs vs' hvs
  rw [Run.callHost, Run.callHost, hm.hostCalls]
  generalize config.host.call function m'.hostCalls vs = r,
    config.host.call function m'.hostCalls vs' = r' at hr ⊢
  cases hr with
  | value hv => exact .ok hv hnext
  | raised | never => exact .stop (.fault (.other rfl)) hnext

/-! ### Sequences -/

theorem collect {f : β → Run α} {f' : β' → Run α'} {bs : List β} {bs' : List β'}
    (hb : List.Forall₂ W bs bs') (hf : ∀ b b', W b b' → Matches L known V (f b) (f' b')) :
    Matches L known (List.Forall₂ V) (collect f bs) (collect f' bs') := by
  induction hb with
  | nil => exact pure .nil
  | cons hb _ ih =>
      rw [Run.collect, Run.collect]
      exact (hf _ _ hb).bind fun a a' ha => ih.bind fun as as' has => pure (.cons ha has)

/-- Statements one after the other, up to the first that returns. -/
theorem firstOf {f : β → Run (Option α)} {f' : β' → Run (Option α')} {bs : List β} {bs' : List β'}
    (hb : List.Forall₂ W bs bs')
    (hf : ∀ b b', W b b' → Matches L known (Option.Rel V) (f b) (f' b')) :
    Matches L known (Option.Rel V) (firstOf f bs) (firstOf f' bs') := by
  induction hb with
  | nil => exact pure .none
  | @cons b b' bs bs' hb _ ih =>
      intro m m' hm
      have h := hf _ _ hb m m' hm
      rw [Run.firstOf, Run.firstOf]
      generalize f b m = r, f' b' m' = r' at h ⊢
      cases h with
      | stop hw hm₁ => exact .stop hw hm₁
      | ok ho hm₁ =>
          cases ho with
          | some ha => exact .ok (.some ha) hm₁
          | none => exact ih _ _ hm₁

theorem whileTrue {condition condition' : Run Bool} {body : Run (Option α)}
    {body' : Run (Option α')} (rounds : Nat) (hc : Matches L known Eq condition condition')
    (hb : Matches L known (Option.Rel V) body body') :
    Matches L known (Option.Rel V) (whileTrue condition body rounds)
      (whileTrue condition' body' rounds) := by
  induction rounds with
  | zero => exact fun m m' hm => .stop (.fault (.other rfl)) hm
  | succ rounds ih =>
      intro m m' hm
      have h := hc m m' hm
      rw [Run.whileTrue, Run.whileTrue]
      generalize condition m = r, condition' m' = r' at h ⊢
      cases h with
      | stop hw hm₁ => exact .stop hw hm₁
      | @ok b b' m₁ m₁' heq hm₁ =>
          subst heq
          cases b with
          | false => exact .ok .none hm₁
          | true =>
              have h₁ := hb m₁ m₁' hm₁
              dsimp only
              generalize body m₁ = r, body' m₁' = r' at h₁ ⊢
              cases h₁ with
              | stop hw hm₂ => exact .stop hw hm₂
              | ok ho hm₂ =>
                  cases ho with
                  | some ha => exact .ok (.some ha) hm₂
                  | none => exact ih _ _ hm₂

end Matches

end Run

/-! ### Operators -/

/-- Both give the same value, which is no function, or both go wrong in the same way, each at its own
operator. -/
inductive SameBut (o o' : Token) : Except Fault Value → Except Fault Value → Prop where
  | ok {v : Value} (h : v.function? = none) : SameBut o o' (.ok v) (.ok v)
  | misuse (cause : Misuse) : SameBut o o' (.error (.misuse o cause)) (.error (.misuse o' cause))

section Operators

variable {o o' : Token}

/-- Operators look at their kind, not at where they stand. -/
theorem applyUnary_sameBut (ho : L.Rel o o') (v : Value) :
    SameBut o o' (applyUnary o v) (applyUnary o' v) := by
  unfold applyUnary
  rw [← L.kind ho, ← L.lexemeText ho]
  split
  · exact .ok rfl
  · split
    · exact .ok rfl
    · exact .misuse _
  · exact .misuse _

theorem applyBinary_sameBut (ho : L.Rel o o') (a b : Value) :
    SameBut o o' (applyBinary o a b) (applyBinary o' a b) := by
  unfold applyBinary
  rw [← L.kind ho, ← L.lexemeText ho]
  split
  · exact .ok rfl
  · exact .ok rfl
  · split
    · exact .ok rfl
    · exact .ok rfl
    · exact .misuse _
  · split
    · split
      · rename_i hv
        exact .ok (arithmetic?_function? hv)
      · exact .misuse _
    · exact .misuse _

/-- A fault of an operator is found at the operator of each side. -/
theorem SameBut.matches {r r' : Except Fault Value} (h : SameBut o o' r r') (ho : L.Rel o o') :
    Run.Matches L known (Value.Matches L) (Run.ofExcept r) (Run.ofExcept r') := by
  cases h with
  | ok hv => exact Run.Matches.pure (.plain hv)
  | misuse cause => exact Run.Matches.fault (.misuse ho)

theorem decidesAlone_matches (ho : L.Rel o o') {v v' : Value} (hv : v.Matches L v') :
    decidesAlone o v = decidesAlone o' v' := by
  rw [decidesAlone, decidesAlone, L.kind ho, hv.isTruthy]

end Operators

/-! ### Tasks -/

/-- What statements give matches. -/
abbrev ReturnsMatch (L : Token.Likeness) : Option Value → Option Value → Prop :=
  Option.Rel (Value.Matches L)

/-- With so many frames left, tasks that match are run in lockstep. -/
structure Matching (config : Config) (L : Token.Likeness) (known : Prop) (n : Nat) : Prop where
  evaluate : ∀ {e e'}, e.Matches L e' →
    Run.Matches L known (Value.Matches L) (evaluate config n e) (evaluate config n e')
  evaluateAll : ∀ {es es'}, List.Forall₂ (Node.Matches L) es es' →
    Run.Matches L known (List.Forall₂ (Value.Matches L)) (evaluateAll config n es)
      (evaluateAll config n es')
  invoke : ∀ {f f' vs vs' paren paren'}, f.Matches L f' → List.Forall₂ (Value.Matches L) vs vs' →
    L.Rel paren paren' →
    Run.Matches L known (Value.Matches L) (invoke config n f vs paren)
      (invoke config n f' vs' paren')
  block : ∀ {i ss ss'}, List.Forall₂ (Node.Matches L) ss ss' →
    Run.Matches L known (ReturnsMatch L) (block config n i ss) (block config n i ss')
  execute : ∀ {s s'}, s.Matches L s' →
    Run.Matches L known (ReturnsMatch L) (execute config n s) (execute config n s')

section Tasks

open Run (Matches)

variable {config : Config} {n : Nat}

/-- Expressions, by the form that both have. -/
theorem evaluate_matches (h : Matching config L known n) {e e' : Node} (he : e.Matches L e') :
    Matches L known (Value.Matches L) (evaluate config (n + 1) e)
      (evaluate config (n + 1) e') := by
  cases he with
  | plain hp =>
      cases e with
      | literal v => exact Matches.pure (.plain (Value.function?_ofNode v))
      | null | bool | number | text | nil | list | token | data => exact Matches.fault (.other rfl)
      | _ => cases hp
  | grouping he => exact h.evaluate he
  | reference ht => exact Matches.lookup ht
  | assign ht he =>
      rw [evaluate_assign, evaluate_assign]
      refine (h.evaluate he).bind fun v v' hv => ?_
      exact (Matches.assign ht hv).bind fun _ _ _ => Matches.pure hv
  | logical hl ho hr =>
      rw [evaluate_logical, evaluate_logical]
      refine (h.evaluate hl).bind fun v v' hv => ?_
      rw [decidesAlone_matches ho hv]
      split
      · exact Matches.pure hv
      · exact h.evaluate hr
  | unary ho he =>
      rw [evaluate_unary, evaluate_unary]
      refine (h.evaluate he).bind fun v v' hv => ?_
      rw [← hv.applyUnary]
      exact (applyUnary_sameBut ho v).matches ho
  | binary hl ho hr =>
      rw [evaluate_binary, evaluate_binary]
      refine (h.evaluate hl).bind fun a a' ha => (h.evaluate hr).bind fun b b' hb => ?_
      rw [← ha.applyBinary hb]
      exact (applyBinary_sameBut ho a b).matches ho
  | call he hp hs =>
      rw [evaluate_call, evaluate_call]
      refine (h.evaluate he).bind fun f f' hf => (h.evaluateAll hs).bind fun vs vs' hvs => ?_
      exact h.invoke hf hvs hp
  | _ => exact Matches.fault (.other rfl)

/-- Whether a value can be called is found out in the same way. -/
theorem checkCall_matches (config : Config) {f f' : Value} (hf : f.Matches L f') (given depth : Nat)
    {paren paren' : Token} (hp : L.Rel paren paren') :
    Matches L known Eq (Run.ofExcept (checkCall config f given depth paren))
      (Run.ofExcept (checkCall config f' given depth paren')) := by
  rw [checkCall, checkCall, ← hf.arity?, ← hf.kindName]
  split
  · exact Matches.fault (.misuse hp)
  · split
    · exact Matches.fault (.misuse hp)
    · split
      · exact Matches.fault (.overflow fun _ => .some hp)
      · exact Matches.pure rfl

/-- Bodies that match, or the same native, which the likeness does not concern. -/
theorem callInside_matches (hh : config.host.Respects L) (h : Matching config L known n)
    {f f' : Value} {vs vs' : List Value} (hf : f.Matches L f') (hvs : List.Forall₂ (Value.Matches L) vs vs') :
    Matches L known (Value.Matches L) (callInside config n f vs) (callInside config n f' vs') := by
  cases hf with
  | @function name params body body' closure hb =>
      refine (Matches.namesOf params).bind fun names _ heq => ?_
      subst heq
      refine (Matches.newScope closure (.zip hvs names)).bind fun id _ heq => ?_
      subst heq
      refine (h.block hb).bind fun returned returned' hr => Matches.pure ?_
      cases hr with
      | none => exact .plain rfl
      | some hv => exact hv
  | plain hplain =>
      cases f with
      | function => cases hplain
      | native name arity function => exact Matches.callHost hh function hvs
      | _ => exact Matches.fault (.other rfl)

/-- Calls, at parentheses that are like each other. -/
theorem invoke_matches (hh : config.host.Respects L) (h : Matching config L known n) {f f' : Value} {vs vs' : List Value}
    {paren paren' : Token} (hf : f.Matches L f') (hvs : List.Forall₂ (Value.Matches L) vs vs')
    (hp : L.Rel paren paren') :
    Matches L known (Value.Matches L) (invoke config (n + 2) f vs paren)
      (invoke config (n + 2) f' vs' paren') := by
  rw [invoke_add_two, invoke_add_two]
  refine Matches.openCalls.bind fun depth _ heq => ?_
  subst heq
  rw [← hvs.length_eq]
  refine (checkCall_matches config hf vs.length depth hp).bind fun _ _ _ => ?_
  have hannounce : Matches L known Eq (announceCall config n f (depth + 1))
      (announceCall config n f' (depth + 1)) :=
    (Matches.spell n hf).bind fun _ _ _ => Matches.tell config (called_text hf.dataText _) rfl
  refine (Matches.counted hp hannounce (callInside_matches hh h hf hvs)).bind fun v v' hv => ?_
  exact (Matches.tell config (returned_text hv.display hf.dataText) rfl).bind fun _ _ _ =>
    Matches.pure hv

theorem initialValue_matches (h : Matching config L known n) {e e' : Node} (he : e.Matches L e') :
    Matches L known (Value.Matches L) (initialValue config n e) (initialValue config n e') := by
  by_cases hnull : e = .null
  · have hnull' := he.eq_null_iff.mp hnull
    subst hnull hnull'
    exact Matches.pure (.plain rfl)
  · rw [initialValue_of_ne config n hnull,
      initialValue_of_ne config n (mt he.eq_null_iff.mpr hnull)]
    exact h.evaluate he

theorem executeOptional_matches (h : Matching config L known n) {s s' : Node}
    (hs : s.Matches L s') :
    Matches L known (ReturnsMatch L) (executeOptional config n s)
      (executeOptional config n s') := by
  by_cases hnull : s = .null
  · have hnull' := hs.eq_null_iff.mp hnull
    subst hnull hnull'
    exact Matches.pure .none
  · rw [executeOptional_of_ne config n hnull,
      executeOptional_of_ne config n (mt hs.eq_null_iff.mpr hnull)]
    exact h.execute hs

/-- Statements, by the form that both have. -/
theorem execute_matches (h : Matching config L known n) {s s' : Node} (hs : s.Matches L s') :
    Matches L known (ReturnsMatch L) (execute config (n + 1) s)
      (execute config (n + 1) s') := by
  have hnone : Matches L known (ReturnsMatch L) (pure none) (pure none) := Matches.pure .none
  cases hs with
  | plain hp =>
      cases s with
      | null | bool | number | text | nil | list | token | data | literal =>
          exact Matches.fault (.other rfl)
      | _ => cases hp
  | expression he =>
      rw [execute_expression, execute_expression]
      exact (h.evaluate he).bind fun _ _ _ => hnone
  | print he =>
      rw [execute_print, execute_print]
      refine (h.evaluate he).bind fun v v' hv => ?_
      rw [hv.display]
      exact (Matches.printLine _).bind fun _ _ _ => hnone
  | declare ht he =>
      rw [execute_declare, execute_declare]
      refine (initialValue_matches h he).bind fun v v' hv => ?_
      refine (Matches.define ht hv).bind fun _ _ _ => ?_
      rw [L.lexeme ht]
      exact (Matches.tell config (defined_text hv.display _) rfl).bind fun _ _ _ => hnone
  | block hs =>
      rw [execute_block, execute_block]
      refine Matches.currentScope.bind fun outer _ heq => ?_
      subst heq
      refine (Matches.newScope outer .nil).bind fun id _ heq => ?_
      subst heq
      exact h.block hs
  | branch hc hs hr =>
      rw [execute_branch, execute_branch]
      refine (h.evaluate hc).bind fun v v' hv => ?_
      rw [hv.isTruthy]
      refine (Matches.tell config rfl rfl).bind fun _ _ _ => ?_
      split
      · exact h.execute hs
      · exact executeOptional_matches h hr
  | loop hc hs =>
      rw [execute_loop, execute_loop]
      refine Matches.whileTrue config.rounds ?_ (h.execute hs)
      exact (h.evaluate hc).map fun _ _ hv => hv.isTruthy
  | @function t t' ps ps' body body' ht hp hb =>
      have hparams : ps.map Token.lexeme = ps'.map Token.lexeme :=
        (congrFun₂ List.forall₂_eq_eq_eq _ _).mp (List.rel_map (fun _ _ ht => L.lexeme ht) hp)
      rw [execute_function, execute_function, hparams, L.lexeme ht]
      refine Matches.currentScope.bind fun closure _ heq => ?_
      subst heq
      refine (Matches.define ht (.function hb)).bind fun _ _ _ => ?_
      exact (Matches.tell config rfl rfl).bind fun _ _ _ => hnone
  | returns ht he =>
      rw [execute_returns, execute_returns]
      exact (initialValue_matches h he).map fun _ _ hv => .some hv
  | _ => exact Matches.fault (.other rfl)

/-- **Tasks that match are run in lockstep**, however many frames are left, if the natives do not look at
what is free in tokens. -/
theorem matching (hh : config.host.Respects L) (known : Prop) (n : Nat) :
    Matching config L known n := by
  induction n using Nat.strongRecOn with
  | ind n ih =>
      match n, ih with
      | 0, _ =>
          exact ⟨fun _ => Matches.exhausted, fun _ => Matches.exhausted,
            fun _ _ _ => Matches.exhausted, fun _ => Matches.exhausted, fun _ => Matches.exhausted⟩
      | n + 1, ih =>
          have h := ih n (Nat.lt_succ_self n)
          refine ⟨evaluate_matches h, fun hs => ?_, fun hf hvs hp => ?_, fun hs => ?_,
            execute_matches h⟩
          · exact Matches.collect hs fun _ _ he => h.evaluate he
          · match n, ih with
            | 0, _ => exact Matches.exhausted
            | n + 1, ih => exact invoke_matches hh (ih n (by omega)) hf hvs hp
          · exact Matches.inScope _ (Matches.firstOf hs fun _ _ hs => h.execute hs)

/-! ### Programs -/

/-- When the frames are used up, the fault is found at the latest call. -/
theorem Stop.Matches.faultOf {why why' : Stop} (hw : why.Matches L why') {m m' : Machine}
    (hm : m.Matches L known m') :
    (faultOf m.lastCall why).Matches L known (faultOf m'.lastCall why') := by
  cases hw with
  | fault hf => exact hf.weaken
  | exhausted => exact .overflow hm.lastCall

/-- Reasons that match are both told, or neither is. -/
theorem finalReason_matches (level : Nat) {why why' : Option Stop}
    (hw : Option.Rel (Stop.Matches L) why why') :
    Option.Rel (Stop.Matches L) (finalReason level why) (finalReason level why') := by
  cases hw with
  | none => exact .none
  | some hw =>
      cases hw with
      | exhausted => exact .some .exhausted
      | fault hf =>
          rw [finalReason, finalReason, hf.label?, hf.written]
          split
          · exact .some (.fault (.other rfl))
          · exact .some (.fault hf)

/-- Runs that match end with faults that match, and there is no latest call any more. -/
theorem settle_matches (config : Config) {why why' : Option Stop}
    (hw : Option.Rel (Stop.Matches L) why why') {m m' : Machine} (hm : m.Matches L known m') :
    Option.Rel (Fault.Matches L known) (settle config why m).1 (settle config why' m').1 ∧
      (settle config why m).2.Matches L True (settle config why' m').2 := by
  rw [settle_eq, settle_eq]
  refine ⟨?_, { hm with lastCall := fun _ => .none }⟩
  have hfinal := finalReason_matches config.level hw
  generalize finalReason config.level why = o, finalReason config.level why' = o' at hfinal
  cases hfinal with
  | none => exact .none
  | some hw => exact .some (hw.faultOf hm)

/-- But for what was told before, a program is run statement by statement. -/
theorem interpret_eq (config : Config) (frames : Nat) (ss : List Node) (m : Machine) :
    ∃ trace, interpret config frames ss m =
      endOf config (Run.firstOf (execute config frames) ss { m with trace := trace }) := by
  obtain ⟨trace, htell⟩ := Run.tell_of_isProper config (Event.isProper_started ss.length) m
  refine ⟨trace, ?_⟩
  rw [interpret_eq_endOf, runProgram_of_tell htell]

/-- Whole programs end with faults at tokens that are like each other, on machines that match. -/
theorem Result.Matches.endOf {V : Option Value → Option Value → Prop} {r r' : Result (Option Value)}
    (h : r.Matches L known V r') (config : Config) :
    Option.Rel (Fault.Matches L known) (endOf config r).1 (endOf config r').1 ∧
      (endOf config r).2.Matches L True (endOf config r').2 := by
  cases h with
  | ok _ hm => exact settle_matches config .none hm
  | stop hw hm => exact settle_matches config (.some hw) hm

/-- **Programs that match end in the same way**, on machines that match. -/
theorem interpret_matches (hh : config.host.Respects L) (frames : Nat) {ss ss' : List Node}
    (hs : List.Forall₂ (Node.Matches L) ss ss') {m m' : Machine} (hm : m.Matches L known m') :
    Option.Rel (Fault.Matches L known) (interpret config frames ss m).1
        (interpret config frames ss' m').1 ∧
      (interpret config frames ss m).2.Matches L True (interpret config frames ss' m').2 := by
  obtain ⟨trace, hrun⟩ := interpret_eq config frames ss m
  obtain ⟨trace', hrun'⟩ := interpret_eq config frames ss' m'
  rw [hrun, hrun']
  have hstatements := Matches.firstOf hs (fun _ _ => (matching hh known frames).execute)
  exact (hstatements _ _ (hm.told trace trace')).endOf config

end Tasks

end Lox
