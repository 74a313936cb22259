import Lox.Proofs.Scope.Alike

/-!
# Runs in step with each other

Two machines that are alike stay alike, whatever is run on both of them, and it ends in the same way:
with values that are alike or for the same reason.

* `Machine.Alike c solid m m'`: the heaps are alike, the current scopes correspond, and everything
  else that can be observed is the same.  If `solid` holds, the current scopes are counterparts, so
  that a name may be bound in them.
* `Run.Alike`: from machines that are alike, two steps end in the same way.  It goes through
  sequencing and the loops of the machine.
* `inStep`: one task on both machines, by induction on the frames left.  A statement that declares
  nothing (`Node.declares`) may also be executed in a hollow scope.
-/

namespace Lox

variable {c : Correspondence} {solid : Prop} {k k' : Nat} {α α' β β' : Type}

/-! ### Machines -/

/-- What can be seen of two machines is alike. -/
structure Machine.Alike (c : Correspondence) (solid : Prop) (m m' : Machine) : Prop where
  heap : Heap.Alike c m.heap m'.heap
  current : c.Related m.current m'.current
  /-- A name may be bound in the current scopes. -/
  pairs : solid → c.Pairs m.current m'.current
  lt : m.current < m.heap.size
  lt' : m'.current < m'.heap.size
  depth : m.depth = m'.depth
  lastCall : m.lastCall = m'.lastCall
  hostCalls : m.hostCalls = m'.hostCalls
  output : m.output = m'.output
  trace : m.trace.map Event.text = m'.trace.map Event.text

/-- Two steps end in the same way, on machines that are alike. -/
inductive Result.Alike (c : Correspondence) (solid : Prop) (k k' : Nat)
    (V : Nat → Nat → α → α' → Prop) : Result α → Result α' → Prop where
  | ok {a : α} {a' : α'} {m m' : Machine} (ha : V m.heap.size m'.heap.size a a')
      (hm : m.Alike c solid m') (hk : k ≤ m.heap.size) (hk' : k' ≤ m'.heap.size) :
      Alike c solid k k' V (.ok a m) (.ok a' m')
  | stop {why : Stop} {m m' : Machine} (hm : m.Alike c solid m') (hk : k ≤ m.heap.size)
      (hk' : k' ≤ m'.heap.size) : Alike c solid k k' V (.stop why m) (.stop why m')

/-- A name is bound in counterparts. -/
theorem Machine.Alike.define {m m' : Machine} (hm : m.Alike c solid m') {i j : Nat}
    (hp : c.Pairs i j) (name : Name) {v v' : Value} (hv : v.Alike c m.heap.size m'.heap.size v') :
    Machine.Alike c solid { m with heap := m.heap.define i name v }
      { m' with heap := m'.heap.define j name v' } := by
  refine { hm with heap := hm.heap.define hp name hv, lt := ?_, lt' := ?_ }
  · rw [Heap.size_define]
    exact hm.lt
  · rw [Heap.size_define]
    exact hm.lt'

namespace Result.Alike

variable {V : Nat → Nat → α → α' → Prop} {r : Result α} {r' : Result α'} {l l' : Nat}

/-- Seen from further back, there were fewer scopes. -/
theorem widen (h : r.Alike c solid l l' V r') (hk : k ≤ l) (hk' : k' ≤ l') :
    r.Alike c solid k k' V r' := by
  cases h with
  | ok ha hm hl hl' => exact .ok ha hm (Nat.le_trans hk hl) (Nat.le_trans hk' hl')
  | stop hm hl hl' => exact .stop hm (Nat.le_trans hk hl) (Nat.le_trans hk' hl')

/-- However two steps end in the same way, their machines are alike. -/
theorem machine (h : r.Alike c solid k k' V r') : r.machine.Alike c solid r'.machine := by
  cases h with
  | ok _ hm => exact hm
  | stop hm => exact hm

/-- A step that leaves both machines as they are, and gives a value. -/
theorem done {m m' : Machine} (hm : m.Alike c solid m') {a : α} {a' : α'}
    (ha : V m.heap.size m'.heap.size a a') :
    (Result.ok a m).Alike c solid m.heap.size m'.heap.size V (.ok a' m') :=
  .ok ha hm (Nat.le_refl _) (Nat.le_refl _)

/-- A step that leaves both machines as they are, and stops. -/
theorem stopped {m m' : Machine} (hm : m.Alike c solid m') (why : Stop) :
    (Result.stop why m).Alike c solid m.heap.size m'.heap.size V (.stop why m') :=
  .stop hm (Nat.le_refl _) (Nat.le_refl _)

end Result.Alike

namespace Run

/-- From machines that are alike and have so many scopes at least, the steps end in the same way. -/
def Alike (c : Correspondence) (solid : Prop) (k k' : Nat) (V : Nat → Nat → α → α' → Prop)
    (p : Run α) (p' : Run α') : Prop :=
  ∀ m m', m.Alike c solid m' → k ≤ m.heap.size → k' ≤ m'.heap.size →
    (p m).Alike c solid m.heap.size m'.heap.size V (p' m')

namespace Alike

variable {V : Nat → Nat → α → α' → Prop} {W : Nat → Nat → β → β' → Prop}

/-- Sequencing; between the two steps, scopes may have been added on either side. -/
theorem bind {p : Run α} {p' : Run α'} {f : α → Run β} {f' : α' → Run β'}
    (hp : Alike c solid k k' V p p')
    (hf : ∀ l l' a a', k ≤ l → k' ≤ l' → V l l' a a' → Alike c solid l l' W (f a) (f' a')) :
    Alike c solid k k' W (p >>= f) (p' >>= f') := by
  intro m m' hm hk hk'
  have h := hp m m' hm hk hk'
  show (andThen p f m).Alike c solid _ _ W (andThen p' f' m')
  rw [andThen, andThen]
  generalize p m = r, p' m' = r' at h ⊢
  cases h with
  | stop hm₁ hl hl' => exact .stop hm₁ hl hl'
  | @ok a a' m₁ m₁' ha hm₁ hl hl' =>
      exact (hf _ _ a a' (Nat.le_trans hk hl) (Nat.le_trans hk' hl') ha m₁ m₁' hm₁
        (Nat.le_refl _) (Nat.le_refl _)).widen hl hl'

theorem pure {a : α} {a' : α'} (ha : ∀ l l', k ≤ l → k' ≤ l' → V l l' a a') :
    Alike c solid k k' V (pure a) (pure a') :=
  fun _ _ hm hk hk' => .done hm (ha _ _ hk hk')

theorem map {p : Run α} {p' : Run α'} {f : α → β} {f' : α' → β'} (hp : Alike c solid k k' V p p')
    (hf : ∀ l l' a a', V l l' a a' → W l l' (f a) (f' a')) :
    Alike c solid k k' W (f <$> p) (f' <$> p') := by
  intro m m' hm hk hk'
  have h := hp m m' hm hk hk'
  show (andThen p (fun a => Pure.pure (f a)) m).Alike c solid _ _ W
    (andThen p' (fun a => Pure.pure (f' a)) m')
  rw [andThen, andThen]
  generalize p m = r, p' m' = r' at h ⊢
  cases h with
  | stop hm₁ hl hl' => exact .stop hm₁ hl hl'
  | ok ha hm₁ hl hl' => exact .ok (hf _ _ _ _ ha) hm₁ hl hl'

theorem fault (f : Fault) : Alike c solid k k' V (fault f) (fault f) :=
  fun _ _ hm _ _ => .stopped hm _

theorem exhausted : Alike c solid k k' V exhausted exhausted :=
  fun _ _ hm _ _ => .stopped hm _

theorem ofExcept {r : Except Fault α} {r' : Except Fault α'}
    (hok : ∀ a, r = .ok a → ∃ a', r' = .ok a' ∧ ∀ l l', k ≤ l → k' ≤ l' → V l l' a a')
    (herror : ∀ f, r = .error f → r' = .error f) :
    Alike c solid k k' V (ofExcept r) (ofExcept r') := by
  cases r with
  | ok a =>
      obtain ⟨a', rfl, ha⟩ := hok a rfl
      exact pure ha
  | error f =>
      rw [herror f rfl]
      exact fault f

/-! ### The steps of the machine -/

theorem tell (config : Config) {event event' : Event} (ht : event.text = event'.text)
    (hl : event.level = event'.level) :
    Alike c solid k k' (fun _ _ => Eq) (tell config event) (tell config event') := by
  intro m m' hm _ _
  rw [Run.tell, Run.tell, hl, ht]
  split
  · split
    · refine .ok rfl { hm with trace := ?_ } (Nat.le_refl _) (Nat.le_refl _)
      simp only [Array.map_push, hm.trace, ht]
    · exact .stopped hm _
  · exact .done hm rfl

theorem printLine (line : Text) :
    Alike c solid k k' (fun _ _ => Eq) (printLine line) (printLine line) := by
  intro m m' hm _ _
  refine .ok rfl { hm with output := ?_ } (Nat.le_refl _) (Nat.le_refl _)
  simp only [hm.output]

theorem namesOf (names : List Json) :
    Alike c solid k k' (fun _ _ => Eq) (namesOf names) (namesOf names) := by
  intro m m' hm _ _
  rw [Run.namesOf, Run.namesOf]
  split
  · exact .done hm rfl
  · exact .stopped hm _

theorem openCalls : Alike c solid k k' (fun _ _ => Eq) openCalls openCalls :=
  fun _ _ hm _ _ => .done hm hm.depth

/-- The current scopes correspond, and are counterparts where names may be bound in them. -/
theorem currentScope : Alike c solid k k'
    (fun l l' i j => c.Related i j ∧ i < l ∧ j < l') currentScope currentScope :=
  fun _ _ hm _ _ => .done hm ⟨hm.current, hm.lt, hm.lt'⟩

/-- What a name stands for is alike in scopes that correspond. -/
theorem lookup (t : Token) : Alike c solid k k' (Value.Alike c) (lookup t) (lookup t) := by
  intro m m' hm _ _
  rw [Run.lookup, Run.lookup]
  split
  · exact .stopped hm _
  · rename_i name _
    have h := hm.heap.lookup? name hm.current hm.lt hm.lt'
    generalize m.heap.lookup? m.current name = o, m'.heap.lookup? m'.current name = o' at h ⊢
    cases h with
    | none => exact .stopped hm _
    | some hv => exact .done hm hv

/-- A name is assigned to in counterparts, or in neither. -/
theorem assign (t : Token) {v v' : Value} (hv : v.Alike c k k' v') :
    Alike c solid k k' (fun _ _ => Eq) (assign t v) (assign t v') := by
  intro m m' hm hk hk'
  rw [Run.assign, Run.assign]
  split
  · exact .stopped hm _
  · rename_i name _
    have h := hm.heap.resolve? name hm.current hm.lt hm.lt'
    generalize m.heap.resolve? m.current name = o, m'.heap.resolve? m'.current name = o' at h ⊢
    cases h with
    | none => exact .stopped hm _
    | some hp =>
        exact .ok rfl (hm.define hp.1 name (hv.mono hk hk')) (Heap.Grows.define _ _ _ _).size_le
          (Heap.Grows.define _ _ _ _).size_le

/-- To bind a name, the current scopes have to be counterparts. -/
theorem define (t : Token) {v v' : Value} (hs : solid) (hv : v.Alike c k k' v') :
    Alike c solid k k' (fun _ _ => Eq) (define t v) (define t v') := by
  intro m m' hm hk hk'
  rw [Run.define, Run.define]
  split
  · exact .stopped hm _
  · rename_i name _
    exact .ok rfl (hm.define (hm.pairs hs) name (hv.mono hk hk'))
      (Heap.Grows.define _ _ _ _).size_le (Heap.Grows.define _ _ _ _).size_le

/-- Scopes that are made together are counterparts. -/
theorem newScope {outer outer' : Nat} {bindings bindings' : List (Name × Value)}
    (hr : c.Related outer outer') (ho : outer < k) (ho' : outer' < k')
    (hb : BindingsAlike c k k' bindings bindings') :
    Alike c solid k k' (fun l l' i j => c.Pairs i j ∧ i < l ∧ j < l')
      (newScope outer bindings) (newScope outer' bindings') := by
  intro m m' hm hk hk'
  have hnew : c.Pairs m.heap.size m'.heap.size := hm.heap.fresh 0
  have hpush := hm.heap.push hr (Nat.lt_of_lt_of_le ho hk) (Nat.lt_of_lt_of_le ho' hk')
  have hheap := hpush.defineAll hnew (hb.mono
    (Nat.le_trans hk (Heap.Grows.push _ _).size_le) (Nat.le_trans hk' (Heap.Grows.push _ _).size_le))
  have hsize : ((m.heap.push (some outer)).defineAll m.heap.size bindings).size =
      m.heap.size + 1 := by rw [Heap.size_defineAll, Heap.size_push]
  have hsize' : ((m'.heap.push (some outer')).defineAll m'.heap.size bindings').size =
      m'.heap.size + 1 := by rw [Heap.size_defineAll, Heap.size_push]
  refine .ok ⟨hnew, ?_, ?_⟩ { hm with heap := hheap, lt := ?_, lt' := ?_ } ?_ ?_
  · exact hsize ▸ Nat.lt_succ_self _
  · exact hsize' ▸ Nat.lt_succ_self _
  · exact hsize ▸ Nat.lt_succ_of_lt hm.lt
  · exact hsize' ▸ Nat.lt_succ_of_lt hm.lt'
  · exact hsize ▸ Nat.le_succ _
  · exact hsize' ▸ Nat.le_succ _

theorem inScope {i j : Nat} {p : Run α} {p' : Run α'} (hp : c.Pairs i j) (hi : i < k) (hj : j < k')
    (h : Alike c True k k' V p p') : Alike c solid k k' V (inScope i p) (inScope j p') := by
  intro m m' hm hk hk'
  have h := h { m with current := i } { m' with current := j }
    { hm with current := .of_pairs hp, pairs := fun _ => hp, lt := Nat.lt_of_lt_of_le hi hk,
              lt' := Nat.lt_of_lt_of_le hj hk' } hk hk'
  -- the scopes that were current are current again, and there are only more scopes now
  have hback : ∀ {m₁ m₁' : Machine}, m₁.Alike c True m₁' → m.heap.size ≤ m₁.heap.size →
      m'.heap.size ≤ m₁'.heap.size → Machine.Alike c solid { m₁ with current := m.current }
        { m₁' with current := m'.current } := fun hm₁ hl hl' =>
    { hm₁ with current := hm.current, pairs := hm.pairs, lt := Nat.lt_of_lt_of_le hm.lt hl,
               lt' := Nat.lt_of_lt_of_le hm.lt' hl' }
  rw [Run.inScope, Run.inScope]
  generalize p { m with current := i } = r, p' { m' with current := j } = r' at h ⊢
  cases h with
  | ok ha hm₁ hl hl' => exact .ok ha (hback hm₁ hl hl') hl hl'
  | stop hm₁ hl hl' => exact .stop (hback hm₁ hl hl') hl hl'

theorem leaving {p : Run α} {p' : Run α'} (h : Alike c solid k k' V p p') :
    Alike c solid k k' V (leaving p) (leaving p') := by
  intro m m' hm hk hk'
  have h := h m m' hm hk hk'
  rw [Run.leaving, Run.leaving]
  generalize p m = r, p' m' = r' at h ⊢
  cases h with
  | ok ha hm₁ hl hl' => exact .ok ha { hm₁ with depth := congrArg (· - 1) hm₁.depth } hl hl'
  | stop hm₁ hl hl' => exact .stop { hm₁ with depth := congrArg (· - 1) hm₁.depth } hl hl'

/-- A call is counted and kept on both machines. -/
theorem counted (paren : Token) {announce announce' : Run Unit} {p : Run α} {p' : Run α'}
    (ha : Alike c solid k k' (fun _ _ => Eq) announce announce')
    (h : ∀ l l', k ≤ l → k' ≤ l' → Alike c solid l l' V p p') :
    Alike c solid k k' V (counted paren announce p) (counted paren announce' p') := by
  have henter : Alike c solid k k' (fun _ _ => Eq) (enterCall paren) (enterCall paren) :=
    fun _ _ hm _ _ => .ok rfl { hm with depth := congrArg (· + 1) hm.depth, lastCall := rfl }
      (Nat.le_refl _) (Nat.le_refl _)
  refine henter.bind fun l l' _ _ hl hl' _ => ?_
  refine Alike.bind (V := fun _ _ => Eq) ?_ fun n n' _ _ hn hn' _ =>
    (h n n' (Nat.le_trans hl hn) (Nat.le_trans hl' hn')).leaving
  exact fun m m' hm hk hk' => ha m m' hm (Nat.le_trans hl hk) (Nat.le_trans hl' hk')

/-- The host is called on both machines, as often as before. -/
theorem callHost {config : Config} (hh : config.host.InStep c) (function : HostFunction)
    {vs vs' : List Value} (hvs : List.Forall₂ (Value.Alike c k k') vs vs') :
    Alike c solid k k' (Value.Alike c) (callHost config function vs)
      (callHost config function vs') := by
  intro m m' hm hk hk'
  have hnext : Machine.Alike c solid { m with hostCalls := m'.hostCalls + 1 }
      { m' with hostCalls := m'.hostCalls + 1 } := { hm with hostCalls := rfl }
  have hr := hh function m'.hostCalls _ _ vs vs' hm.heap.first.grown hm.heap.second.grown
    (hvs.imp fun _ _ hv => hv.mono hk hk')
  rw [Run.callHost, Run.callHost, hm.hostCalls]
  generalize config.host.call function m'.hostCalls vs = r,
    config.host.call function m'.hostCalls vs' = r' at hr ⊢
  cases hr with
  | value hv => exact .ok hv hnext (Nat.le_refl _) (Nat.le_refl _)
  | raised | never => exact .stop hnext (Nat.le_refl _) (Nat.le_refl _)

/-- Callees that are alike take as many frames to spell out. -/
theorem spell (frames : Nat) {f f' : Value} (hf : f.Alike c k k' f') :
    Alike c solid k k' (fun _ _ => Eq) (Run.spell frames f) (Run.spell frames f') := by
  rw [Run.spell, Run.spell, hf.spellingFrames]
  split
  · exact pure fun _ _ _ _ => rfl
  · exact exhausted

/-! ### Sequences -/

/-- Lists of steps, if values that are alike stay so while scopes are added. -/
theorem collect {f : β → Run α} {f' : β → Run α'} {bs : List β}
    (hV : ∀ {k k' l l' a a'}, V k k' a a' → k ≤ l → k' ≤ l' → V l l' a a')
    (hf : ∀ b l l', k ≤ l → k' ≤ l' → Alike c solid l l' V (f b) (f' b)) :
    Alike c solid k k' (fun l l' => List.Forall₂ (V l l')) (collect f bs) (collect f' bs) := by
  induction bs generalizing k k' with
  | nil => exact pure fun _ _ _ _ => .nil
  | cons b bs ih =>
      rw [Run.collect, Run.collect]
      refine (hf b k k' (Nat.le_refl _) (Nat.le_refl _)).bind fun l l' a a' hl hl' ha => ?_
      have hrest := ih fun b n n' hn hn' => hf b n n' (Nat.le_trans hl hn) (Nat.le_trans hl' hn')
      refine hrest.bind fun n n' as as' hn hn' has => pure fun o o' ho ho' => ?_
      refine .cons (hV ha (Nat.le_trans hn ho) (Nat.le_trans hn' ho')) ?_
      exact has.imp fun _ _ h => hV h ho ho'

/-- Statements one after the other, up to the first that returns. -/
theorem firstOf {f : β → Run (Option α)} {f' : β → Run (Option α')} {bs : List β}
    (hf : ∀ b ∈ bs, ∀ l l', k ≤ l → k' ≤ l' →
      Alike c solid l l' (fun n n' => Option.Rel (V n n')) (f b) (f' b)) :
    Alike c solid k k' (fun l l' => Option.Rel (V l l')) (firstOf f bs) (firstOf f' bs) := by
  induction bs generalizing k k' with
  | nil => exact pure fun _ _ _ _ => .none
  | cons b bs ih =>
      intro m m' hm hk hk'
      have h := hf b List.mem_cons_self k k' (Nat.le_refl _) (Nat.le_refl _) m m' hm hk hk'
      rw [Run.firstOf, Run.firstOf]
      generalize f b m = r, f' b m' = r' at h ⊢
      cases h with
      | stop hm₁ hl hl' => exact .stop hm₁ hl hl'
      | @ok o o' m₁ m₁' ho hm₁ hl hl' =>
          cases ho with
          | some ha => exact .ok (.some ha) hm₁ hl hl'
          | none =>
              have hrest := ih fun b' hb => hf b' (List.mem_cons_of_mem b hb)
              refine (hrest m₁ m₁' hm₁ ?_ ?_).widen hl hl'
              · exact Nat.le_trans hk hl
              · exact Nat.le_trans hk' hl'

theorem whileTrue {condition condition' : Run Bool} {body : Run (Option α)}
    {body' : Run (Option α')} (rounds : Nat)
    (hc : Alike c solid k k' (fun _ _ => Eq) condition condition')
    (hb : Alike c solid k k' (fun n n' => Option.Rel (V n n')) body body') :
    Alike c solid k k' (fun l l' => Option.Rel (V l l')) (whileTrue condition body rounds)
      (whileTrue condition' body' rounds) := by
  induction rounds with
  | zero => exact fun m m' hm _ _ => .stopped hm _
  | succ rounds ih =>
      intro m m' hm hk hk'
      have h := hc m m' hm hk hk'
      rw [Run.whileTrue, Run.whileTrue]
      generalize condition m = r, condition' m' = r' at h ⊢
      cases h with
      | stop hm₁ hl hl' => exact .stop hm₁ hl hl'
      | @ok b b' m₁ m₁' heq hm₁ hl hl' =>
          cases heq
          cases b with
          | false => exact .ok .none hm₁ hl hl'
          | true =>
              have h₁ := hb m₁ m₁' hm₁ (Nat.le_trans hk hl) (Nat.le_trans hk' hl')
              refine Result.Alike.widen ?_ hl hl'
              dsimp only
              generalize body m₁ = r, body' m₁' = r' at h₁ ⊢
              cases h₁ with
              | stop hm₂ hn hn' => exact .stop hm₂ hn hn'
              | @ok o o' m₂ m₂' ho hm₂ hn hn' =>
                  cases ho with
                  | some ha => exact .ok (.some ha) hm₂ hn hn'
                  | none =>
                      refine (ih m₂ m₂' hm₂ ?_ ?_).widen hn hn'
                      · exact Nat.le_trans hk (Nat.le_trans hl hn)
                      · exact Nat.le_trans hk' (Nat.le_trans hl' hn')

end Alike

end Run

/-! ### Tasks -/

/-- Whether executing a statement may bind a name in the scope it is executed in. -/
def Node.declares : Node → Bool
  | .declare .. => true
  | .function .. => true
  | .branch _ thenBranch elseBranch => thenBranch.declares || elseBranch.declares
  | .loop _ body => body.declares
  | _ => false

/-- Lists of values that are alike. -/
abbrev ValuesAlike (c : Correspondence) (k k' : Nat) : List Value → List Value → Prop :=
  List.Forall₂ (Value.Alike c k k')

/-- What statements give is alike. -/
abbrev ReturnsAlike (c : Correspondence) (k k' : Nat) : Option Value → Option Value → Prop :=
  Option.Rel (Value.Alike c k k')

/-- With so many frames left, every task is in step with itself. -/
structure InStep (config : Config) (c : Correspondence) (n : Nat) : Prop where
  evaluate : ∀ solid k k' e, Run.Alike c solid k k' (Value.Alike c) (evaluate config n e)
    (evaluate config n e)
  evaluateAll : ∀ solid k k' es, Run.Alike c solid k k' (ValuesAlike c) (evaluateAll config n es)
    (evaluateAll config n es)
  invoke : ∀ solid k k' f f' vs vs' paren, f.Alike c k k' f' → ValuesAlike c k k' vs vs' →
    Run.Alike c solid k k' (Value.Alike c) (invoke config n f vs paren)
      (invoke config n f' vs' paren)
  block : ∀ solid k k' i j statements, c.Pairs i j → i < k → j < k' →
    Run.Alike c solid k k' (ReturnsAlike c) (block config n i statements)
      (block config n j statements)
  execute : ∀ solid k k' s, solid ∨ s.declares = false →
    Run.Alike c solid k k' (ReturnsAlike c) (execute config n s) (execute config n s)

section Tasks

open Run (Alike)

variable {config : Config} {n : Nat}

/-! Values that are spelled alike are told of in the same way. -/

theorem called_text {f f' : Value} (hf : f.dataText = f'.dataText) (depth : Nat) :
    (Event.called f depth).text = (Event.called f' depth).text := by
  rw [Event.text, Event.text, hf]

theorem returned_text {v v' f f' : Value} (hv : v.display = v'.display)
    (hf : f.dataText = f'.dataText) : (Event.returned v f).text = (Event.returned v' f').text := by
  rw [Event.text, Event.text, hv, hf]

theorem defined_text {v v' : Value} (hv : v.display = v'.display) (name : Json) :
    (Event.defined name v).text = (Event.defined name v').text := by
  rw [Event.text, Event.text, hv]

/-! ### Expressions -/

/-- An operator that gives the same on both machines, and makes no function. -/
theorem ofExcept_alike {r r' : Except Fault Value} (heq : r = r')
    (hr : ∀ v, r = .ok v → v.function? = none) :
    Alike c solid k k' (Value.Alike c) (Run.ofExcept r) (Run.ofExcept r') := by
  subst heq
  exact Alike.ofExcept (fun v hv => ⟨v, hv, fun _ _ _ _ => .plain (hr v hv)⟩) fun _ h => h

theorem evaluate_alike (h : InStep config c n) (solid : Prop) (k k' : Nat) (e : Node) :
    Alike c solid k k' (Value.Alike c) (evaluate config (n + 1) e) (evaluate config (n + 1) e) := by
  cases e with
  | literal v => exact Alike.pure fun _ _ _ _ => .plain (Value.function?_ofNode v)
  | grouping e => exact h.evaluate solid k k' e
  | reference name => exact Alike.lookup name
  | assign name e =>
      rw [evaluate_assign]
      refine (h.evaluate solid k k' e).bind fun l l' v v' _ _ hv => ?_
      refine (Alike.assign name hv).bind fun n n' _ _ hn hn' _ => Alike.pure fun o o' ho ho' => ?_
      exact hv.mono (Nat.le_trans hn ho) (Nat.le_trans hn' ho')
  | logical l o r =>
      rw [evaluate_logical]
      refine (h.evaluate solid k k' l).bind fun l l' v v' _ _ hv => ?_
      rw [hv.decidesAlone o]
      split
      · exact Alike.pure fun _ _ hn hn' => hv.mono hn hn'
      · exact h.evaluate solid l l' r
  | unary o e =>
      rw [evaluate_unary]
      refine (h.evaluate solid k k' e).bind fun l l' v v' _ _ hv => ?_
      exact ofExcept_alike (hv.applyUnary o) fun _ hw => applyUnary_function? hw
  | binary l o r =>
      rw [evaluate_binary]
      refine (h.evaluate solid k k' l).bind fun l l' a a' _ _ ha => ?_
      refine (h.evaluate solid l l' r).bind fun n n' b b' hn hn' hb => ?_
      exact ofExcept_alike ((ha.mono hn hn').applyBinary hb o) fun _ hw => applyBinary_function? hw
  | call e paren es =>
      rw [evaluate_call]
      refine (h.evaluate solid k k' e).bind fun l l' f f' _ _ hf => ?_
      refine (h.evaluateAll solid l l' es).bind fun n n' vs vs' hn hn' hvs => ?_
      exact h.invoke solid n n' f f' vs vs' paren (hf.mono hn hn') hvs
  | _ => exact Alike.fault .malformed

theorem announceCall_alike {f f' : Value} (hf : f.Alike c k k' f') (depth : Nat) :
    Alike c solid k k' (fun _ _ => Eq) (announceCall config n f depth)
      (announceCall config n f' depth) :=
  (Alike.spell n hf).bind fun _ _ _ _ _ _ _ => Alike.tell config (called_text hf.dataText depth) rfl

/-- Bodies of functions that are alike run in new scopes that are counterparts. -/
theorem callInside_alike (hh : config.host.InStep c) (h : InStep config c n) {f f' : Value}
    {vs vs' : List Value}
    (hf : f.Alike c k k' f') (hvs : ValuesAlike c k k' vs vs') :
    Alike c solid k k' (Value.Alike c) (callInside config n f vs) (callInside config n f' vs') := by
  cases hf with
  | @function name params body i j hr hi hj =>
      refine (Alike.namesOf params).bind fun l l' names names' hl hl' heq => ?_
      subst heq
      refine (Alike.newScope hr (Nat.lt_of_lt_of_le hi hl) (Nat.lt_of_lt_of_le hj hl')
        (BindingsAlike.mono (BindingsRel.zip hvs names) hl hl')).bind fun n₁ n₁' id id' _ _ hid => ?_
      refine (h.block solid n₁ n₁' id id' body hid.1 hid.2.1 hid.2.2).bind
        fun n₂ n₂' returned returned' _ _ hr => Alike.pure fun _ _ ho ho' => ?_
      cases hr with
      | none => exact .plain rfl
      | some hv => exact hv.mono ho ho'
  | plain hplain =>
      cases f with
      | function => cases hplain
      | native name arity function => exact Alike.callHost hh function hvs
      | _ => exact Alike.fault .malformed

/-- Calls of values that are alike. -/
theorem invoke_alike (hh : config.host.InStep c) (h : InStep config c n) (solid : Prop) (k k' : Nat) (f f' : Value)
    (vs vs' : List Value) (paren : Token) (hf : f.Alike c k k' f')
    (hvs : ValuesAlike c k k' vs vs') :
    Alike c solid k k' (Value.Alike c) (invoke config (n + 2) f vs paren)
      (invoke config (n + 2) f' vs' paren) := by
  rw [invoke_add_two, invoke_add_two]
  refine Alike.openCalls.bind fun l l' depth depth' hl hl' heq => ?_
  subst heq
  rw [← hf.checkCall config, ← hvs.length_eq]
  refine Alike.bind (V := fun _ _ => Eq) (Alike.ofExcept (fun a ha => ⟨a, ha, fun _ _ _ _ => rfl⟩)
    fun _ h => h) fun l₁ l₁' _ _ hl₁ hl₁' _ => ?_
  have hk := Nat.le_trans hl hl₁
  have hk' := Nat.le_trans hl' hl₁'
  refine Alike.bind (Alike.counted paren (announceCall_alike (hf.mono hk hk') _)
    fun l₂ l₂' hl₂ hl₂' => callInside_alike hh h (hf.mono (Nat.le_trans hk hl₂)
      (Nat.le_trans hk' hl₂')) ?_) fun l₂ l₂' v v' hl₂ hl₂' hv => ?_
  · exact hvs.imp fun _ _ hv => hv.mono (Nat.le_trans hk hl₂) (Nat.le_trans hk' hl₂')
  · refine (Alike.tell config (returned_text hv.display hf.dataText) rfl).bind fun l₃ l₃' _ _ hl₃ hl₃' _ => ?_
    exact Alike.pure fun _ _ ho ho' => hv.mono (Nat.le_trans hl₃ ho) (Nat.le_trans hl₃' ho')

theorem initialValue_alike (h : InStep config c n) (solid : Prop) (k k' : Nat) (e : Node) :
    Alike c solid k k' (Value.Alike c) (initialValue config n e) (initialValue config n e) := by
  by_cases he : e = .null
  · subst he
    exact Alike.pure fun _ _ _ _ => .plain rfl
  · rw [initialValue_of_ne config n he]
    exact h.evaluate solid k k' e

theorem executeOptional_alike (h : InStep config c n) (solid : Prop) (k k' : Nat) (s : Node)
    (hs : solid ∨ s.declares = false) :
    Alike c solid k k' (ReturnsAlike c) (executeOptional config n s)
      (executeOptional config n s) := by
  by_cases hnull : s = .null
  · subst hnull
    exact Alike.pure fun _ _ _ _ => .none
  · rw [executeOptional_of_ne config n hnull]
    exact h.execute solid k k' s hs

/-- Only a declaration binds a name in the current scope, and then that scope is solid. -/
theorem execute_alike (h : InStep config c n) (solid : Prop) (k k' : Nat) (s : Node)
    (hs : solid ∨ s.declares = false) :
    Alike c solid k k' (ReturnsAlike c) (execute config (n + 1) s) (execute config (n + 1) s) := by
  have hnone : ∀ {l l'}, Alike c solid l l' (ReturnsAlike c) (pure none) (pure none) :=
    Alike.pure fun _ _ _ _ => .none
  cases s with
  | expression e =>
      rw [execute_expression]
      exact (h.evaluate solid k k' e).bind fun _ _ _ _ _ _ _ => hnone
  | print e =>
      rw [execute_print]
      refine (h.evaluate solid k k' e).bind fun l l' v v' _ _ hv => ?_
      rw [hv.display]
      exact (Alike.printLine _).bind fun _ _ _ _ _ _ _ => hnone
  | declare name e =>
      rw [execute_declare]
      refine (initialValue_alike h solid k k' e).bind fun l l' v v' _ _ hv => ?_
      -- what declares something is executed in a solid scope only
      have hsolid : solid := hs.resolve_right nofun
      refine (Alike.define name hsolid hv).bind fun _ _ _ _ _ _ _ => ?_
      exact (Alike.tell config (defined_text hv.display _) rfl).bind fun _ _ _ _ _ _ _ => hnone
  | block statements =>
      rw [execute_block]
      refine Alike.currentScope.bind fun l l' o o' _ _ ho => ?_
      refine (Alike.newScope ho.1 ho.2.1 ho.2.2 .nil).bind fun n₁ n₁' id id' _ _ hid => ?_
      exact h.block solid n₁ n₁' id id' statements hid.1 hid.2.1 hid.2.2
  | branch cond s s' =>
      have hs₁ : solid ∨ s.declares = false := hs.imp_right fun h => (Bool.or_eq_false_iff.mp h).1
      have hs₂ : solid ∨ s'.declares = false := hs.imp_right fun h => (Bool.or_eq_false_iff.mp h).2
      rw [execute_branch]
      refine (h.evaluate solid k k' cond).bind fun l l' v v' _ _ hv => ?_
      rw [hv.isTruthy]
      refine (Alike.tell config rfl rfl).bind fun l l' _ _ _ _ _ => ?_
      split
      · exact h.execute solid l l' s hs₁
      · exact executeOptional_alike h solid l l' s' hs₂
  | loop cond s =>
      rw [execute_loop]
      refine Alike.whileTrue config.rounds ?_ (h.execute solid k k' s hs)
      exact (h.evaluate solid k k' cond).map fun _ _ _ _ hv => hv.isTruthy
  | function name params body =>
      rw [execute_function]
      refine Alike.currentScope.bind fun l l' o o' _ _ ho => ?_
      have hsolid : solid := hs.resolve_right nofun
      refine (Alike.define name hsolid (.function ho.1 ho.2.1 ho.2.2)).bind fun _ _ _ _ _ _ _ => ?_
      exact (Alike.tell config rfl rfl).bind fun _ _ _ _ _ _ _ => hnone
  | returns keyword e =>
      rw [execute_returns]
      exact (initialValue_alike h solid k k' e).map fun _ _ _ _ hv => .some hv
  | _ => exact Alike.fault .malformed

/-- **Two machines that are alike stay in step**, whatever task is run on both of them, as long as the
natives do. -/
theorem inStep {config : Config} {c : Correspondence} (hh : config.host.InStep c) (n : Nat) :
    InStep config c n := by
  induction n using Nat.strongRecOn with
  | ind n ih =>
      match n, ih with
      | 0, _ =>
          exact ⟨fun _ _ _ _ => Alike.exhausted, fun _ _ _ _ => Alike.exhausted,
            fun _ _ _ _ _ _ _ _ _ _ => Alike.exhausted, fun _ _ _ _ _ _ _ _ _ => Alike.exhausted,
            fun _ _ _ _ _ => Alike.exhausted⟩
      | n + 1, ih =>
          have h := ih n (Nat.lt_succ_self n)
          refine ⟨evaluate_alike h, fun solid k k' es => ?_, ?_,
            fun solid k k' i j statements hp hi hj => ?_, execute_alike h⟩
          · exact Alike.collect Value.Alike.mono fun e l l' _ _ => h.evaluate solid l l' e
          · match n, ih with
            | 0, _ => exact fun _ _ _ _ _ _ _ _ _ _ => Alike.exhausted
            | n + 1, ih => exact invoke_alike hh (ih n (by omega))
          · exact Alike.inScope hp hi hj (Alike.firstOf fun s _ l l' _ _ =>
              h.execute True l l' s (.inl trivial))

end Tasks

/-! ### A machine and another heap -/

/-- The same scopes inside the same scopes, with the same bindings in those of a set. -/
structure Heap.SameOn (L : Nat → Prop) (h h' : Heap Value) : Prop where
  size : h'.size = h.size
  links : ∀ i, (h'.get? i).map (·.enclosing) = (h.get? i).map (·.enclosing)
  scopes : ∀ i, L i → h'.get? i = h.get? i

theorem Heap.SameOn.refl (L : Nat → Prop) (h : Heap Value) : h.SameOn L h :=
  ⟨rfl, fun _ => rfl, fun _ _ => rfl⟩

/-- Every scope of a set is its own counterpart. -/
def Correspondence.onSet (L : Nat → Prop) (h h' : Heap Value) : Correspondence where
  left := id
  right := id
  Pairs i j := i = j ∧ L i
  first := h
  second := h'
  left_eq _ := rfl
  right_eq _ := rfl
  left_inj h₁ h₂ := h₁.1.trans h₂.1.symm
  right_inj h₁ h₂ := h₁.1.symm.trans h₂.1

/-- A set of scopes that the machine does not leave: it holds the current scope, what is around its
scopes, the scopes of functions bound in them, and all scopes still to come. -/
structure Machine.Closed (L : Nat → Prop) (m : Machine) : Prop where
  current : L m.current
  outer : ∀ i s o, L i → m.heap.get? i = some s → s.enclosing = some o → L o
  closure : ∀ i s b o, L i → m.heap.get? i = some s → b ∈ s.bindings → b.2.closure? = some o → L o
  fresh : ∀ i, m.heap.size ≤ i → L i

/-- In a closed set of scopes, every scope is like itself. -/
theorem Machine.WellFormed.scope_alike {L : Nat → Prop} {m : Machine} (hm : m.WellFormed)
    (hL : m.Closed L) {h' : Heap Value} (hs : m.heap.SameOn L h') {i : Nat} {s : Scope Value}
    (hi : L i) (hget : m.heap.get? i = some s) :
    s.Alike (.onSet L m.heap h') m.heap.size h'.size s := by
  constructor
  · cases ho : s.enclosing with
    | none => exact .none
    | some o => exact .some ⟨rfl, hL.outer i s o hi hget ho⟩
  · refine List.forall₂_same.mpr fun b hb => ⟨rfl, .refl fun o ho => ?_⟩
    have hlt : o < m.heap.size := hm.holds s (Array.mem_of_getElem? hget) b hb o ho
    exact ⟨⟨rfl, hL.closure i s b o hi hget hb ho⟩, hlt, hs.size ▸ hlt⟩

/-- On two heaps that agree on a closed set of scopes, a well-formed machine is alike. -/
theorem Machine.WellFormed.alike {L : Nat → Prop} {m : Machine} (hm : m.WellFormed)
    (hL : m.Closed L) {h' : Heap Value} (hs : m.heap.SameOn L h') :
    m.Alike (.onSet L m.heap h') True { m with heap := h' } where
  heap := by
    refine ⟨⟨hm.rooted.descends, Nat.le_refl _, fun _ _ _ h => absurd rfl h, fun _ _ _ => rfl⟩,
      ⟨?_, Nat.le_refl _, fun _ _ _ h => absurd rfl h, fun _ _ _ => rfl⟩, fun d => ?_, ?_⟩
    · exact (hm.rooted.of_links hs.links).descends
    · rw [hs.size]
      exact ⟨rfl, hL.fresh _ (Nat.le_add_right _ _)⟩
    · rintro i j s s' ⟨rfl, hi⟩ hget hget'
      rw [hs.scopes i hi, hget] at hget'
      cases hget'
      exact hm.scope_alike hL hs hi hget
  current := ⟨rfl, hL.current⟩
  pairs _ := ⟨rfl, hL.current⟩
  lt := hm.current
  lt' := hs.size ▸ hm.current
  depth := rfl
  lastCall := rfl
  hostCalls := rfl
  output := rfl
  trace := rfl

end Lox
