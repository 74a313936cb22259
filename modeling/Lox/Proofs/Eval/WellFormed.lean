import Lox.Proofs.Eval.Stops
import Lox.Proofs.Scope.Chain

/-!
# Machines stay well formed

A machine is *well formed* (`Machine.WellFormed`) when its heap is rooted, its current scope is one of
the heap, and so is the scope of every function that is bound somewhere.

A function keeps the scope it was made in.  To say so, the invariant also holds a set `B` of
functions, and with it a set `D` of moments that is closed under `Enters`: whatever a declaration
makes or a native gives at a moment in `D` is in `B`.

* `Result.Stays B m Q r`: started on `m`, a step ends on a sound machine whose heap has only grown,
  and a value it gives is in `Q`.
* `soundly`: this holds of all tasks, by induction on the frames left.
* `Moment.Sound.result`, `Enters.sound`: so it holds at every moment of a run, and at the end of the
  task that starts there.
-/

namespace Lox

variable {α β : Type}

/-! ### The scopes of functions -/

namespace Value

/-- The function of a program that a value is. -/
def function? : Value → Option Value
  | .function name params body closure => some (.function name params body closure)
  | _ => none

/-- The scope of that function. -/
def closure? (v : Value) : Option Nat :=
  match v.function? with
  | some (.function _ _ _ closure) => some closure
  | _ => none

/-- The scope of a function is one of the first so many. -/
def Within (k : Nat) (v : Value) : Prop := ∀ i, v.closure? = some i → i < k

/-- A function is in `B`. -/
def Only (B : Value → Prop) (v : Value) : Prop := ∀ f, v.function? = some f → B f

/-- A value that may be held while there are so many scopes. -/
def Fits (B : Value → Prop) (k : Nat) (v : Value) : Prop := v.Within k ∧ v.Only B

namespace Fits

variable {B : Value → Prop} {k k' : Nat} {v : Value}

/-- What fits goes on to fit while scopes are added. -/
theorem mono (h : v.Fits B k) (hk : k ≤ k') : v.Fits B k' :=
  ⟨fun i hi => Nat.lt_of_lt_of_le (h.1 i hi) hk, h.2⟩

/-- A value that is no function. -/
theorem plain (h : v.function? = none) : v.Fits B k := by
  refine ⟨fun i hi => ?_, fun f hf => ?_⟩
  · rw [closure?, h] at hi
    cases hi
  · rw [h] at hf
    cases hf

theorem function {name : Json} {params : List Json} {body : List Node} {closure : Nat}
    (hk : closure < k) (hB : B (.function name params body closure)) :
    (Value.function name params body closure).Fits B k := by
  refine ⟨fun i hi => ?_, fun f hf => ?_⟩
  · cases hi
    exact hk
  · cases hf
    exact hB

end Fits

end Value

/-- A literal is no function. -/
theorem Value.function?_ofNode (node : Node) : (Value.ofNode node).function? = none := by
  cases node <;> rfl

/-- An operator in front of its operand makes no function. -/
theorem applyUnary_function? {o : Token} {a v : Value} (h : applyUnary o a = .ok v) :
    v.function? = none := by
  unfold applyUnary at h
  split at h
  · cases h
    rfl
  · split at h
    · cases h
      rfl
    · cases h
  · cases h

theorem arithmetic?_function? {kind : Kind} {x y : Number} {v : Value}
    (h : arithmetic? kind x y = some v) : v.function? = none := by
  cases kind <;> cases h <;> rfl

/-- Nor does one between two operands. -/
theorem applyBinary_function? {o : Token} {a b v : Value} (h : applyBinary o a b = .ok v) :
    v.function? = none := by
  unfold applyBinary at h
  split at h
  · cases h
    rfl
  · cases h
    rfl
  · split at h
    · cases h
      rfl
    · cases h
      rfl
    · cases h
  · split at h
    · split at h
      · rename_i hv
        cases h
        exact arithmetic?_function? hv
      · cases h
    · cases h

/-! ### Machines -/

/-- The heap is rooted, and all scopes that the machine knows are in the heap. -/
structure Machine.WellFormed (m : Machine) : Prop where
  rooted : m.heap.Rooted
  current : m.current < m.heap.size
  holds : m.heap.Holds (Value.Within m.heap.size)

/-- Well formed, and all functions bound are in `B`. -/
structure Machine.Sound (B : Value → Prop) (m : Machine) : Prop where
  rooted : m.heap.Rooted
  current : m.current < m.heap.size
  holds : m.heap.Holds (Value.Fits B m.heap.size)

/-- From one machine to a later one. -/
structure Machine.Leads (B : Value → Prop) (m m' : Machine) : Prop where
  sound : m'.Sound B
  grows : m.heap.Grows m'.heap

theorem Heap.Holds.mono {P Q : α → Prop} {h : Heap α} (hh : h.Holds P) (hPQ : ∀ a, P a → Q a) :
    h.Holds Q :=
  fun s hs b hb => hPQ _ (hh s hs b hb)

variable {B : Value → Prop} {m m' : Machine}

namespace Machine

theorem Sound.wellFormed (h : m.Sound B) : m.WellFormed :=
  ⟨h.rooted, h.current, h.holds.mono fun _ hv => hv.1⟩

/-- A well-formed machine is sound for any functions at all. -/
theorem WellFormed.sound (h : m.WellFormed) : m.Sound fun _ => True :=
  ⟨h.rooted, h.current, h.holds.mono fun _ hv => ⟨hv, fun _ _ => trivial⟩⟩

/-- Nothing about scopes has changed. -/
theorem Sound.same (h : m.Sound B) (hh : m'.heap = m.heap) (hc : m'.current = m.current) :
    m.Leads B m' := by
  refine ⟨⟨?_, ?_, ?_⟩, ?_⟩
  · rw [hh]
    exact h.rooted
  · rw [hh, hc]
    exact h.current
  · rw [hh]
    exact h.holds
  · rw [hh]
    exact Heap.Grows.refl _

theorem Leads.trans {m'' : Machine} (h : m.Leads B m') (h' : m'.Leads B m'') : m.Leads B m'' :=
  ⟨h'.sound, h.grows.trans h'.grows⟩

/-- A value that fits may be bound anywhere. -/
theorem Sound.define (h : m.Sound B) (id : Nat) (name : Name) {v : Value}
    (hv : v.Fits B m.heap.size) :
    m.Leads B { m with heap := m.heap.define id name v } := by
  refine ⟨⟨h.rooted.define id name v, ?_, ?_⟩, Heap.Grows.define _ _ _ _⟩
  · rw [Heap.size_define]
    exact h.current
  · rw [Heap.size_define]
    exact h.holds.define id name hv

/-- A new scope inside one of the heap keeps the machine sound, whatever fits is bound in it. -/
theorem Sound.newScope (h : m.Sound B) {outer : Nat} (ho : outer < m.heap.size)
    {bindings : List (Name × Value)} (hb : ∀ b ∈ bindings, b.2.Fits B m.heap.size) :
    m.Leads B { m with heap := (m.heap.push (some outer)).defineAll m.heap.size bindings } := by
  refine ⟨⟨(h.rooted.push ho).defineAll _ _, ?_, ?_⟩, ?_⟩
  · rw [Heap.size_defineAll, Heap.size_push]
    exact Nat.lt_succ_of_lt h.current
  · rw [Heap.size_defineAll, Heap.size_push]
    refine Heap.Holds.defineAll (Heap.Holds.push ?_ _) _ fun b hm => ?_
    · exact h.holds.mono fun v hv => hv.mono (Nat.le_succ _)
    · exact (hb b hm).mono (Nat.le_succ _)
  · exact (Heap.Grows.push _ _).trans (Heap.Grows.defineAll _ _ _)

end Machine

/-! ### Steps -/

/-- Started on `m`, a step ends on a sound machine whose heap has only grown; a value it gives is in
`Q`, given the number of scopes there are then. -/
inductive Result.Stays (B : Value → Prop) (m : Machine) (Q : Nat → α → Prop) : Result α → Prop where
  | ok {a : α} {m' : Machine} (ha : Q m'.heap.size a) (hm : m.Leads B m') : Stays B m Q (.ok a m')
  | stop {why : Stop} {m' : Machine} (hm : m.Leads B m') : Stays B m Q (.stop why m')

namespace Result.Stays

variable {P Q : Nat → α → Prop} {r : Result α}

theorem of_ok {a : α} (h : r.Stays B m Q) (hr : r = .ok a m') :
    Q m'.heap.size a ∧ m.Leads B m' := by
  rw [hr] at h
  cases h with
  | ok ha hm => exact ⟨ha, hm⟩

/-- However a step ends, its machine is a later one. -/
theorem machine (h : r.Stays B m Q) : m.Leads B r.machine := by
  cases h with
  | ok _ hm => exact hm
  | stop hm => exact hm

/-- Sequencing, where the second step knows how the first one came to its value. -/
theorem bind {p : Run α} {f : α → Run β} {Q : Nat → β → Prop} (hp : (p m).Stays B m P)
    (hf : ∀ a m', p m = .ok a m' → P m'.heap.size a → m.Leads B m' → (f a m').Stays B m' Q) :
    ((p >>= f) m).Stays B m Q := by
  show (Run.andThen p f m).Stays B m Q
  rw [Run.andThen]
  generalize p m = r at hp hf ⊢
  cases hp with
  | stop hm => exact .stop hm
  | @ok a m' ha hm =>
      have hf := hf a m' rfl ha hm
      dsimp only
      generalize f a m' = r at hf ⊢
      cases hf with
      | ok hb hm' => exact .ok hb (hm.trans hm')
      | stop hm' => exact .stop (hm.trans hm')

theorem pure (hm : m.Sound B) {a : α} (ha : Q m.heap.size a) :
    ((Pure.pure a : Run α) m).Stays B m Q :=
  .ok ha (hm.same rfl rfl)

theorem map {p : Run α} {f : α → β} {Q : Nat → β → Prop} (hp : (p m).Stays B m P)
    (hf : ∀ k a, P k a → Q k (f a)) : ((f <$> p) m).Stays B m Q :=
  hp.bind fun _ _ _ ha hm => pure hm.sound (hf _ _ ha)

theorem fault (hm : m.Sound B) (f : Fault) : ((Run.fault f : Run α) m).Stays B m Q :=
  .stop (hm.same rfl rfl)

theorem exhausted (hm : m.Sound B) : ((Run.exhausted : Run α) m).Stays B m Q :=
  .stop (hm.same rfl rfl)

theorem ofExcept (hm : m.Sound B) {r : Except Fault α} (hr : ∀ a, r = .ok a → Q m.heap.size a) :
    (Run.ofExcept r m).Stays B m Q := by
  cases r with
  | ok a => exact pure hm (hr a rfl)
  | error f => exact fault hm f

theorem tell (hm : m.Sound B) (config : Config) (event : Event) :
    (Run.tell config event m).Stays B m fun _ _ => True := by
  obtain ⟨trace, h⟩ | h := Run.tell_cases config event m
  · exact h ▸ .ok trivial (hm.same rfl rfl)
  · exact h ▸ .stop (hm.same rfl rfl)

theorem spell (hm : m.Sound B) (frames : Nat) (callee : Value) :
    (Run.spell frames callee m).Stays B m fun _ _ => True := by
  rw [Run.spell]
  split
  · exact pure hm trivial
  · exact exhausted hm

theorem lookup (hm : m.Sound B) (t : Token) : (Run.lookup t m).Stays B m (Value.Fits B) := by
  rw [Run.lookup]
  split
  · exact .stop (hm.same rfl rfl)
  · split
    · rename_i v hv
      exact .ok (hm.holds.lookup? hv) (hm.same rfl rfl)
    · exact .stop (hm.same rfl rfl)

theorem assign (hm : m.Sound B) (t : Token) {v : Value} (hv : v.Fits B m.heap.size) :
    (Run.assign t v m).Stays B m fun _ _ => True := by
  rw [Run.assign]
  split
  · exact .stop (hm.same rfl rfl)
  · split
    · exact .ok trivial (hm.define _ _ hv)
    · exact .stop (hm.same rfl rfl)

theorem define (hm : m.Sound B) (t : Token) {v : Value} (hv : v.Fits B m.heap.size) :
    (Run.define t v m).Stays B m fun _ _ => True := by
  rw [Run.define]
  split
  · exact .stop (hm.same rfl rfl)
  · exact .ok trivial (hm.define _ _ hv)

theorem namesOf (hm : m.Sound B) (names : List Json) :
    (Run.namesOf names m).Stays B m fun _ found => Name.ofJsonAll? names = some found := by
  rw [Run.namesOf]
  split
  · rename_i found hfound
    exact .ok hfound (hm.same rfl rfl)
  · exact .stop (hm.same rfl rfl)

/-- The new scope is one of the heap. -/
theorem newScope (hm : m.Sound B) {outer : Nat} (ho : outer < m.heap.size)
    {bindings : List (Name × Value)} (hb : ∀ b ∈ bindings, b.2.Fits B m.heap.size) :
    (Run.newScope outer bindings m).Stays B m fun k id => id < k := by
  refine .ok ?_ (hm.newScope ho hb)
  simp only [Heap.size_defineAll, Heap.size_push]
  exact Nat.lt_succ_self _

/-- Inside another scope of the heap, and back again. -/
theorem inScope {id : Nat} {p : Run α} (hm : m.Sound B)
    (hp : (p { m with current := id }).Stays B { m with current := id } Q) :
    (Run.inScope id p m).Stays B m Q := by
  have hback : ∀ m', Machine.Leads B { m with current := id } m' →
      m.Leads B { m' with current := m.current } := fun m' h =>
    ⟨⟨h.sound.rooted, Nat.lt_of_lt_of_le hm.current h.grows.size_le, h.sound.holds⟩, h.grows⟩
  rw [Run.inScope]
  generalize p { m with current := id } = r at hp ⊢
  cases hp with
  | ok ha h => exact .ok ha (hback _ h)
  | stop h => exact .stop (hback _ h)

/-- A call that is counted stays in order if what is done once it is entered does. -/
theorem counted {announce : Run Unit} {p : Run α} {paren : Token}
    (hp : ((announce >>= fun _ => p) { m with depth := m.depth + 1, lastCall := some paren }).Stays B
      { m with depth := m.depth + 1, lastCall := some paren } Q) :
    (Run.counted paren announce p m).Stays B m Q := by
  have hleft : ∀ m₁ : Machine, Machine.Leads B { m with depth := m.depth + 1, lastCall := some paren } m₁ →
      m.Leads B { m₁ with depth := m₁.depth - 1 } := fun _ h =>
    ⟨⟨h.sound.rooted, h.sound.current, h.sound.holds⟩, h.grows⟩
  show ((announce >>= fun _ => Run.leaving p) _).Stays B m Q
  cases ha : announce { m with depth := m.depth + 1, lastCall := some paren } with
  | stop why m₁ =>
      rw [Run.bind_of_stop ha] at hp ⊢
      cases hp with
      | stop h => exact .stop ⟨h.sound, h.grows⟩
  | ok _ m₁ =>
      rw [Run.bind_of_ok ha] at hp ⊢
      rw [Run.leaving]
      generalize p m₁ = r at hp ⊢
      cases hp with
      | ok ha h => exact .ok ha (hleft _ h)
      | stop h => exact .stop (hleft _ h)

/-- Values gathered one after the other, each on the machine that the ones before leave. -/
theorem collect {f : β → Run α} {bs : List β} (hm : m.Sound B)
    (hQ : ∀ k k' a, k ≤ k' → Q k a → Q k' a)
    (hf : ∀ before b behind as m₁, bs = before ++ b :: behind →
      Run.collect f before m = .ok as m₁ → m₁.Sound B → (f b m₁).Stays B m₁ Q) :
    (Run.collect f bs m).Stays B m fun k as => ∀ a ∈ as, Q k a := by
  induction bs generalizing m with
  | nil => exact pure hm fun a ha => absurd ha List.not_mem_nil
  | cons b bs ih =>
      rw [Run.collect]
      refine (hf [] b bs [] m rfl rfl hm).bind fun a m₁ h₁ ha hm₁ => ?_
      refine (ih hm₁.sound fun before b' behind as m₂ hbs has => ?_).bind fun as m₂ _ has hm₂ => ?_
      · -- the item in front has been run as well by then
        refine hf (b :: before) b' behind (a :: as) m₂ (by rw [hbs]; rfl) ?_
        show Run.andThen (f b) _ m = _
        rw [Run.andThen, h₁]
        show Run.andThen (Run.collect f before) _ m₁ = _
        rw [Run.andThen, has]
        rfl
      · refine pure hm₂.sound (List.forall_mem_cons.mpr ⟨?_, has⟩)
        exact hQ _ _ _ hm₂.grows.size_le ha

/-- Statements one after the other, up to the first that returns. -/
theorem firstOf {f : β → Run (Option α)} {bs : List β} (hm : m.Sound B)
    (hf : ∀ before b behind m₁, bs = before ++ b :: behind →
      Run.firstOf f before m = .ok none m₁ → m₁.Sound B →
      (f b m₁).Stays B m₁ fun k o => ∀ a, o = some a → Q k a) :
    (Run.firstOf f bs m).Stays B m fun k o => ∀ a, o = some a → Q k a := by
  induction bs generalizing m with
  | nil => exact pure hm fun a ha => by cases ha
  | cons b bs ih =>
      have h := hf [] b bs m rfl rfl hm
      rw [Run.firstOf]
      generalize hr : f b m = r at h ⊢
      cases h with
      | stop hm₁ => exact .stop hm₁
      | @ok o m₁ ho hm₁ =>
          cases o with
          | some a => exact .ok ho hm₁
          | none =>
              have hrest := ih hm₁.sound fun before b' behind m₂ hbs h₂ => by
                refine hf (b :: before) b' behind m₂ (by rw [hbs]; rfl) ?_
                rw [Run.firstOf, hr]
                exact h₂
              dsimp only
              generalize Run.firstOf f bs m₁ = r' at hrest ⊢
              cases hrest with
              | ok ho' hm₂ => exact .ok ho' (hm₁.trans hm₂)
              | stop hm₂ => exact .stop (hm₁.trans hm₂)

/-- A loop, some rounds of which have been made already. -/
theorem whileTrue {condition : Run Bool} {body : Run (Option α)} {start : Machine} (rounds : Nat)
    (hr : Rounds condition body start m) (hm : m.Sound B)
    (hc : ∀ m₁, Rounds condition body start m₁ → m₁.Sound B →
      (condition m₁).Stays B m₁ fun _ _ => True)
    (hb : ∀ m₁ m₂, Rounds condition body start m₁ → condition m₁ = .ok true m₂ → m₂.Sound B →
      (body m₂).Stays B m₂ fun k o => ∀ a, o = some a → Q k a) :
    (Run.whileTrue condition body rounds m).Stays B m fun k o => ∀ a, o = some a → Q k a := by
  induction rounds generalizing m with
  | zero => exact .stop (hm.same rfl rfl)
  | succ rounds ih =>
      have h := hc m hr hm
      rw [Run.whileTrue]
      generalize hcm : condition m = r at h ⊢
      cases h with
      | stop hm₁ => exact .stop hm₁
      | @ok b m₁ _ hm₁ =>
          cases b with
          | false => exact .ok (fun a ha => by cases ha) hm₁
          | true =>
              have h' := hb m m₁ hr hcm hm₁.sound
              dsimp only
              generalize hbm : body m₁ = r' at h' ⊢
              cases h' with
              | stop hm₂ => exact .stop (hm₁.trans hm₂)
              | @ok o m₂ ho hm₂ =>
                  have hround := hm₁.trans hm₂
                  cases o with
                  | some a => exact .ok ho hround
                  | none =>
                      -- one more whole round from the start
                      have hrest := ih (hr.round hcm hbm) hm₂.sound
                      dsimp only
                      generalize Run.whileTrue condition body rounds m₂ = r'' at hrest ⊢
                      cases hrest with
                      | ok ho' hm₃ => exact .ok ho' (hround.trans hm₃)
                      | stop hm₃ => exact .stop (hround.trans hm₃)

end Result.Stays

/-! ### Tasks -/

/-- A set of moments that is closed under starting tasks, and a set of functions that holds all those
declared at one of the moments; and what a native gives at one of them may be held. -/
structure Witnesses (config : Config) (D : Moment → Prop) (B : Value → Prop) : Prop where
  enters : ∀ {a b}, D a → Enters config a b → D b
  declared : ∀ {n name params body m}, D ⟨n + 1, .execute (.function name params body), m⟩ →
    B (.function name.lexeme (params.map Token.lexeme) body m.current)
  given : ∀ {n name arity function vs m v}, D ⟨n, .body (.native name arity function) vs, m⟩ →
    m.Sound B → (∀ w ∈ vs, w.Fits B m.heap.size) →
    config.host.call function m.hostCalls vs = .value v → v.Fits B m.heap.size

/-- What a native gives is of the scopes that there are, if its arguments are. -/
def Host.AddsNoScope (host : Host) : Prop :=
  ∀ function before vs v k, 0 < k → (∀ w ∈ vs, w.Within k) →
    host.call function before vs = .value v → v.Within k

/-- What a native gives fits, since it adds no scope. -/
theorem Host.AddsNoScope.fits {host : Host} (hh : host.AddsNoScope) {function : HostFunction}
    {before : Nat} {vs : List Value} {v : Value} (hm : m.Sound B) (hvs : ∀ w ∈ vs, w.Fits B m.heap.size)
    (hv : host.call function before vs = .value v) : v.Fits (fun _ => True) m.heap.size :=
  ⟨hh _ _ _ _ _ (Nat.zero_lt_of_lt hm.current) (fun w hw => (hvs w hw).1) hv, fun _ _ => trivial⟩

/-- A set of moments with all functions. -/
theorem Witnesses.all {config : Config} (hh : config.host.AddsNoScope) {D : Moment → Prop}
    (hD : ∀ {a b}, D a → Enters config a b → D b) : Witnesses config D fun _ => True :=
  ⟨hD, fun _ => trivial, fun _ => hh.fits⟩

/-- What a statement gives may be held. -/
abbrev Returns (B : Value → Prop) (k : Nat) (o : Option Value) : Prop := ∀ v, o = some v → v.Fits B k

/-- With so many frames left, every task at a moment in `D` keeps a machine sound. -/
structure Soundly (config : Config) (D : Moment → Prop) (B : Value → Prop) (n : Nat) : Prop where
  evaluate : ∀ e m, D ⟨n, .evaluate e, m⟩ → m.Sound B →
    (evaluate config n e m).Stays B m (Value.Fits B)
  evaluateAll : ∀ es m, D ⟨n, .arguments es, m⟩ → m.Sound B →
    (evaluateAll config n es m).Stays B m fun k vs => ∀ v ∈ vs, v.Fits B k
  invoke : ∀ f vs paren m, D ⟨n, .invoke f vs paren, m⟩ → m.Sound B → f.Fits B m.heap.size →
    (∀ v ∈ vs, v.Fits B m.heap.size) → (invoke config n f vs paren m).Stays B m (Value.Fits B)
  body : ∀ f vs m, D ⟨n, .body f vs, m⟩ → m.Sound B → f.Fits B m.heap.size →
    (∀ v ∈ vs, v.Fits B m.heap.size) → (callBody config n f vs m).Stays B m (Value.Fits B)
  block : ∀ id statements m, D ⟨n, .block id statements, m⟩ → m.Sound B → id < m.heap.size →
    (block config n id statements m).Stays B m (Returns B)
  execute : ∀ s m, D ⟨n, .execute s, m⟩ → m.Sound B → (execute config n s m).Stays B m (Returns B)

section Tasks

open Result (Stays)

variable {config : Config} {D : Moment → Prop} {n : Nat}

theorem evaluate_stays (hw : Witnesses config D B) (h : Soundly config D B n) {e : Node}
    (hd : D ⟨n + 1, .evaluate e, m⟩) (hm : m.Sound B) :
    (evaluate config (n + 1) e m).Stays B m (Value.Fits B) := by
  cases e with
  | literal v => exact Stays.pure hm (.plain (Value.function?_ofNode v))
  | grouping e => exact h.evaluate e m (hw.enters hd .grouping) hm
  | reference name => exact Stays.lookup hm name
  | assign name e =>
      rw [evaluate_assign]
      refine (h.evaluate e m (hw.enters hd .assign) hm).bind fun v m₁ _ hv hm₁ => ?_
      refine (Stays.assign hm₁.sound name hv).bind fun _ m₂ _ _ hm₂ => ?_
      exact Stays.pure hm₂.sound (hv.mono hm₂.grows.size_le)
  | logical l o r =>
      rw [evaluate_logical]
      refine (h.evaluate l m (hw.enters hd .logicalLeft) hm).bind fun v m₁ h₁ hv hm₁ => ?_
      split
      · exact Stays.pure hm₁.sound hv
      · rename_i hdec
        exact h.evaluate r m₁ (hw.enters hd (.logicalRight h₁ (by simpa using hdec))) hm₁.sound
  | unary o e =>
      rw [evaluate_unary]
      refine (h.evaluate e m (hw.enters hd .unary) hm).bind fun v m₁ _ _ hm₁ => ?_
      exact Stays.ofExcept hm₁.sound fun w hw => .plain (applyUnary_function? hw)
  | binary l o r =>
      rw [evaluate_binary]
      refine (h.evaluate l m (hw.enters hd .binaryLeft) hm).bind fun a m₁ h₁ _ hm₁ => ?_
      refine (h.evaluate r m₁ (hw.enters hd (.binaryRight h₁)) hm₁.sound).bind
        fun b m₂ _ _ hm₂ => ?_
      exact Stays.ofExcept hm₂.sound fun w hw => .plain (applyBinary_function? hw)
  | call e paren es =>
      rw [evaluate_call]
      refine (h.evaluate e m (hw.enters hd .callee) hm).bind fun f m₁ h₁ hf hm₁ => ?_
      refine (h.evaluateAll es m₁ (hw.enters hd (.arguments h₁)) hm₁.sound).bind
        fun vs m₂ h₂ hvs hm₂ => ?_
      exact h.invoke f vs paren m₂ (hw.enters hd (.invoke h₁ h₂)) hm₂.sound
        (hf.mono hm₂.grows.size_le) hvs
  | _ => exact Stays.fault hm .malformed

theorem evaluateAll_stays (hw : Witnesses config D B) (h : Soundly config D B n) {es : List Node}
    (hd : D ⟨n + 1, .arguments es, m⟩) (hm : m.Sound B) :
    (evaluateAll config (n + 1) es m).Stays B m fun k vs => ∀ v ∈ vs, v.Fits B k := by
  refine Stays.collect hm (fun _ _ _ hk hv => hv.mono hk) fun before e behind vs m₁ hes h₁ hm₁ => ?_
  subst hes
  exact h.evaluate e m₁ (hw.enters hd (.argument h₁)) hm₁

/-- To tell a call changes no scope. -/
theorem announceCall_stays (hm : m.Sound B) (f : Value) (depth : Nat) :
    (announceCall config n f depth m).Stays B m fun _ _ => True :=
  (Stays.spell hm n f).bind fun _ _ _ _ hm₁ => Stays.tell hm₁.sound config _

/-- The inside of a call, which runs a block with the same number of frames. -/
theorem callBody_stays (hw : Witnesses config D B)
    (hblock : ∀ id statements m, D ⟨n, .block id statements, m⟩ → m.Sound B → id < m.heap.size →
      (block config n id statements m).Stays B m (Returns B)) {f : Value} {vs : List Value}
    (hd : D ⟨n, .body f vs, m⟩) (hm : m.Sound B) (hf : f.Fits B m.heap.size)
    (hvs : ∀ v ∈ vs, v.Fits B m.heap.size) : (callBody config n f vs m).Stays B m (Value.Fits B) := by
  show ((announceCall config n f m.depth >>= fun _ => callInside config n f vs) m).Stays B m _
  refine (announceCall_stays hm f m.depth).bind fun _ m₁ h₁ _ hm₁ => ?_
  have hle := hm₁.grows.size_le
  obtain ⟨hspell, htell⟩ := announceCall_eq_ok_iff.mp h₁
  cases f with
  | function name params body closure =>
      refine (Stays.namesOf hm₁.sound params).bind fun names m₂ h₂ hnames _ => ?_
      obtain rfl : m₁ = m₂ := by
        rw [Run.namesOf, hnames] at h₂
        cases h₂
        rfl
      have hclosure : closure < m₁.heap.size := Nat.lt_of_lt_of_le (hf.1 closure rfl) hle
      refine (Stays.newScope hm₁.sound hclosure fun b hb => ?_).bind fun id m₂ h₂ hid hm₂ => ?_
      · exact (hvs b.2 (List.of_mem_zip hb).2).mono hle
      · have hblock := hblock id body m₂ (hw.enters hd (.function hspell htell hnames h₂)) hm₂.sound hid
        refine hblock.bind fun returned m₃ _ hr hm₃ => Stays.pure hm₃.sound ?_
        cases returned with
        | none => exact .plain rfl
        | some v => exact hr v rfl
  | native name arity function =>
      -- telling the call has not touched what the host may have looked at
      obtain ⟨trace, ht⟩ | ht := Run.tell_cases config (.called (.native name arity function) m.depth) m
      · cases htell.symm.trans ht
        show (Run.callHost config function vs _).Stays B _ _
        rw [Run.callHost]
        split
        · rename_i v hv
          have hfits := hw.given hd hm hvs hv
          exact .ok hfits ⟨⟨hm.rooted, hm.current, hm.holds⟩, Heap.Grows.refl _⟩
        · exact .stop ⟨⟨hm.rooted, hm.current, hm.holds⟩, Heap.Grows.refl _⟩
        · exact .stop ⟨⟨hm.rooted, hm.current, hm.holds⟩, Heap.Grows.refl _⟩
      · cases htell.symm.trans ht
  | _ => exact Stays.fault hm₁.sound .malformed

/-- A call is checked, counted and told, and its body is the one moment inside. -/
theorem invoke_stays (hw : Witnesses config D B) (h : Soundly config D B n) {f : Value}
    {vs : List Value} {paren : Token} (hd : D ⟨n + 2, .invoke f vs paren, m⟩) (hm : m.Sound B)
    (hf : f.Fits B m.heap.size) (hvs : ∀ v ∈ vs, v.Fits B m.heap.size) :
    (invoke config (n + 2) f vs paren m).Stays B m (Value.Fits B) := by
  rw [invoke_add_two]
  show ((Run.ofExcept (checkCall config f vs.length m.depth paren) >>= _) m).Stays B m _
  cases hcheck : checkCall config f vs.length m.depth paren with
  | error fault => exact Stays.fault hm fault
  | ok =>
      have hbody := h.body f vs { m with depth := m.depth + 1, lastCall := some paren }
        (hw.enters hd (.body hcheck)) ⟨hm.rooted, hm.current, hm.holds⟩ hf hvs
      refine Stays.bind (P := fun _ _ => True) (Stays.pure hm trivial) fun _ m₁ h₁ _ _ => ?_
      cases h₁
      refine (Stays.counted hbody).bind fun v m₂ _ hv hm₂ => ?_
      refine (Stays.tell hm₂.sound config _).bind fun _ m₃ _ _ hm₃ => ?_
      exact Stays.pure hm₃.sound (hv.mono hm₃.grows.size_le)

/-- The statements of a block, in the scope made for it. -/
theorem block_stays (hw : Witnesses config D B) (h : Soundly config D B n) {id : Nat}
    {statements : List Node} (hd : D ⟨n + 1, .block id statements, m⟩) (hm : m.Sound B)
    (hid : id < m.heap.size) : (block config (n + 1) id statements m).Stays B m (Returns B) := by
  refine Stays.inScope hm (Stays.firstOf ⟨hm.rooted, hid, hm.holds⟩ ?_)
  intro before s behind m₁ hs h₁ hm₁
  subst hs
  exact h.execute s m₁ (hw.enters hd (.statement h₁)) hm₁

theorem returns_none (B : Value → Prop) (k : Nat) : Returns B k none := fun _ h => by cases h

/-- The value of a declaration, given or not. -/
theorem initialValue_stays (h : Soundly config D B n) {e : Node}
    (hd : e ≠ .null → D ⟨n, .evaluate e, m⟩) (hm : m.Sound B) :
    (initialValue config n e m).Stays B m (Value.Fits B) := by
  by_cases he : e = .null
  · subst he
    exact Stays.pure hm (.plain rfl)
  · rw [initialValue_of_ne config n he]
    exact h.evaluate e m (hd he) hm

theorem execute_stays (hw : Witnesses config D B) (h : Soundly config D B n) {s : Node}
    (hd : D ⟨n + 1, .execute s, m⟩) (hm : m.Sound B) :
    (execute config (n + 1) s m).Stays B m (Returns B) := by
  cases s with
  | expression e =>
      rw [execute_expression]
      refine (h.evaluate e m (hw.enters hd .expression) hm).bind fun _ m₁ _ _ hm₁ => ?_
      exact Stays.pure hm₁.sound (returns_none B _)
  | print e =>
      rw [execute_print]
      refine (h.evaluate e m (hw.enters hd .print) hm).bind fun v m₁ _ _ hm₁ => ?_
      refine Stays.bind (P := fun _ _ => True) (.ok trivial (hm₁.sound.same rfl rfl))
        fun _ m₂ _ _ hm₂ => ?_
      exact Stays.pure hm₂.sound (returns_none B _)
  | declare name e =>
      rw [execute_declare]
      refine (initialValue_stays h (fun he => hw.enters hd (.declare he)) hm).bind
        fun v m₁ _ hv hm₁ => ?_
      refine (Stays.define hm₁.sound name hv).bind fun _ m₂ _ _ hm₂ => ?_
      refine (Stays.tell hm₂.sound config _).bind fun _ m₃ _ _ hm₃ => ?_
      exact Stays.pure hm₃.sound (returns_none B _)
  | block statements =>
      rw [execute_block]
      show ((Run.newScope m.current [] >>= fun id => block config n id statements) m).Stays B m _
      refine (Stays.newScope hm hm.current fun b hb => absurd hb List.not_mem_nil).bind
        fun id m₁ h₁ hid hm₁ => ?_
      exact h.block id statements m₁ (hw.enters hd (.block h₁)) hm₁.sound hid
  | branch c s s' =>
      rw [execute_branch]
      refine (h.evaluate c m (hw.enters hd .condition) hm).bind fun v m₁ h₁ _ hm₁ => ?_
      refine (Stays.tell hm₁.sound config _).bind fun _ m₂ h₂ _ hm₂ => ?_
      split
      · rename_i hv
        exact h.execute s m₂ (hw.enters hd (.thenBranch h₁ hv h₂)) hm₂.sound
      · rename_i hv
        by_cases hs : s' = .null
        · subst hs
          exact Stays.pure hm₂.sound (returns_none B _)
        · rw [executeOptional_of_ne config n hs]
          exact h.execute s' m₂ (hw.enters hd (.elseBranch h₁ (by simpa using hv) h₂ hs)) hm₂.sound
  | loop c s =>
      rw [execute_loop]
      refine Stays.whileTrue config.rounds (.none m) hm (fun m₁ hr hm₁ => ?_)
        fun m₁ m₂ hr hc hm₂ => ?_
      · exact (h.evaluate c m₁ (hw.enters hd (.loopCondition hr)) hm₁).map fun _ _ _ => trivial
      · obtain ⟨v, hv, ht⟩ := Run.map_eq_ok hc
        exact h.execute s m₂ (hw.enters hd (.loopBody hr hv ht)) hm₂
  | function name params body =>
      rw [execute_function]
      show ((Run.define name (.function name.lexeme (params.map Token.lexeme) body m.current) >>= _)
        m).Stays B m _
      -- the closure is the current scope, and the body is one of `B`
      refine (Stays.define hm name (.function hm.current (hw.declared hd))).bind
        fun _ m₁ _ _ hm₁ => ?_
      refine (Stays.tell hm₁.sound config _).bind fun _ m₂ _ _ hm₂ => ?_
      exact Stays.pure hm₂.sound (returns_none B _)
  | returns keyword e =>
      rw [execute_returns]
      refine (initialValue_stays h (fun he => hw.enters hd (.returns he)) hm).map
        fun k v hv w hw => ?_
      cases hw
      exact hv
  | _ => exact Stays.fault hm .malformed

/-- **Every task keeps a machine sound**, if it starts at a moment in `D`. -/
theorem soundly (hw : Witnesses config D B) (n : Nat) : Soundly config D B n := by
  induction n using Nat.strongRecOn with
  | ind n ih =>
      match n, ih with
      | 0, _ =>
          have hblock : ∀ id statements m, D ⟨0, .block id statements, m⟩ → m.Sound B →
              id < m.heap.size → (block config 0 id statements m).Stays B m (Returns B) :=
            fun _ _ _ _ hm _ => Stays.exhausted hm
          exact ⟨fun _ _ _ hm => Stays.exhausted hm, fun _ _ _ hm => Stays.exhausted hm,
            fun _ _ _ _ _ hm _ _ => Stays.exhausted hm, fun _ _ _ => callBody_stays hw hblock,
            hblock, fun _ _ _ hm => Stays.exhausted hm⟩
      | n + 1, ih =>
          have h := ih n (Nat.lt_succ_self n)
          have hblock : ∀ id statements m, D ⟨n + 1, .block id statements, m⟩ → m.Sound B →
              id < m.heap.size → (block config (n + 1) id statements m).Stays B m (Returns B) :=
            fun _ _ _ => block_stays hw h
          refine ⟨fun _ _ => evaluate_stays hw h, fun _ _ => evaluateAll_stays hw h, ?_,
            fun _ _ _ => callBody_stays hw hblock, hblock, fun _ _ => execute_stays hw h⟩
          match n, ih with
          | 0, _ => exact fun _ _ _ _ _ hm _ _ => Stays.exhausted hm
          | n + 1, ih => exact fun _ _ _ _ => invoke_stays hw (ih n (by omega))

end Tasks

/-! ### Moments -/

/-- The values that a task is given. -/
def Task.values : Task → List Value
  | .invoke f vs _ => f :: vs
  | .body f vs => f :: vs
  | _ => []

/-- A task on a sound machine, with values that fit and in a scope of the heap. -/
structure Moment.Sound (B : Value → Prop) (b : Moment) : Prop where
  machine : b.machine.Sound B
  values : ∀ v ∈ b.task.values, v.Fits B b.machine.heap.size
  scope : ∀ id statements, b.task = .block id statements → id < b.machine.heap.size

section Moments

variable {config : Config} {D : Moment → Prop} {a b : Moment}

/-- At a sound moment, the task keeps the machine sound to its end. -/
theorem Moment.Sound.result (hb : b.Sound B) (hw : Witnesses config D B) (hd : D b) :
    (b.result config).Stays B b.machine fun k vs => ∀ v ∈ vs, v.Fits B k := by
  obtain ⟨n, task, m⟩ := b
  obtain ⟨hm, hv, hid⟩ := hb
  have h := soundly hw n
  have hone : ∀ (k : Nat) (v : Value), v.Fits B k → ∀ w ∈ [v], w.Fits B k :=
    fun _ _ hv => List.forall_mem_singleton.mpr hv
  have hoption : ∀ (k : Nat) (o : Option Value), Returns B k o → ∀ v ∈ o.toList, v.Fits B k :=
    fun _ _ ho v hv => ho v (Option.mem_toList.mp hv)
  cases task with
  | evaluate e => exact (h.evaluate e m hd hm).map hone
  | arguments es => exact h.evaluateAll es m hd hm
  | invoke f vs paren =>
      rw [Task.values, List.forall_mem_cons] at hv
      exact (h.invoke f vs paren m hd hm hv.1 hv.2).map hone
  | body f vs =>
      rw [Task.values, List.forall_mem_cons] at hv
      exact (h.body f vs m hd hm hv.1 hv.2).map hone
  | block id statements => exact (h.block id statements m hd hm (hid id statements rfl)).map hoption
  | execute s => exact (h.execute s m hd hm).map hoption

/-- A task without values of its own, on a sound machine. -/
theorem Machine.Leads.moment {n : Nat} {task : Task} {m₀ : Machine} (hm : m₀.Leads B m)
    (hv : task.values = []) (hid : ∀ id statements, task ≠ .block id statements) :
    Moment.Sound B ⟨n, task, m⟩ ∧ m₀.heap.Grows m.heap := by
  refine ⟨⟨hm.sound, fun v hm' => ?_, fun id statements h => absurd h (hid id statements)⟩, hm.grows⟩
  rw [hv] at hm'
  cases hm'

theorem Machine.Leads.blockMoment {n id : Nat} {statements : List Node} {m₀ : Machine}
    (hm : m₀.Leads B m) (hid : id < m.heap.size) :
    Moment.Sound B ⟨n, .block id statements, m⟩ ∧ m₀.heap.Grows m.heap := by
  refine ⟨⟨hm.sound, fun v hv => absurd hv List.not_mem_nil, fun id' _ h => ?_⟩, hm.grows⟩
  cases h
  exact hid

/-- Whole rounds of a loop keep a machine sound. -/
theorem Rounds.sound {n : Nat} {c s : Node} (hw : Witnesses config D B)
    (hd : D ⟨n + 1, .execute (.loop c s), m⟩) (hm : m.Sound B)
    (hr : Rounds (Value.isTruthy <$> evaluate config n c) (execute config n s) m m') :
    m.Leads B m' := by
  induction hr with
  | none => exact hm.same rfl rfl
  | round hr hc hb ih =>
      obtain ⟨v, hv, ht⟩ := Run.map_eq_ok hc
      have h₁ := (soundly hw n).evaluate _ _ (hw.enters hd (.loopCondition hr)) ih.sound
      have hm₁ := (h₁.of_ok hv).2
      have h₂ := (soundly hw n).execute _ _ (hw.enters hd (.loopBody hr hv ht)) hm₁.sound
      exact ih.trans (hm₁.trans (h₂.of_ok hb).2)

/-- An expression starts others on sound machines, and until then the heap has only grown. -/
theorem Enters.sound_evaluate (hw : Witnesses config D B) {n : Nat} {e : Node}
    (hd : D ⟨n, .evaluate e, m⟩) (hm : m.Sound B) (h : Enters config ⟨n, .evaluate e, m⟩ b) :
    b.Sound B ∧ m.heap.Grows b.machine.heap := by
  cases h with
  | grouping | assign | logicalLeft | unary | binaryLeft | callee => exact (hm.same rfl rfl).moment rfl nofun
  | @logicalRight n l _ _ _ _ _ hl _ =>
      have h₁ := (soundly hw n).evaluate l m (hw.enters hd .logicalLeft) hm
      exact (h₁.of_ok hl).2.moment rfl nofun
  | @binaryRight n l _ _ _ _ _ hl =>
      have h₁ := (soundly hw n).evaluate l m (hw.enters hd .binaryLeft) hm
      exact (h₁.of_ok hl).2.moment rfl nofun
  | @arguments n e _ _ _ _ _ hc =>
      have h₁ := (soundly hw n).evaluate e m (hw.enters hd .callee) hm
      exact (h₁.of_ok hc).2.moment rfl nofun
  | @invoke n e _ es f vs _ m₁ _ hc ha =>
      have h₁ := (soundly hw n).evaluate e m (hw.enters hd .callee) hm
      obtain ⟨hf, hm₁⟩ := h₁.of_ok hc
      have h₂ := (soundly hw n).evaluateAll es m₁ (hw.enters hd (.arguments hc)) hm₁.sound
      obtain ⟨hvs, hm₂⟩ := h₂.of_ok ha
      have hf₂ := hf.mono hm₂.grows.size_le
      exact ⟨⟨hm₂.sound, List.forall_mem_cons.mpr ⟨hf₂, hvs⟩, nofun⟩, hm₁.grows.trans hm₂.grows⟩

/-- The arguments in front of one have been evaluated, each at a moment of its own. -/
theorem Enters.sound_arguments (hw : Witnesses config D B) {n : Nat} {es : List Node}
    (hd : D ⟨n, .arguments es, m⟩) (hm : m.Sound B) (h : Enters config ⟨n, .arguments es, m⟩ b) :
    b.Sound B ∧ m.heap.Grows b.machine.heap := by
  cases h with
  | @argument n before behind e vs _ m₁ hb =>
      have h₁ : (Run.collect (evaluate config n) before m).Stays B m fun k vs =>
          ∀ v ∈ vs, v.Fits B k := by
        refine Result.Stays.collect hm (fun _ _ _ hk hv => hv.mono hk) ?_
        intro before' e' behind' vs' m₂ hbefore h₂ hm₂
        refine (soundly hw n).evaluate e' m₂ (hw.enters hd ?_) hm₂
        rw [hbefore, List.append_assoc]
        exact .argument h₂
      exact (h₁.of_ok hb).2.moment rfl nofun

/-- The body of a function is run in a new scope inside that of the function. -/
theorem Enters.sound_body {n : Nat} {f : Value} {vs : List Value} (hm : m.Sound B)
    (hf : f.Fits B m.heap.size) (hvs : ∀ v ∈ vs, v.Fits B m.heap.size)
    (h : Enters config ⟨n, .body f vs, m⟩ b) : b.Sound B ∧ m.heap.Grows b.machine.heap := by
  cases h with
  | @function n closure id name params body _ names _ m₁ m₂ _ ht hn hs =>
      have hm₁ := ((Result.Stays.tell hm config _).of_ok ht).2
      have hle := hm₁.grows.size_le
      have hzip : ∀ b ∈ names.zip vs, b.2.Fits B m₁.heap.size :=
        fun b hb => (hvs b.2 (List.of_mem_zip hb).2).mono hle
      have h₂ := Result.Stays.newScope hm₁.sound (Nat.lt_of_lt_of_le (hf.1 closure rfl) hle) hzip
      obtain ⟨hid₂, hm₂⟩ := h₂.of_ok hs
      exact (hm₁.trans hm₂).blockMoment hid₂

/-- The statements in front of one have been executed, each at a moment of its own. -/
theorem Enters.sound_block (hw : Witnesses config D B) {n id : Nat} {statements : List Node}
    (hd : D ⟨n, .block id statements, m⟩) (hm : m.Sound B) (hid : id < m.heap.size)
    (h : Enters config ⟨n, .block id statements, m⟩ b) :
    b.Sound B ∧ m.heap.Grows b.machine.heap := by
  cases h with
  | @statement n _ before behind s _ m₁ hb =>
      have hinside : Machine.Sound B { m with current := id } := ⟨hm.rooted, hid, hm.holds⟩
      have h₁ : (Run.firstOf (execute config n) before { m with current := id }).Stays B
          { m with current := id } (Returns B) := by
        refine Result.Stays.firstOf hinside ?_
        intro before' s' behind' m₂ hbefore h₂ hm₂
        refine (soundly hw n).execute s' m₂ (hw.enters hd ?_) hm₂
        rw [hbefore, List.append_assoc]
        exact .statement h₂
      exact (h₁.of_ok hb).2.moment rfl nofun

/-- A statement starts others on sound machines, and until then the heap has only grown. -/
theorem Enters.sound_execute (hw : Witnesses config D B) {n : Nat} {s : Node}
    (hd : D ⟨n, .execute s, m⟩) (hm : m.Sound B) (h : Enters config ⟨n, .execute s, m⟩ b) :
    b.Sound B ∧ m.heap.Grows b.machine.heap := by
  cases h with
  | expression | print | declare | condition | returns => exact (hm.same rfl rfl).moment rfl nofun
  | @block n id statements _ m₁ hs =>
      have h₁ := Result.Stays.newScope hm hm.current fun b hb => absurd hb List.not_mem_nil
      obtain ⟨hid₁, hm₁⟩ := h₁.of_ok hs
      exact hm₁.blockMoment hid₁
  | @thenBranch n c _ _ _ _ _ _ hc _ ht | @elseBranch n c _ _ _ _ _ _ hc _ ht _ =>
      have h₁ := (soundly hw n).evaluate c m (hw.enters hd .condition) hm
      have hm₁ := (h₁.of_ok hc).2
      have hm₂ := ((Result.Stays.tell hm₁.sound config _).of_ok ht).2
      exact (hm₁.trans hm₂).moment rfl nofun
  | loopCondition hr => exact (hr.sound hw hd hm).moment rfl nofun
  | @loopBody n c _ _ _ m₁ _ hr hc _ =>
      have hm₁ := hr.sound hw hd hm
      have h₂ := (soundly hw n).evaluate c m₁ (hw.enters hd (.loopCondition hr)) hm₁.sound
      exact (hm₁.trans (h₂.of_ok hc).2).moment rfl nofun

/-- **A task starts others on sound machines**, and until then the heap has only grown. -/
theorem Enters.sound (hw : Witnesses config D B) (hd : D a) (ha : a.Sound B)
    (h : Enters config a b) : b.Sound B ∧ a.machine.heap.Grows b.machine.heap := by
  obtain ⟨n, task, m⟩ := a
  obtain ⟨hm, hv, hid⟩ := ha
  cases task with
  | evaluate e => exact h.sound_evaluate hw hd hm
  | arguments es => exact h.sound_arguments hw hd hm
  | invoke f vs paren => cases h with
    | body hc => exact ⟨⟨⟨hm.rooted, hm.current, hm.holds⟩, hv, nofun⟩, Heap.Grows.refl _⟩
  | body f vs =>
      obtain ⟨hf, hvs⟩ := List.forall_mem_cons.mp hv
      exact h.sound_body hm hf hvs
  | block id statements => exact h.sound_block hw hd hm (hid id statements rfl)
  | execute s => exact h.sound_execute hw hd hm

end Moments

/-! ### Programs -/

section Programs

variable {config : Config} {frames : Nat} {statements : List Node}

/-- The moments of a run, and a set that holds all functions declared or given at one of them. -/
theorem During.witnesses
    (hdeclared : ∀ calls n name params body m', During config frames statements m calls
        ⟨n + 1, .execute (.function name params body), m'⟩ →
      B (.function name.lexeme (params.map Token.lexeme) body m'.current))
    (hgiven : ∀ calls n name arity function vs m' v, During config frames statements m calls
        ⟨n, .body (.native name arity function) vs, m'⟩ →
      config.host.call function m'.hostCalls vs = .value v → v.Fits B m'.heap.size) :
    Witnesses config (fun b => ∃ calls, During config frames statements m calls b) B where
  enters := fun ⟨_, ha⟩ h => ⟨_, .inner ha h⟩
  declared := fun ⟨calls, h⟩ => hdeclared calls _ _ _ _ _ h
  given := fun ⟨calls, h⟩ _ _ hv => hgiven calls _ _ _ _ _ _ _ h hv

/-- The first statements of a program keep a machine sound. -/
theorem firstOf_stays (hw : Witnesses config
      (fun b => ∃ calls, During config frames statements m calls b) B)
    {before behind : List Node} (hs : statements = before ++ behind) (hm : m.Sound B) {m₁ : Machine}
    (ht : Run.tell config (.started statements.length) m = .ok () m₁) :
    (Run.firstOf (execute config frames) before m₁).Stays B m₁ (Returns B) := by
  refine Result.Stays.firstOf ((Result.Stays.tell hm config _).of_ok ht).2.sound ?_
  intro before' s behind' m₂ hbefore h₂ hm₂
  have hall : statements = before' ++ s :: (behind' ++ behind) := by
    rw [hs, hbefore, List.append_assoc]
    rfl
  exact (soundly hw frames).execute s m₂ ⟨0, .statement hall ht h₂⟩ hm₂

/-- So every moment of a run is sound, with a heap that has only grown. -/
theorem During.sound {calls : Nat} {b : Moment} (hw : Witnesses config
      (fun b => ∃ calls, During config frames statements m calls b) B) (hm : m.Sound B)
    (h : During config frames statements m calls b) :
    b.Sound B ∧ m.heap.Grows b.machine.heap := by
  induction h with
  | statement hs ht hb =>
      have hm₁ := ((Result.Stays.tell hm config _).of_ok ht).2
      have hm₂ := ((firstOf_stays hw hs hm ht).of_ok hb).2
      exact (hm₁.trans hm₂).moment rfl nofun
  | inner ha h ih =>
      obtain ⟨hb, hg⟩ := h.sound hw ⟨_, ha⟩ ih.1
      exact ⟨hb, ih.2.trans hg⟩

/-- A program keeps a machine sound. -/
theorem interpret_leads (hw : Witnesses config
      (fun b => ∃ calls, During config frames statements m calls b) B) (hm : m.Sound B) :
    m.Leads B (interpret config frames statements m).2 := by
  have hrun : (runProgram config frames statements m).Stays B m (Returns B) :=
    (Result.Stays.tell hm config _).bind fun _ _ ht _ _ =>
      firstOf_stays hw (List.append_nil statements).symm hm ht
  rw [interpret_eq_endOf]
  generalize runProgram config frames statements m = r at hrun ⊢
  obtain ⟨trace, he⟩ := endOf_machine config r
  cases hrun with
  | ok _ h | stop h => exact he ▸ h.trans (h.sound.same rfl rfl)

end Programs

end Lox
