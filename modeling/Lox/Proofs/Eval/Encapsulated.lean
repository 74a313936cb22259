import Lox.Proofs.Eval.Alike
import Lox.Proofs.Session.WellFormed

/-!
# What closures keep private

A run sees only the scopes that can be reached from its current scope: through the scopes around them,
and through the scopes of the functions bound in them.  These are *live*.  The live scopes and those
still to come are closed under all that a run does, so every run is in step with itself on a heap
that differs elsewhere, if the natives give no functions but those they are given (`Host.HandsBack`).

`encapsulated`: whatever is run, on every way out, leaves the scopes that are not live as they were,
and does not depend on what is bound in them.
-/

namespace Lox

variable {α : Type}

/-- The scopes that can be reached from a scope. -/
inductive Live (h : Heap Value) (start : Nat) : Nat → Prop where
  | self : Live h start start
  /-- The scope around a live one. -/
  | outer {i o : Nat} {s : Scope Value} (hi : Live h start i) (hs : h.get? i = some s)
      (ho : s.enclosing = some o) : Live h start o
  /-- The scope of a function that is bound in a live one. -/
  | closure {i o : Nat} {s : Scope Value} {b : Name × Value} (hi : Live h start i)
      (hs : h.get? i = some s) (hb : b ∈ s.bindings) (ho : b.2.closure? = some o) : Live h start o

/-- The scopes that are live now, and those still to come. -/
def Machine.Sees (m : Machine) (i : Nat) : Prop := Live m.heap m.current i ∨ m.heap.size ≤ i

/-- What a native gives is one of its arguments or no function. -/
def Host.HandsBack (host : Host) : Prop :=
  ∀ function before vs v, host.call function before vs = .value v → v ∈ vs ∨ v.function? = none

/-- How a step ends, without the machine. -/
def Result.outcome : Result α → Except Stop α
  | .ok a _ => .ok a
  | .stop why _ => .error why

/-- From a machine, a step changes no scope that is not live, and what is bound in such scopes makes
no difference: not to the outcome, not to what is printed and told, and not to the scopes that are
live or new. -/
structure Run.Encapsulated (p : Run α) (m : Machine) : Prop where
  unchanged : ∀ i < m.heap.size, ¬ Live m.heap m.current i →
    (p m).machine.heap.get? i = m.heap.get? i
  independent : ∀ h', m.heap.SameOn (Live m.heap m.current) h' →
    let r := p m
    let r' := p { m with heap := h' }
    r'.outcome = r.outcome ∧ r'.machine.output = r.machine.output ∧
      r'.machine.trace.map Event.text = r.machine.trace.map Event.text ∧
      r'.machine.current = r.machine.current ∧ r'.machine.depth = r.machine.depth ∧
      r'.machine.lastCall = r.machine.lastCall ∧ r'.machine.hostCalls = r.machine.hostCalls ∧
      r'.machine.heap.size = r.machine.heap.size ∧
      ∀ i, Live m.heap m.current i ∨ m.heap.size ≤ i →
        r'.machine.heap.get? i = r.machine.heap.get? i

/-! ### Live scopes are closed -/

variable {m : Machine}

/-- What can be reached from live scopes is live. -/
theorem Machine.closed_sees (m : Machine) : m.Closed m.Sees := by
  have hlive : ∀ {i s}, m.Sees i → m.heap.get? i = some s → Live m.heap m.current i := by
    intro i s hi hs
    refine hi.resolve_right fun hle => ?_
    have hlt := Heap.lt_size_of_get? hs
    omega
  refine ⟨.inl .self, fun i s o hi hs ho => ?_, fun i s b o hi hs hb ho => ?_, fun i hi => .inr hi⟩
  · exact .inl (.outer (hlive hi hs) hs ho)
  · exact .inl (.closure (hlive hi hs) hs hb ho)

/-- Two heaps that agree on the live scopes agree on all scopes in sight, as there are no others. -/
theorem Heap.SameOn.sees {h' : Heap Value} (hs : m.heap.SameOn (Live m.heap m.current) h') :
    m.heap.SameOn m.Sees h' := by
  refine ⟨hs.size, hs.links, fun i hi => ?_⟩
  rcases hi with hlive | hle
  · exact hs.scopes i hlive
  · rw [Heap.get?_eq_none (hs.size ▸ hle), Heap.get?_eq_none hle]

/-! ### The same set of scopes on both sides -/

section OnSet

variable {L : Nat → Prop} {h₀ h₀' h h' : Heap Value} {k k' : Nat} {solid : Prop}

/-- With every scope its own counterpart, values that are alike are equal. -/
theorem Value.Alike.eq {v v' : Value} (ha : v.Alike (.onSet L h₀ h₀') k k' v') : v = v' := by
  cases ha with
  | plain => rfl
  | function hr => exact congrArg _ hr.1

theorem Scope.Alike.eq {s s' : Scope Value} (ha : s.Alike (.onSet L h₀ h₀') k k' s') : s = s' := by
  obtain ⟨e, bs⟩ := s
  obtain ⟨e', bs'⟩ := s'
  obtain ⟨he, hb⟩ := ha
  have he : e = e' := by
    cases he with
    | none => rfl
    | some hr => exact congrArg some hr.1
  have hb : List.Forall₂ Eq bs bs' := List.Forall₂.imp (fun _ _ h => Prod.ext h.1 h.2.eq) hb
  rw [he, List.forall₂_eq_eq_eq] at *
  rw [hb]

theorem Heap.Alike.size_eq (ha : Heap.Alike (.onSet L h₀ h₀') h h') : h.size = h'.size :=
  (ha.fresh 0).1

/-- So are the scopes of the set. -/
theorem Heap.Alike.get?_eq (ha : Heap.Alike (.onSet L h₀ h₀') h h') {i : Nat} (hi : L i) :
    h'.get? i = h.get? i := by
  rcases Nat.lt_or_ge i h.size with hlt | hle
  · obtain ⟨s, hs⟩ := Heap.exists_get? hlt
    obtain ⟨s', hs'⟩ := Heap.exists_get? (ha.size_eq ▸ hlt)
    rw [hs, hs', (ha.scopes i i s s' ⟨rfl, hi⟩ hs hs').eq]
  · rw [Heap.get?_eq_none hle, Heap.get?_eq_none (ha.size_eq ▸ hle)]

/-- Natives that hand back what they are given do the same on both sides. -/
theorem Host.HandsBack.inStep {host : Host} (hh : host.HandsBack) : host.InStep (.onSet L h₀ h₀') := by
  intro function before k k' vs vs' _ _ hvs
  have heq : List.Forall₂ Eq vs vs' := hvs.imp fun _ _ hv => hv.eq
  rw [List.forall₂_eq_eq_eq] at heq
  subst heq
  cases hr : host.call function before vs with
  | value v =>
      refine .value ?_
      rcases hh function before vs v hr with hmem | hplain
      · exact List.forall₂_same.mp hvs v hmem
      · exact .plain hplain
  | raised error => exact .raised error
  | never => exact .never

end OnSet

/-! ### Runs -/

/-- What is in step with itself on every heap is encapsulated. -/
theorem Run.Encapsulated.of_alike {p : Run α} {V : Correspondence → Nat → Nat → α → α → Prop}
    (hV : ∀ {L h h' k k' a a'}, V (.onSet L h h') k k' a a' → a = a')
    (hp : ∀ L h h', Run.Alike (.onSet L h h') True 0 0 (V (.onSet L h h')) p p) (hm : m.WellFormed) :
    p.Encapsulated m := by
  have hstep : ∀ {h'}, m.heap.SameOn (Live m.heap m.current) h' →
      (p m).Alike (.onSet m.Sees m.heap h') True m.heap.size h'.size (V (.onSet m.Sees m.heap h'))
        (p { m with heap := h' }) := fun hs =>
    hp _ _ _ m _ (hm.alike m.closed_sees hs.sees) (Nat.zero_le _) (Nat.zero_le _)
  refine ⟨fun i hi hlive => ?_, fun h' hs => ?_⟩
  · refine (hstep (Heap.SameOn.refl _ m.heap)).machine.heap.first.frame i hi ?_
    rintro ⟨j, -, hl | hle⟩
    · exact hlive hl
    · exact absurd hi (Nat.not_lt.mpr hle)
  · have h := hstep hs
    have hm₁ := h.machine
    refine ⟨?_, hm₁.output.symm, hm₁.trace.symm, hm₁.current.1.symm, hm₁.depth.symm,
      hm₁.lastCall.symm, hm₁.hostCalls.symm, hm₁.heap.size_eq.symm, fun i hi => hm₁.heap.get?_eq hi⟩
    generalize p m = r, p { m with heap := h' } = r' at h ⊢
    cases h with
    | ok ha => exact congrArg Except.ok (hV ha).symm
    | stop => rfl

/-- **What closures keep private stays private.**  On a well-formed machine, as every machine that a
session reaches is, an expression or a statement leaves all scopes that are not live as they were, on
every way out; and with other bindings in those scopes it has the same outcome, prints and tells the
same, and ends with the same live and new scopes.  The natives give nothing but their arguments and
values that are no functions. -/
theorem encapsulated (config : Config) (n : Nat) (hh : config.host.HandsBack) (hm : m.WellFormed) :
    (∀ e, (evaluate config n e).Encapsulated m) ∧ ∀ s, (execute config n s).Encapsulated m := by
  constructor
  · intro e
    exact Run.Encapsulated.of_alike (V := Value.Alike) Value.Alike.eq
      (fun _ _ _ => (inStep hh.inStep n).evaluate True 0 0 e) hm
  · intro s
    refine Run.Encapsulated.of_alike (V := ReturnsAlike) (fun ha => ?_)
      (fun _ _ _ => (inStep hh.inStep n).execute True 0 0 s (.inl trivial)) hm
    cases ha with
    | none => rfl
    | some hv => rw [hv.eq]

/-- The scope of a block that is left behind is not live, so an assignment outside of it does not
change what it binds, also if a native hands the value on. -/
theorem encapsulated_left_block :
    let host : Host := ⟨fun _ => default, fun _ _ vs => (vs.head?.map .value).getD (.raised "IndexError")⟩
    let config : Config := { maxDepth := 1, level := 0, host := host, rounds := 0 }
    let token text := Token.ofText .identifier text (.word text) 1
    let heap := Session.freshMachine.heap.define 0 (.text "same") (.native "same" 1 (.given 0))
    let m := { Session.freshMachine with
      heap := (heap.push (some 0)).define 1 (.text "secret") (.bool true) }
    let assigned := Node.expression (.assign (token "secret")
      (.call (.reference (token "same")) (token ")") [.literal (.bool false)]))
    host.HandsBack ∧ m.WellFormed ∧ ¬ Live m.heap m.current 1 ∧
      (execute config 9 assigned m).machine.heap.get? 1 = m.heap.get? 1 := by
  intro host config token heap m assigned
  have hh : host.HandsBack := by
    intro function before vs v hv
    cases function with
    | clock =>
        cases hv
        exact .inr rfl
    | given number =>
        cases vs with
        | nil => cases hv
        | cons w ws =>
            cases hv
            exact .inl List.mem_cons_self
  -- two scopes: the globals with `same`, and the block with `secret`
  have hm : m.WellFormed := by
    have hsame := Session.freshMachine_sound.define 0 (.text "same") (.plain rfl) (B := fun _ => True)
      (v := .native "same" 1 (.given 0))
    have hb : ∀ b ∈ [(Name.text "secret", Value.bool true)], b.2.Fits (fun _ => True) 1 :=
      List.forall_mem_singleton.mpr (.plain rfl)
    exact (hsame.sound.newScope Nat.zero_lt_one hb).sound.wellFormed
  -- the current scope is the globals, which hold a native only
  have hlive : ∀ i, Live m.heap m.current i → i = 0 := by
    intro i hi
    induction hi with
    | self => rfl
    | outer _ hs ho ih =>
        subst ih
        cases hs
        cases ho
    | closure _ hs hb ho ih =>
        subst ih
        cases hs
        rw [List.mem_singleton.mp hb] at ho
        cases ho
  have hdead : ¬ Live m.heap m.current 1 := fun h => absurd (hlive 1 h) (by decide)
  exact ⟨hh, hm, hdead, ((encapsulated config 9 hh hm).2 assigned).unchanged 1 (by decide) hdead⟩

end Lox
