import Mathlib.Data.List.Forall2
import Lox.Proofs.Eval.WellFormed

/-!
# Heaps that differ only in what is out of sight

Two machines do the same as long as what they can see is alike.  A `Correspondence` says which scope
of the first heap is the counterpart of which scope of the second, of those that are there and of all
those still to come.  A scope without a counterpart is either out of sight, and then nothing is known
of it, or it is *hollow*: it binds nothing and stands for a scope further out.

* `Value.Alike c k k' v v'`: the values are the same but for the scopes of functions, which
  correspond.
* `Host.InStep host c`: what the natives give for values that are alike is alike.
* `Heap.Alike c h h'`: counterparts bind the same names to values that are alike, inside scopes that
  correspond; and scopes out of sight are as they were at the start.
* `Heap.Alike.resolve?`: from scopes that correspond, a name is found in counterparts or not at all.
* `Heap.Alike.push`, `Heap.Alike.define`: the heaps stay alike when both grow by a scope, and when a
  name is bound in counterparts.
-/

namespace Lox

/-- Which scopes of two heaps, and of all that they grow to, correspond to each other. -/
structure Correspondence where
  /-- The scope that a scope of the first heap stands for: itself, unless it is hollow. -/
  left : Nat → Nat
  /-- The scope that a scope of the second heap stands for. -/
  right : Nat → Nat
  /-- Two scopes are counterparts. -/
  Pairs : Nat → Nat → Prop
  /-- The first heap at the start. -/
  first : Heap Value
  /-- The second heap at the start. -/
  second : Heap Value
  left_eq : ∀ {i j}, Pairs i j → left i = i
  right_eq : ∀ {i j}, Pairs i j → right j = j
  left_inj : ∀ {i i' j}, Pairs i j → Pairs i' j → i = i'
  right_inj : ∀ {i j j'}, Pairs i j → Pairs i j' → j = j'

/-- The scopes stand for counterparts. -/
def Correspondence.Related (c : Correspondence) (i j : Nat) : Prop := c.Pairs (c.left i) (c.right j)

theorem Correspondence.Related.of_pairs {c : Correspondence} {i j : Nat} (h : c.Pairs i j) :
    c.Related i j := by
  rw [Related, c.left_eq h, c.right_eq h]
  exact h

variable {c : Correspondence} {k k' l l' : Nat}

/-! ### Values -/

/-- The values are the same but for the scopes of functions.  These correspond, and are among the
first so many of their heaps. -/
inductive Value.Alike (c : Correspondence) (k k' : Nat) : Value → Value → Prop where
  | plain {v : Value} (h : v.function? = none) : Alike c k k' v v
  | function {name : Json} {params : List Json} {body : List Node} {i j : Nat}
      (h : c.Related i j) (hi : i < k) (hj : j < k') :
      Alike c k k' (.function name params body i) (.function name params body j)

namespace Value.Alike

variable {a a' b b' v v' : Value}

/-- Values stay alike while scopes are added. -/
theorem mono (h : v.Alike c k k' v') (hk : k ≤ l) (hk' : k' ≤ l') : v.Alike c l l' v' := by
  cases h with
  | plain h => exact .plain h
  | function h hi hj => exact .function h (Nat.lt_of_lt_of_le hi hk) (Nat.lt_of_lt_of_le hj hk')

/-- A value is like itself if the scope of its function corresponds to itself. -/
theorem refl (hc : ∀ i, v.closure? = some i → c.Related i i ∧ i < k ∧ i < k') : v.Alike c k k' v := by
  cases v with
  | function name params body closure =>
      obtain ⟨hr, hk, hk'⟩ := hc closure rfl
      exact .function hr hk hk'
  | _ => exact .plain rfl

theorem isTruthy (h : v.Alike c k k' v') : v.isTruthy = v'.isTruthy := by
  cases h <;> rfl

theorem kindName (h : v.Alike c k k' v') : v.kindName = v'.kindName := by
  cases h <;> rfl

theorem arity? (h : v.Alike c k k' v') : v.arity? = v'.arity? := by
  cases h <;> rfl

theorem dataText (h : v.Alike c k k' v') : v.dataText = v'.dataText := by
  cases h <;> rfl

/-- Values that are alike are printed alike. -/
theorem display (h : v.Alike c k k' v') : v.display = v'.display := by
  cases h <;> rfl

theorem decidesAlone (h : v.Alike c k k' v') (o : Token) :
    Lox.decidesAlone o v = Lox.decidesAlone o v' := by
  rw [Lox.decidesAlone, Lox.decidesAlone, h.isTruthy]

/-- Operators do not look at the scopes of functions. -/
theorem applyUnary (h : v.Alike c k k' v') (o : Token) :
    Lox.applyUnary o v = Lox.applyUnary o v' := by
  cases h <;> rfl

/-- Equality takes no function for the same as anything. -/
theorem applyBinary (ha : a.Alike c k k' a') (hb : b.Alike c k k' b') (o : Token) :
    Lox.applyBinary o a b = Lox.applyBinary o a' b' := by
  cases ha with
  | plain =>
      cases hb with
      | plain => rfl
      | function => cases a <;> rfl
  | function =>
      cases hb with
      | plain => cases b <;> rfl
      | function => rfl

theorem spellingFrames (h : v.Alike c k k' v') : v.spellingFrames = v'.spellingFrames := by
  cases h <;> rfl

/-- Whether a call is refused does not depend on them either. -/
theorem checkCall (h : v.Alike c k k' v') (config : Config) (given depth : Nat) (paren : Token) :
    Lox.checkCall config v given depth paren = Lox.checkCall config v' given depth paren := by
  rw [Lox.checkCall, Lox.checkCall, h.arity?, h.kindName]

end Value.Alike

/-! ### Replies of the host -/

/-- The replies are the same but for the scopes of functions, which correspond. -/
inductive Reply.Alike (c : Correspondence) (k k' : Nat) : Reply → Reply → Prop where
  | value {v v' : Value} (h : v.Alike c k k' v') : Alike c k k' (.value v) (.value v')
  | raised (error : String) : Alike c k k' (.raised error) (.raised error)
  | never : Alike c k k' .never .never

/-- What the natives give for values that are alike is alike, on all that the two heaps grow to. -/
def Host.InStep (host : Host) (c : Correspondence) : Prop :=
  ∀ function before k k' vs vs', c.first.size ≤ k → c.second.size ≤ k' →
    List.Forall₂ (Value.Alike c k k') vs vs' →
    (host.call function before vs).Alike c k k' (host.call function before vs')

/-- It is enough to look at the natives that were handed in. -/
theorem Host.InStep.of_reply {host : Host}
    (h : ∀ number before k k' vs vs', c.first.size ≤ k → c.second.size ≤ k' →
      List.Forall₂ (Value.Alike c k k') vs vs' →
      (host.reply number before vs).Alike c k k' (host.reply number before vs')) :
    host.InStep c := by
  intro function before k k' vs vs' hk hk' hvs
  cases function with
  | clock => exact .value (.plain rfl)
  | given number => exact h number before k k' vs vs' hk hk' hvs

/-! ### Bindings -/

/-- Bindings of the same names to values that are related. -/
def BindingsRel (R : Value → Value → Prop) : List (Name × Value) → List (Name × Value) → Prop :=
  List.Forall₂ fun b b' => b.1 = b'.1 ∧ R b.2 b'.2

namespace BindingsRel

variable {R : Value → Value → Prop} {bs bs' : List (Name × Value)}

/-- In such bindings, a name is found in both or in neither. -/
theorem lookup (h : BindingsRel R bs bs') (name : Name) :
    Option.Rel R (bs.lookup name) (bs'.lookup name) := by
  induction h with
  | nil => exact .none
  | @cons b b' bs bs' hb _ ih =>
      obtain ⟨name', v⟩ := b
      obtain ⟨name'', v'⟩ := b'
      obtain ⟨rfl, hv⟩ := hb
      simp only [List.lookup_cons]
      cases name == name' with
      | true => exact .some hv
      | false => exact ih

/-- The same name may be bound on both sides, to values that are related. -/
theorem bind (h : BindingsRel R bs bs') (name : Name) {v v' : Value} (hv : R v v') :
    BindingsRel R (Scope.bind name v bs) (Scope.bind name v' bs') := by
  induction h with
  | nil => exact .cons ⟨rfl, hv⟩ .nil
  | @cons b b' bs bs' hb hbs ih =>
      obtain ⟨name', w⟩ := b
      obtain ⟨name'', w'⟩ := b'
      obtain ⟨rfl, hw⟩ := hb
      rw [Scope.bind, Scope.bind]
      split
      · exact .cons ⟨rfl, hv⟩ hbs
      · exact .cons ⟨rfl, hw⟩ ih

/-- Names bound to values one by one. -/
theorem zip {vs vs' : List Value} (h : List.Forall₂ R vs vs') (names : List Name) :
    BindingsRel R (names.zip vs) (names.zip vs') := by
  induction h generalizing names with
  | nil =>
      rw [List.zip_nil_right]
      exact .nil
  | cons hv _ ih =>
      cases names with
      | nil => exact .nil
      | cons name names => exact .cons ⟨rfl, hv⟩ (ih names)

end BindingsRel

/-! ### Scopes -/

/-- Bindings of the same names to values that are alike. -/
def BindingsAlike (c : Correspondence) (k k' : Nat) :
    List (Name × Value) → List (Name × Value) → Prop :=
  List.Forall₂ fun b b' => b.1 = b'.1 ∧ b.2.Alike c k k' b'.2

/-- Scopes with bindings that are alike, inside scopes that correspond. -/
structure Scope.Alike (c : Correspondence) (k k' : Nat) (s s' : Scope Value) : Prop where
  enclosing : Option.Rel c.Related s.enclosing s'.enclosing
  bindings : BindingsAlike c k k' s.bindings s'.bindings

theorem BindingsAlike.mono {bs bs' : List (Name × Value)} (h : BindingsAlike c k k' bs bs')
    (hk : k ≤ l) (hk' : k' ≤ l') : BindingsAlike c l l' bs bs' :=
  List.Forall₂.imp (fun _ _ hb => ⟨hb.1, hb.2.mono hk hk'⟩) h

namespace Scope.Alike

variable {s s' : Scope Value}

theorem mono (h : s.Alike c k k' s') (hk : k ≤ l) (hk' : k' ≤ l') : s.Alike c l l' s' :=
  ⟨h.enclosing, h.bindings.mono hk hk'⟩

theorem find? (h : s.Alike c k k' s') (name : Name) :
    Option.Rel (Value.Alike c k k') (s.find? name) (s'.find? name) :=
  BindingsRel.lookup h.bindings name

theorem defines (h : s.Alike c k k' s') (name : Name) : s.defines name = s'.defines name := by
  have hf := h.find? name
  rw [Scope.defines, Scope.defines]
  generalize s.find? name = o, s'.find? name = o' at hf ⊢
  cases hf <;> rfl

/-- So it may in scopes that are alike. -/
theorem put (h : s.Alike c k k' s') (name : Name) {v v' : Value} (hv : v.Alike c k k' v') :
    (s.put name v).Alike c k k' (s'.put name v') :=
  ⟨h.enclosing, BindingsRel.bind h.bindings name hv⟩

end Scope.Alike

/-! ### Heaps -/

/-- One of the two heaps by itself, given what its scopes stand for, which of them are in sight, and
what it was at the start. -/
structure Heap.InOrder (stands : Nat → Nat) (Seen : Nat → Prop) (h start : Heap Value) : Prop where
  descends : h.Descends
  grown : start.size ≤ h.size
  /-- A hollow scope binds nothing, and stands for the same scope as the one around it. -/
  hollow : ∀ i s, h.get? i = some s → stands i ≠ i →
    s.bindings = [] ∧ ∃ o, s.enclosing = some o ∧ stands o = stands i
  /-- Scopes out of sight are as they were. -/
  frame : ∀ i < start.size, ¬ Seen i → h.get? i = start.get? i

/-- What two heaps are in sight of is alike. -/
structure Heap.Alike (c : Correspondence) (h h' : Heap Value) : Prop where
  first : h.InOrder c.left (fun i => ∃ j, c.Pairs i j) c.first
  second : h'.InOrder c.right (fun j => ∃ i, c.Pairs i j) c.second
  /-- The scopes made next are counterparts. -/
  fresh : ∀ d, c.Pairs (h.size + d) (h'.size + d)
  /-- Counterparts are alike. -/
  scopes : ∀ i j s s', c.Pairs i j → h.get? i = some s → h'.get? j = some s' →
    s.Alike c h.size h'.size s'

namespace Heap.InOrder

variable {stands : Nat → Nat} {Seen : Nat → Prop} {start h : Heap Value} {i o : Nat} {s : Scope Value}

/-- The walk to a name passes through a hollow scope. -/
theorem resolve?_hollow (hh : h.InOrder stands Seen start) (hs : h.get? i = some s)
    (hi : stands i ≠ i) (name : Name) :
    ∃ o, o < i ∧ stands o = stands i ∧ h.resolve? i name = h.resolve? o name := by
  obtain ⟨hb, o, ho, hstands⟩ := hh.hollow i s hs hi
  have hdef : s.defines name = false := by rw [Scope.defines, Scope.find?, hb]; rfl
  refine ⟨o, hh.descends i s o hs ho, hstands, ?_⟩
  rw [Heap.resolve?_eq hh.descends name hs, ho, hdef]
  rfl

/-- A new scope is in sight and not hollow. -/
theorem push (hh : h.InOrder stands Seen start) (ho : o < h.size) (hstands : stands h.size = h.size)
    (hseen : Seen h.size) : (h.push (some o)).InOrder stands Seen start := by
  refine ⟨fun i s e hs he => ?_, Nat.le_trans hh.grown (Heap.Grows.push _ _).size_le,
    fun i s hs hi => ?_, fun i hi hn => ?_⟩
  · rw [Heap.get?_push] at hs
    split at hs
    · rename_i hi
      cases hs
      cases he
      rwa [hi]
    · exact hh.descends i s e hs he
  · rw [Heap.get?_push] at hs
    split at hs
    · rename_i hnew
      rw [hnew] at hi
      exact absurd hstands hi
    · exact hh.hollow i s hs hi
  · rw [Heap.get?_push, if_neg fun hnew => hn (by rwa [hnew])]
    exact hh.frame i hi hn

/-- A name is bound in a scope that is in sight and not hollow. -/
theorem define (hh : h.InOrder stands Seen start) (hstands : stands i = i) (hseen : Seen i)
    (name : Name) (v : Value) : (h.define i name v).InOrder stands Seen start := by
  refine ⟨fun i' s e hs he => ?_, Nat.le_trans hh.grown (Heap.Grows.define _ _ _ _).size_le,
    fun i' s hs hi' => ?_, fun i' hi' hn => ?_⟩
  · obtain ⟨s', hs', he'⟩ := Heap.Grows.of_links
      (fun i' => (Heap.enclosing_defineAll h i [(name, v)] i').symm) i' s hs
    exact hh.descends i' s' e hs' (he'.trans he)
  · rw [Heap.get?_define, if_neg fun heq => hi' (by rwa [← heq])] at hs
    exact hh.hollow i' s hs hi'
  · rw [Heap.get?_define, if_neg fun heq => hn (by rwa [← heq])]
    exact hh.frame i' hi' hn

end Heap.InOrder

namespace Heap.Alike

variable {h h' : Heap Value} {i j : Nat}

/-- Counterparts are there at the same time. -/
theorem lt_iff (ha : Heap.Alike c h h') (hp : c.Pairs i j) : i < h.size ↔ j < h'.size := by
  constructor
  · intro hi
    refine Nat.lt_of_not_le fun hj => ?_
    have hf := ha.fresh (j - h'.size)
    rw [Nat.add_sub_cancel' hj] at hf
    have := c.left_inj hp hf
    omega
  · intro hj
    refine Nat.lt_of_not_le fun hi => ?_
    have hf := ha.fresh (i - h.size)
    rw [Nat.add_sub_cancel' hi] at hf
    have := c.right_inj hp hf
    omega

/-- From scopes that correspond, a name is found in counterparts or not at all. -/
theorem resolve? (ha : Heap.Alike c h h') (name : Name) (hr : c.Related i j) (hi : i < h.size)
    (hj : j < h'.size) :
    Option.Rel (fun i j => c.Pairs i j ∧ i < h.size ∧ j < h'.size) (h.resolve? i name)
      (h'.resolve? j name) := by
  -- each walk passes through its hollow scopes by itself, and through counterparts with the other
  induction hn : i + j using Nat.strongRecOn generalizing i j with
  | ind n ih =>
      obtain ⟨s, hs⟩ := Heap.exists_get? hi
      obtain ⟨s', hs'⟩ := Heap.exists_get? hj
      by_cases hl : c.left i = i
      · by_cases hl' : c.right j = j
        · rw [Correspondence.Related, hl, hl'] at hr
          have hscope := ha.scopes i j s s' hr hs hs'
          rw [Heap.resolve?_eq ha.first.descends name hs,
            Heap.resolve?_eq ha.second.descends name hs', ← hscope.defines name]
          cases s.defines name with
          | true => exact .some ⟨hr, hi, hj⟩
          | false =>
              have he := hscope.enclosing
              generalize ho : s.enclosing = e, ho' : s'.enclosing = e' at he
              cases he with
              | none => exact .none
              | @some o o' hr' =>
                  have hlt := ha.first.descends i s o hs ho
                  have hlt' := ha.second.descends j s' o' hs' ho'
                  exact ih (o + o') (by omega) hr' (by omega) (by omega) rfl
        · obtain ⟨o, hlt, hstands, heq⟩ := ha.second.resolve?_hollow hs' hl' name
          rw [heq]
          refine ih (i + o) (by omega) ?_ hi (by omega) rfl
          rwa [Correspondence.Related, hstands]
      · obtain ⟨o, hlt, hstands, heq⟩ := ha.first.resolve?_hollow hs hl name
        rw [heq]
        refine ih (o + j) (by omega) ?_ (by omega) hj rfl
        rwa [Correspondence.Related, hstands]

/-- From scopes that correspond, a name stands for values that are alike. -/
theorem lookup? (ha : Heap.Alike c h h') (name : Name) (hr : c.Related i j) (hi : i < h.size)
    (hj : j < h'.size) :
    Option.Rel (Value.Alike c h.size h'.size) (h.lookup? i name) (h'.lookup? j name) := by
  have hres := ha.resolve? name hr hi hj
  rw [Heap.lookup?, Heap.lookup?]
  generalize h.resolve? i name = o, h'.resolve? j name = o' at hres ⊢
  cases hres with
  | none => exact .none
  | some hp =>
      obtain ⟨hp, hi, hj⟩ := hp
      obtain ⟨s, hs⟩ := Heap.exists_get? hi
      obtain ⟨s', hs'⟩ := Heap.exists_get? hj
      simp only [hs, hs']
      exact (ha.scopes _ _ s s' hp hs hs').find? name

/-- Both heaps grow by a scope, inside scopes that correspond. -/
theorem push (ha : Heap.Alike c h h') {o o' : Nat} (hr : c.Related o o') (ho : o < h.size)
    (ho' : o' < h'.size) : Heap.Alike c (h.push (some o)) (h'.push (some o')) := by
  have hnew : c.Pairs h.size h'.size := ha.fresh 0
  refine ⟨ha.first.push ho (c.left_eq hnew) ⟨_, hnew⟩, ha.second.push ho' (c.right_eq hnew) ⟨_, hnew⟩,
    fun d => ?_, fun i j s s' hp hs hs' => ?_⟩
  · rw [Heap.size_push, Heap.size_push, Nat.add_assoc, Nat.add_assoc, Nat.add_comm 1]
    exact ha.fresh (d + 1)
  · rw [Heap.get?_push] at hs hs'
    rw [Heap.size_push, Heap.size_push]
    split at hs
    · rename_i hi
      subst hi
      rw [if_pos (c.right_inj hp hnew)] at hs'
      cases hs
      cases hs'
      exact ⟨.some hr, .nil⟩
    · rename_i hi
      rw [if_neg] at hs'
      · exact (ha.scopes i j s s' hp hs hs').mono (Nat.le_succ _) (Nat.le_succ _)
      · rintro rfl
        exact hi (c.left_inj hp hnew)

/-- A name is bound in counterparts. -/
theorem define (ha : Heap.Alike c h h') (hp : c.Pairs i j) (name : Name) {v v' : Value}
    (hv : v.Alike c h.size h'.size v') : Heap.Alike c (h.define i name v) (h'.define j name v') := by
  refine ⟨ha.first.define (c.left_eq hp) ⟨_, hp⟩ name v,
    ha.second.define (c.right_eq hp) ⟨_, hp⟩ name v', fun d => ?_, fun i' j' s s' hp' hs hs' => ?_⟩
  · rw [Heap.size_define, Heap.size_define]
    exact ha.fresh d
  · rw [Heap.get?_define] at hs hs'
    rw [Heap.size_define, Heap.size_define]
    split at hs
    · rename_i hi
      subst hi
      rw [if_pos (c.right_inj hp hp')] at hs'
      obtain ⟨t, ht, rfl⟩ := Option.map_eq_some_iff.mp hs
      obtain ⟨t', ht', rfl⟩ := Option.map_eq_some_iff.mp hs'
      exact (ha.scopes i j' t t' hp' ht ht').put name hv
    · rename_i hi
      rw [if_neg] at hs'
      · exact ha.scopes i' j' s s' hp' hs hs'
      · rintro rfl
        exact hi (c.left_inj hp hp')

/-- Counterparts may bind many names at once, as in a call. -/
theorem defineAll (ha : Heap.Alike c h h') (hp : c.Pairs i j) {bs bs' : List (Name × Value)}
    (hb : BindingsAlike c h.size h'.size bs bs') :
    Heap.Alike c (h.defineAll i bs) (h'.defineAll j bs') := by
  generalize hk : h.size = k, hk' : h'.size = k' at hb
  induction hb generalizing h h' with
  | nil => exact ha
  | @cons b b' bs bs' hb _ ih =>
      obtain ⟨name, v⟩ := b
      obtain ⟨name', v'⟩ := b'
      obtain ⟨rfl, hv⟩ := hb
      subst hk hk'
      exact ih (ha.define hp _ hv) (Heap.size_define _ _ _ _) (Heap.size_define _ _ _ _)

end Heap.Alike

end Lox
