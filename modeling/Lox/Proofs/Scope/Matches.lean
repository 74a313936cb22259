import Lox.Proofs.Node.Matches
import Lox.Proofs.Scope.Alike

/-!
# Heaps that differ only in the tokens of functions

A function keeps the trees of its body, and with them the tokens of the text it was declared in.  All
else that scopes hold is free of tokens.

* `Value.Matches L v v'`: the values are the same, but for functions, whose bodies match.
* `Host.Respects host L`: what the natives give for values that match matches.
* `Heap.Matches L h h'`: the same scopes inside the same scopes, with bindings of the same names to
  values that match.  A name is then found in the same scope (`Heap.Matches.resolve?`), and both heaps
  can be changed in the same way (`Heap.Matches.push`, `Heap.Matches.define`).
* `Value.Agrees h h' v v'`: what can be told of two values from outside is the same; of a function,
  its name, its arity and how many scopes are around its own.
-/

namespace Lox

variable {L L' : Token.Likeness}

/-! ### Values -/

/-- The values are the same, but for functions, whose bodies match. -/
inductive Value.Matches (L : Token.Likeness) : Value → Value → Prop where
  | plain {v : Value} (h : v.function? = none) : Matches L v v
  | function {name : Json} {params : List Json} {body body' : List Node} {closure : Nat}
      (h : List.Forall₂ (Node.Matches L) body body') :
      Matches L (.function name params body closure) (.function name params body' closure)

namespace Value.Matches

variable {a a' b b' v v' : Value}

/-- A value matches itself if the body of its function does. -/
theorem refl (hL : ∀ t, L.Rel t t) (v : Value) : v.Matches L v := by
  cases v with
  | function name params body closure => exact .function (Node.Matches.refl_all hL body)
  | _ => exact .plain rfl

/-- A wider likeness is enough. -/
theorem mono (hL : ∀ {t t'}, L.Rel t t' → L'.Rel t t') (h : v.Matches L v') : v.Matches L' v' := by
  cases h with
  | plain h => exact .plain h
  | function h => exact .function (Node.Matches.mono_all hL h)

theorem isTruthy (h : v.Matches L v') : v.isTruthy = v'.isTruthy := by
  cases h <;> rfl

theorem kindName (h : v.Matches L v') : v.kindName = v'.kindName := by
  cases h <;> rfl

theorem arity? (h : v.Matches L v') : v.arity? = v'.arity? := by
  cases h <;> rfl

theorem dataText (h : v.Matches L v') : v.dataText = v'.dataText := by
  cases h <;> rfl

/-- Values that match are printed alike, since a function shows its name only. -/
theorem display (h : v.Matches L v') : v.display = v'.display := by
  cases h <;> rfl

theorem spellingFrames (h : v.Matches L v') : v.spellingFrames = v'.spellingFrames := by
  cases h <;> rfl

/-- Operators do not look at the bodies of functions. -/
theorem applyUnary (h : v.Matches L v') (o : Token) : Lox.applyUnary o v = Lox.applyUnary o v' := by
  cases h <;> rfl

/-- Equality takes no function for the same as anything. -/
theorem applyBinary (ha : a.Matches L a') (hb : b.Matches L b') (o : Token) :
    Lox.applyBinary o a b = Lox.applyBinary o a' b' := by
  cases ha with
  | plain =>
      cases hb with
      | plain => rfl
      | function => cases a <;> rfl
  | function =>
      cases hb with
      | plain => cases b <;> rfl
      | function => rfl

end Value.Matches

/-! ### Replies of the host -/

/-- The replies are the same, but for functions, whose bodies match. -/
inductive Reply.Matches (L : Token.Likeness) : Reply → Reply → Prop where
  | value {v v' : Value} (h : v.Matches L v') : Matches L (.value v) (.value v')
  | raised (error : String) : Matches L (.raised error) (.raised error)
  | never : Matches L .never .never

/-- What the natives give for values that match matches: they do not look at what `L` leaves free in the
tokens of functions. -/
def Host.Respects (host : Host) (L : Token.Likeness) : Prop :=
  ∀ function before vs vs', List.Forall₂ (Value.Matches L) vs vs' →
    (host.call function before vs).Matches L (host.call function before vs')

/-- What the natives give does not depend on the lines of tokens.  They may hold functions by themselves,
with tokens in a set. -/
def Host.IgnoresLines (host : Host) (P : Token → Prop) : Prop :=
  ∀ L : Token.Likeness, (∀ t, P t → L.Rel t t) → host.Respects L

/-- A host with nothing but a clock looks at no token. -/
theorem Host.ofClock_ignoresLines (clock : Nat → Number) (P : Token → Prop) :
    (Host.ofClock clock).IgnoresLines P := by
  intro L _ function before vs vs' _
  cases function with
  | clock => exact .value (.plain rfl)
  | given => exact .raised ""

/-! ### Scopes -/

/-- Scopes inside the same scope, with values that match. -/
structure Scope.Matches (L : Token.Likeness) (s s' : Scope Value) : Prop where
  enclosing : s.enclosing = s'.enclosing
  bindings : BindingsRel (Value.Matches L) s.bindings s'.bindings

namespace Scope.Matches

variable {s s' : Scope Value}

theorem find? (h : s.Matches L s') (name : Name) :
    Option.Rel (Value.Matches L) (s.find? name) (s'.find? name) :=
  h.bindings.lookup name

theorem defines (h : s.Matches L s') (name : Name) : s.defines name = s'.defines name := by
  have hf := h.find? name
  rw [Scope.defines, Scope.defines]
  generalize s.find? name = o, s'.find? name = o' at hf ⊢
  cases hf <;> rfl

/-- The same name may be bound on both sides, to values that match. -/
theorem put (h : s.Matches L s') (name : Name) {v v' : Value} (hv : v.Matches L v') :
    (s.put name v).Matches L (s'.put name v') :=
  ⟨h.enclosing, h.bindings.bind name hv⟩

end Scope.Matches

/-! ### Heaps -/

/-- The same scopes inside the same scopes, with values that match. -/
structure Heap.Matches (L : Token.Likeness) (h h' : Heap Value) : Prop where
  size : h.size = h'.size
  scopes : ∀ i, Option.Rel (Scope.Matches L) (h.get? i) (h'.get? i)

namespace Heap.Matches

variable {h h' : Heap Value}

/-- If every token is like itself, a heap matches itself. -/
theorem refl (hL : ∀ t, L.Rel t t) (h : Heap Value) : h.Matches L h := by
  refine ⟨rfl, fun i => ?_⟩
  cases h.get? i with
  | none => exact .none
  | some s => exact .some ⟨rfl, List.forall₂_same.mpr fun b _ => ⟨rfl, .refl hL b.2⟩⟩

/-- What matches under a likeness matches under a coarser one. -/
theorem mono (hL : ∀ {t t'}, L.Rel t t' → L'.Rel t t') (hh : h.Matches L h') :
    h.Matches L' h' := by
  refine ⟨hh.size, fun i => ?_⟩
  have hs := hh.scopes i
  generalize h.get? i = o, h'.get? i = o' at hs
  cases hs with
  | none => exact .none
  | some hs => exact .some ⟨hs.enclosing, hs.bindings.imp fun _ _ hb => ⟨hb.1, hb.2.mono hL⟩⟩

/-- A name is found in the same scope. -/
theorem resolve? (hh : h.Matches L h') (i : Nat) (name : Name) :
    h.resolve? i name = h'.resolve? i name := by
  rw [Heap.resolve?, Heap.resolve?]
  generalize i + 1 = fuel
  induction fuel generalizing i with
  | zero => rfl
  | succ fuel ih =>
      have hs := hh.scopes i
      rw [resolveFrom, resolveFrom]
      generalize h.get? i = o, h'.get? i = o' at hs
      cases hs with
      | none => rfl
      | some hs =>
          dsimp only
          rw [← hs.defines name, ← hs.enclosing]
          split
          · rfl
          · split
            · rfl
            · exact ih _

/-- From the same scope, a name stands for values that match. -/
theorem lookup? (hh : h.Matches L h') (i : Nat) (name : Name) :
    Option.Rel (Value.Matches L) (h.lookup? i name) (h'.lookup? i name) := by
  rw [Heap.lookup?, Heap.lookup?, ← hh.resolve? i name]
  split
  · exact .none
  · rename_i found _
    have hs := hh.scopes found
    generalize h.get? found = o, h'.get? found = o' at hs
    cases hs with
    | none => exact .none
    | some hs => exact hs.find? name

/-- As many scopes are around a scope. -/
theorem depth (hh : h.Matches L h') (i : Nat) : h.depth i = h'.depth i := by
  rw [Heap.depth, Heap.depth]
  generalize i + 1 = fuel
  induction fuel generalizing i with
  | zero => rfl
  | succ fuel ih =>
      have hs := hh.scopes i
      rw [depthFrom, depthFrom]
      generalize h.get? i = o, h'.get? i = o' at hs
      cases hs with
      | none => rfl
      | some hs =>
          dsimp only
          rw [← hs.enclosing]
          split
          · rfl
          · rw [ih]

/-- Both heaps may make the same scope. -/
theorem push (hh : h.Matches L h') (enclosing : Option Nat) :
    (h.push enclosing).Matches L (h'.push enclosing) := by
  refine ⟨?_, fun i => ?_⟩
  · rw [size_push, size_push, hh.size]
  · rw [get?_push, get?_push, ← hh.size]
    split
    · exact .some ⟨rfl, .nil⟩
    · exact hh.scopes i

/-- In the same scope of both, a name may be bound to values that match. -/
theorem define (hh : h.Matches L h') (i : Nat) (name : Name) {v v' : Value}
    (hv : v.Matches L v') : (h.define i name v).Matches L (h'.define i name v') := by
  refine ⟨?_, fun j => ?_⟩
  · rw [size_define, size_define, hh.size]
  · have hs := hh.scopes j
    rw [get?_define, get?_define]
    split
    · generalize h.get? j = o, h'.get? j = o' at hs
      cases hs with
      | none => exact .none
      | some hs => exact .some (hs.put name hv)
    · exact hs

theorem defineAll (hh : h.Matches L h') (i : Nat) {bs bs' : List (Name × Value)}
    (hb : BindingsRel (Value.Matches L) bs bs') :
    (h.defineAll i bs).Matches L (h'.defineAll i bs') := by
  induction hb generalizing h h' with
  | nil => exact hh
  | @cons b b' bs bs' hb _ ih =>
      obtain ⟨name, v⟩ := b
      obtain ⟨name', v'⟩ := b'
      obtain ⟨rfl, hv⟩ := hb
      exact ih (hh.define i _ hv)

end Heap.Matches

/-! ### What can be told of a value -/

/-- Functions of the same name and arity with as many scopes around their own, or else the same
value. -/
def Value.Agrees (h h' : Heap Value) : Value → Value → Prop
  | .function name params _ closure, .function name' params' _ closure' =>
    name = name' ∧ params.length = params'.length ∧ h.depth closure = h'.depth closure'
  | v, v' => v = v'

/-- On heaps that match, values that match agree. -/
theorem Value.Matches.agrees {h h' : Heap Value} (hh : h.Matches L h') {v v' : Value}
    (hv : v.Matches L v') : v.Agrees h h' v' := by
  cases hv with
  | function => exact ⟨rfl, rfl, hh.depth _⟩
  | plain hf =>
      cases v with
      | function => cases hf
      | _ => exact rfl

end Lox
