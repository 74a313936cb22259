import Lox.Proofs.Node.Parsed
import Lox.Proofs.Text
import Lox.Session

/-!
# Values of the language

`Value.Proper`: a text that is a string, a number, a boolean, `nil`, a function whose body is that of a
program text, or a native that is known.  A tree that was put into a literal by hand is none.

`Fault.UserFacing`: the faults that a program can run into by itself.  Operators of a program text
give proper values or such faults (`applyUnary_ok`, `applyUnary_error` and so on), and natives are asked to
give proper values (`Host.Returns`).  What is told of proper values can be written (`Value.Proper.display`,
`Fault.UserFacing.message`).
-/

namespace Lox

open Node (IsStatement)

/-- Which natives are known, by how many arguments they take and the number of their function. -/
abbrev Natives : Type := Int → Nat → Prop

/-- A value of one of the six kinds of the language. -/
inductive Value.Proper (known : Natives) : Value → Prop where
  | text (s : String) : Proper known (.text s)
  | number (x : Number) : Proper known (.number x)
  | bool (b : Bool) : Proper known (.bool b)
  | nil : Proper known .nil
  | function {name : Json} {params : List Json} {body : List Node} {closure : Nat}
      (hn : ∃ s : String, name = .word s) (hp : ∀ p ∈ params, ∃ s : String, p = .word s)
      (hb : ∀ s ∈ body, IsStatement Token.IsCut true s) :
      Proper known (.function name params body closure)
  | clock {name : Text} {arity : Int} : Proper known (.native name arity .clock)
  | native {name : Text} {arity : Int} {number : Nat} (h : known arity number) :
      Proper known (.native name arity (.given number))

/-- The native is the clock or a known one. -/
def Native.Known (known : Natives) (native : Native) : Prop := native.toValue.Proper known

/-- Called with the right number of proper values, each of the natives gives a proper value, if it ends. -/
def Host.Returns (host : Host) (known : Natives) : Prop :=
  ∀ arity number, known arity number → ∀ before vs, (vs.length : Int) = arity →
    (∀ v ∈ vs, v.Proper known) → (∀ error, host.reply number before vs ≠ .raised error) ∧
      ∀ v, host.reply number before vs = .value v → v.Proper known

/-- A fault that the program itself is to blame for: an undefined variable, a value of the wrong
kind, a wrong number of arguments, or too many open calls. -/
inductive Fault.UserFacing : Fault → Prop where
  | undefined (name : Token) : UserFacing (.undefined name)
  | operand (place : Token) (given : String) : UserFacing (.misuse place (.operand given))
  | additionOperands (place : Token) (left right : String) :
      UserFacing (.misuse place (.additionOperands left right))
  | operands (place : Token) (left right : String) :
      UserFacing (.misuse place (.operands left right))
  | notCallable (place : Token) (given : String) : UserFacing (.misuse place (.notCallable given))
  | arity (place : Token) (expected : Int) (given : Nat) :
      UserFacing (.misuse place (.arity expected given))
  | overflow (place : Option Token) : UserFacing (.overflow place)

/-- A user-facing fault is one of the language, with a name of its own. -/
theorem Fault.UserFacing.label {f : Fault} (h : f.UserFacing) : f.label?.isSome = true := by
  cases h <;> rfl

/-! ### Lines about values -/

section Lines

variable {known : Natives} {v : Value} {f : Fault}

/-- The spelling of a proper value as data can be written. -/
theorem Value.Proper.dataText (h : v.Proper known) : v.dataText.isProper = true := by
  cases h with
  | bool b => cases b <;> rfl
  | function hn =>
      obtain ⟨s, rfl⟩ := hn
      rfl
  | _ => rfl

/-- What is printed of a proper value can be written. -/
theorem Value.Proper.display (h : v.Proper known) : v.display.isProper = true := by
  cases h with
  | bool b => cases b <;> rfl
  | function hn hp hb => exact dataText (.function hn hp hb : (Value.function _ _ _ _).Proper known)
  | _ => rfl

/-- The mark of the line of a token that was cut from a text can be written. -/
theorem Token.IsCut.lineMark {t : Token} (h : t.IsCut) : t.lineMark.isProper = true := by
  obtain ⟨lines, kind, text, line, -, -, rfl⟩ := h
  rfl

/-- The message of a user-facing fault at a token that was cut from a text can be written. -/
theorem Fault.UserFacing.message (h : f.UserFacing) (hplace : ∀ t, f.place? = some t → t.IsCut) :
    f.message.isProper = true := by
  have htext : f.text.isProper = true := by
    cases h with
    | undefined name =>
        obtain ⟨s, hs⟩ := (hplace name rfl).lexeme
        rw [Fault.text, Token.lexemeText, hs]
        rfl
    | _ => rfl
  rw [Fault.message]
  cases hp : f.place? with
  | none => exact htext
  | some t => simp [htext, (hplace t hp).lineMark]

end Lines

/-! ### Literals and operators -/

/-- A literal of a text is a proper value. -/
theorem Node.IsLiteral.proper {known : Natives} {v : Node} (h : v.IsLiteral) :
    (Value.ofNode v).Proper known := by
  cases h with
  | text s => exact .text s
  | number text => exact .number _
  | bool b => exact .bool b
  | nil => exact .nil

section Operators

variable {known : Natives} {o : Token} {a b v : Value} {f : Fault}

theorem applyUnary_ok (h : applyUnary o a = .ok v) : v.Proper known := by
  unfold applyUnary at h
  split at h
  · cases h
    exact .bool _
  · split at h
    · cases h
      exact .number _
    · cases h
  · cases h

/-- An operator of a text fails in a way that users are told. -/
theorem applyUnary_error (hk : o.kind ∈ [Kind.bang, .minus]) (h : applyUnary o a = .error f) :
    f.UserFacing := by
  unfold applyUnary at h
  split at h
  · cases h
  · split at h
    · cases h
    · cases h
      exact .operand _ _
  · rename_i hb hm
    simp only [List.mem_cons, List.not_mem_nil, or_false] at hk
    exact (hk.elim hb hm).elim

/-- What operators calculate are numbers and truth values. -/
theorem arithmetic?_proper {kind : Kind} {x y : Number} (h : arithmetic? kind x y = some v) :
    v.Proper known := by
  cases kind <;> cases h <;> first | exact .number _ | exact .bool _

/-- What is left of the operators has a value for any two numbers. -/
theorem arithmetic?_isSome {kind : Kind} (hk : kind ∈ Node.binaryKinds)
    (hne : kind ≠ .equalEqual ∧ kind ≠ .bangEqual ∧ kind ≠ .plus) (x y : Number) :
    ∃ v, arithmetic? kind x y = some v := by
  simp only [Node.binaryKinds, List.mem_cons, List.not_mem_nil, or_false] at hk
  obtain ⟨hee, hbe, hp⟩ := hne
  rcases hk with rfl | rfl | rfl | rfl | rfl | rfl | rfl | rfl | rfl | rfl
  case inr.inr.inr.inl => exact absurd rfl hp
  case inr.inr.inr.inr.inr.inr.inr.inr.inl => exact absurd rfl hbe
  case inr.inr.inr.inr.inr.inr.inr.inr.inr => exact absurd rfl hee
  all_goals exact ⟨_, rfl⟩

/-- Operators of a text give proper values. -/
theorem applyBinary_ok (ha : a.Proper known) (hb : b.Proper known) (h : applyBinary o a b = .ok v) :
    v.Proper known := by
  unfold applyBinary at h
  split at h
  · cases h
    exact .bool _
  · cases h
    exact .bool _
  · split at h
    · cases h
      exact .number _
    · cases h
      cases ha
      cases hb
      exact .text _
    · cases h
  · split at h
    · split at h
      · rename_i hv
        cases h
        exact arithmetic?_proper hv
      · cases h
    · cases h

/-- Where they fail, users are told. -/
theorem applyBinary_error (hk : o.kind ∈ Node.binaryKinds) (h : applyBinary o a b = .error f) :
    f.UserFacing := by
  unfold applyBinary at h
  split at h
  · cases h
  · cases h
  · split at h
    · cases h
    · cases h
    · cases h
      exact .additionOperands _ _ _
  · rename_i hee hbe hp
    split at h
    · rename_i x y
      split at h
      · cases h
      · rename_i hnone
        obtain ⟨v, hv⟩ := arithmetic?_isSome hk ⟨hee, hbe, hp⟩ x y
        rw [hnone] at hv
        cases hv
    · cases h
      exact .operands _ _ _

/-- Whatever its kind, an operator goes wrong only by misuse of it. -/
theorem applyUnary_misuse (h : applyUnary o a = .error f) : ∃ cause, f = .misuse o cause := by
  unfold applyUnary at h
  split at h
  · cases h
  · split at h <;> cases h
    exact ⟨_, rfl⟩
  · cases h
    exact ⟨_, rfl⟩

/-- The fault is found at the operator itself. -/
theorem applyBinary_misuse (h : applyBinary o a b = .error f) : ∃ cause, f = .misuse o cause := by
  unfold applyBinary at h
  split at h
  · cases h
  · cases h
  · split at h <;> cases h
    exact ⟨_, rfl⟩
  · split at h
    · split at h <;> cases h
      exact ⟨_, rfl⟩
    · cases h
      exact ⟨_, rfl⟩

end Operators

/-! ### Natives -/

/-- A proper native gives a proper value for proper arguments, if their number is right. -/
theorem Host.Returns.call {host : Host} {known : Natives} (hh : host.Returns known) {name : Text}
    {arity : Int} {function : HostFunction} (h : (Value.native name arity function).Proper known)
    (before : Nat) {vs : List Value} (hl : (vs.length : Int) = arity)
    (hvs : ∀ v ∈ vs, v.Proper known) :
    (∀ error, host.call function before vs ≠ .raised error) ∧
      ∀ v, host.call function before vs = .value v → v.Proper known := by
  cases h with
  | clock =>
      refine ⟨nofun, fun v hv => ?_⟩
      cases hv
      exact .number _
  | native hknown => exact hh _ _ hknown before vs hl hvs

end Lox
