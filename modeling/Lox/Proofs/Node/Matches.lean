import Mathlib.Data.List.Forall2
import Lox.Node

/-!
# Trees that differ only in where their tokens stand

Of a token, the kind, the text and the value decide how it is read and run.  A `Token.Likeness` is a
relation between tokens that keeps these and leaves the lines free: the lines may have been forgotten,
or moved, or moved for some of the tokens only.  It does not relate a line that can be written to one that
cannot, as a run that tells of its end stops there.

`Node.Matches L`: two trees have the same form, with tokens in `L` at the same places.  A literal is a
value and not something that is run, so literals match only if they are the same.
-/

namespace Lox

/-- A relation between tokens of the same kind, text and value. -/
structure Token.Likeness where
  Rel : Token → Token → Prop
  kind : ∀ {t t'}, Rel t t' → t.kind = t'.kind
  lexeme : ∀ {t t'}, Rel t t' → t.lexeme = t'.lexeme
  literal : ∀ {t t'}, Rel t t' → t.literal = t'.literal
  /-- Both lines can be written, or neither. -/
  written : ∀ {t t'}, Rel t t' → t.lineMark.isProper = t'.lineMark.isProper

namespace Token.Likeness

/-- Every token is like itself only. -/
def same : Likeness where
  Rel := Eq
  kind h := congrArg Token.kind h
  lexeme h := congrArg Token.lexeme h
  literal h := congrArg Token.literal h
  written h := by rw [show _ = _ from h]

/-- A token of a set is like itself. -/
def only (P : Token → Prop) : Likeness where
  Rel t t' := t = t' ∧ P t
  kind h := congrArg Token.kind h.1
  lexeme h := congrArg Token.lexeme h.1
  literal h := congrArg Token.literal h.1
  written h := by rw [h.1]

/-- The line does not matter, but for whether it can be written. -/
def anyLine : Likeness where
  Rel t t' := t.kind = t'.kind ∧ t.lexeme = t'.lexeme ∧ t.literal = t'.literal ∧
    t.lineMark.isProper = t'.lineMark.isProper
  kind h := h.1
  lexeme h := h.2.1
  literal h := h.2.2.1
  written h := h.2.2.2

theorem lexemeText (L : Likeness) {t t' : Token} (h : L.Rel t t') : t.lexemeText = t'.lexemeText := by
  rw [Token.lexemeText, Token.lexemeText, L.lexeme h]

end Token.Likeness

namespace Node

/-- Whether a tree is neither a statement nor an expression with parts: nothing, plain data, a
literal. -/
def isPlain : Node → Bool
  | .null | .bool _ | .number _ | .text _ | .nil | .list _ | .token _ | .data _ | .literal _ => true
  | _ => false

/-- Two trees of the same form, with tokens that are like each other at the same places. -/
inductive Matches (L : Token.Likeness) : Node → Node → Prop where
  | plain {n : Node} (h : n.isPlain = true) : Matches L n n
  | grouping {e e' : Node} (h : Matches L e e') : Matches L (.grouping e) (.grouping e')
  | reference {t t' : Token} (ht : L.Rel t t') : Matches L (.reference t) (.reference t')
  | assign {t t' : Token} {e e' : Node} (ht : L.Rel t t') (h : Matches L e e') :
      Matches L (.assign t e) (.assign t' e')
  | logical {l l' r r' : Node} {o o' : Token} (hl : Matches L l l') (ho : L.Rel o o')
      (hr : Matches L r r') : Matches L (.logical l o r) (.logical l' o' r')
  | unary {o o' : Token} {e e' : Node} (ho : L.Rel o o') (h : Matches L e e') :
      Matches L (.unary o e) (.unary o' e')
  | binary {l l' r r' : Node} {o o' : Token} (hl : Matches L l l') (ho : L.Rel o o')
      (hr : Matches L r r') : Matches L (.binary l o r) (.binary l' o' r')
  | call {e e' : Node} {paren paren' : Token} {es es' : List Node} (h : Matches L e e')
      (hp : L.Rel paren paren') (hs : List.Forall₂ (Matches L) es es') :
      Matches L (.call e paren es) (.call e' paren' es')
  | expression {e e' : Node} (h : Matches L e e') : Matches L (.expression e) (.expression e')
  | print {e e' : Node} (h : Matches L e e') : Matches L (.print e) (.print e')
  | declare {t t' : Token} {e e' : Node} (ht : L.Rel t t') (h : Matches L e e') :
      Matches L (.declare t e) (.declare t' e')
  | block {ss ss' : List Node} (h : List.Forall₂ (Matches L) ss ss') :
      Matches L (.block ss) (.block ss')
  | branch {c c' s s' r r' : Node} (hc : Matches L c c') (hs : Matches L s s')
      (hr : Matches L r r') : Matches L (.branch c s r) (.branch c' s' r')
  | loop {c c' s s' : Node} (hc : Matches L c c') (hs : Matches L s s') :
      Matches L (.loop c s) (.loop c' s')
  | function {t t' : Token} {ps ps' : List Token} {body body' : List Node} (ht : L.Rel t t')
      (hp : List.Forall₂ L.Rel ps ps') (hb : List.Forall₂ (Matches L) body body') :
      Matches L (.function t ps body) (.function t' ps' body')
  | returns {t t' : Token} {e e' : Node} (ht : L.Rel t t') (h : Matches L e e') :
      Matches L (.returns t e) (.returns t' e')

variable {L L' : Token.Likeness}

theorem Matches.null : Matches L .null .null := .plain rfl

/-- An absent part matches only an absent part. -/
theorem Matches.eq_null_iff {n n' : Node} (h : n.Matches L n') : n = .null ↔ n' = .null := by
  cases h with
  | plain => exact Iff.rfl
  | _ => exact ⟨nofun, nofun⟩

mutual

/-- Trees match under equality only if they are the same. -/
theorem Matches.eq_of_same {n n' : Node} : n.Matches .same n' → n = n'
  | .plain _ => rfl
  | .grouping h => congrArg Node.grouping h.eq_of_same
  | .reference ht => congrArg Node.reference ht
  | .assign ht h => congrArg₂ Node.assign ht h.eq_of_same
  | .logical hl ho hr => by rw [hl.eq_of_same, hr.eq_of_same, show _ = _ from ho]
  | .unary ho h => congrArg₂ Node.unary ho h.eq_of_same
  | .binary hl ho hr => by rw [hl.eq_of_same, hr.eq_of_same, show _ = _ from ho]
  | .call h hp hs => by rw [h.eq_of_same, show _ = _ from hp, Matches.eq_all_of_same hs]
  | .expression h => congrArg Node.expression h.eq_of_same
  | .print h => congrArg Node.print h.eq_of_same
  | .declare ht h => congrArg₂ Node.declare ht h.eq_of_same
  | .block h => congrArg Node.block (Matches.eq_all_of_same h)
  | .branch hc hs hr => by rw [hc.eq_of_same, hs.eq_of_same, hr.eq_of_same]
  | .loop hc hs => congrArg₂ Node.loop hc.eq_of_same hs.eq_of_same
  | @Matches.function _ _ _ ps ps' _ _ ht hp hb => by
      have hp : ps = ps' := (congrFun₂ List.forall₂_eq_eq_eq ps ps').mp hp
      rw [show _ = _ from ht, hp, Matches.eq_all_of_same hb]
  | .returns ht h => congrArg₂ Node.returns ht h.eq_of_same

/-- Under equality, lists that match are equal. -/
theorem Matches.eq_all_of_same {ns ns' : List Node} : List.Forall₂ (Matches .same) ns ns' → ns = ns'
  | .nil => rfl
  | .cons h hs => congrArg₂ List.cons h.eq_of_same (Matches.eq_all_of_same hs)

end

mutual

/-- A wider likeness is enough. -/
theorem Matches.mono (hL : ∀ {t t'}, L.Rel t t' → L'.Rel t t') {n n' : Node} :
    n.Matches L n' → n.Matches L' n'
  | .plain h => .plain h
  | .grouping h => .grouping (h.mono hL)
  | .reference ht => .reference (hL ht)
  | .assign ht h => .assign (hL ht) (h.mono hL)
  | .logical hl ho hr => .logical (hl.mono hL) (hL ho) (hr.mono hL)
  | .unary ho h => .unary (hL ho) (h.mono hL)
  | .binary hl ho hr => .binary (hl.mono hL) (hL ho) (hr.mono hL)
  | .call h hp hs => .call (h.mono hL) (hL hp) (Matches.mono_all hL hs)
  | .expression h => .expression (h.mono hL)
  | .print h => .print (h.mono hL)
  | .declare ht h => .declare (hL ht) (h.mono hL)
  | .block h => .block (Matches.mono_all hL h)
  | .branch hc hs hr => .branch (hc.mono hL) (hs.mono hL) (hr.mono hL)
  | .loop hc hs => .loop (hc.mono hL) (hs.mono hL)
  | .function ht hp hb => .function (hL ht) (hp.imp fun _ _ h => hL h) (Matches.mono_all hL hb)
  | .returns ht h => .returns (hL ht) (h.mono hL)

theorem Matches.mono_all (hL : ∀ {t t'}, L.Rel t t' → L'.Rel t t') {ns ns' : List Node} :
    List.Forall₂ (Matches L) ns ns' → List.Forall₂ (Matches L') ns ns'
  | .nil => .nil
  | .cons h hs => .cons (h.mono hL) (Matches.mono_all hL hs)

end

mutual

/-- Where every token is like itself, so is every tree. -/
theorem Matches.refl (hL : ∀ t, L.Rel t t) : ∀ n : Node, n.Matches L n
  | .null | .bool _ | .number _ | .text _ | .nil | .list _ | .token _ | .data _ | .literal _ =>
      .plain rfl
  | .grouping e => .grouping (.refl hL e)
  | .reference t => .reference (hL t)
  | .assign t e => .assign (hL t) (.refl hL e)
  | .logical l o r => .logical (.refl hL l) (hL o) (.refl hL r)
  | .unary o e => .unary (hL o) (.refl hL e)
  | .binary l o r => .binary (.refl hL l) (hL o) (.refl hL r)
  | .call e paren es => .call (.refl hL e) (hL paren) (Matches.refl_all hL es)
  | .expression e => .expression (.refl hL e)
  | .print e => .print (.refl hL e)
  | .declare t e => .declare (hL t) (.refl hL e)
  | .block ss => .block (Matches.refl_all hL ss)
  | .branch c s r => .branch (.refl hL c) (.refl hL s) (.refl hL r)
  | .loop c s => .loop (.refl hL c) (.refl hL s)
  | .function t _ body =>
      .function (hL t) (List.forall₂_same.mpr fun p _ => hL p) (Matches.refl_all hL body)
  | .returns t e => .returns (hL t) (.refl hL e)

/-- If every token is like itself, lists of trees match themselves. -/
theorem Matches.refl_all (hL : ∀ t, L.Rel t t) :
    ∀ ns : List Node, List.Forall₂ (Matches L) ns ns
  | [] => .nil
  | n :: ns => .cons (.refl hL n) (Matches.refl_all hL ns)

end

end Node

end Lox
