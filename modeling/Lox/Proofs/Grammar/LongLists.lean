import Lox.Proofs.Grammar.Nesting
import Lox.Proofs.Parser.Statement

/-!
# The grammar with lists of any length

A list of arguments or parameters that is too long is reported and read to its end.  So what the parser
reads is the grammar with lists of any length (`Long.Program`), and what it reports is said of the tokens
alone: a token is *surplus* if a comma stands right in front of it and the innermost parentheses around it
hold `maxArguments` commas in front of it at least.

* `enclosing`: the innermost open parentheses at a place, with the commas in them so far.
* `surplus`: the diagnostics at the surplus tokens, in their order.
* `Long.expression_level`: an expression changes nothing about the parentheses around it.
* `AtEntry.note_eq`: so the first token of an entry is surplus if too many entries stand in front of it.
-/

namespace Lox

namespace Grammar.Long

/-! ### The rules with a list -/

/-- What stands between the parentheses of a call or of a function: nothing, or a list. -/
inductive Entries {α : Type} (Entry : Phrase α) : Phrase (List α) where
  | none : Entries Entry [] []
  | some {ts : List Token} {as : List α} (h : Listed Entry ts as) : Entries Entry ts as

/-- A primary expression with any number of argument lists behind it. -/
inductive Call (Expr : Phrase Node) : Phrase Node where
  | primary {ts : List Token} {e : Node} (h : Primary Expr ts e) : Call Expr ts e
  | call {ts us : List Token} {left right : Token} {callee : Node} {arguments : List Node}
      (hc : Call Expr ts callee) (hl : left.kind = .leftParen) (ha : Entries Expr us arguments)
      (hr : right.kind = .rightParen) :
      Call Expr (ts ++ left :: (us ++ [right])) (.call callee right arguments)

mutual

/-- The expressions nested at most so deep. -/
def Expression : Nat → Phrase Node
  | 0 => fun _ _ => False
  | n + 1 => Assignment (LogicOr (Unary n)) (Expression n)

/-- The operands nested at most so deep. -/
def Unary : Nat → Phrase Node
  | 0 => fun _ _ => False
  | n + 1 => Prefixed (Unary n) (Call (Expression n))

end

/-- The declarations over given parts. -/
inductive DeclarationOver (Expr : Phrase Node) (Stmt : Bool → Phrase Node)
    (Body : Phrase (List Node)) : Phrase Node where
  | function {keyword name left right open' close : Token} {ts us : List Token}
      {params : List Token} {body : List Node} (hk : keyword.kind = .funWord)
      (hn : name.kind = .identifier) (hl : left.kind = .leftParen)
      (hp : Entries Parameter ts params) (hr : right.kind = .rightParen)
      (ho : open'.kind = .leftBrace) (hb : Body us body) (hc : close.kind = .rightBrace) :
      DeclarationOver Expr Stmt Body
        (keyword :: name :: left :: (ts ++ right :: open' :: (us ++ [close])))
        (.function name params body)
  | variable {ts : List Token} {d : Node} (h : VariableDeclaration Expr ts d) :
      DeclarationOver Expr Stmt Body ts d
  | statement {ts : List Token} {s : Node} {dangling : Bool} (h : Stmt dangling ts s) :
      DeclarationOver Expr Stmt Body ts s

mutual

/-- The statements nested at most so deep. -/
def Statement (inFunction : Bool) : Nat → Bool → Phrase Node
  | 0 => fun _ _ _ => False
  | n + 1 =>
    StatementOver inFunction (Expression n) (Statement inFunction n)
      (Sequence (Declaration inFunction n))

/-- The declarations nested at most so deep. -/
def Declaration (inFunction : Bool) : Nat → Phrase Node
  | 0 => fun _ _ => False
  | n + 1 =>
    DeclarationOver (Expression n) (Statement inFunction n) (Sequence (Declaration true n))

end

/-- The programs nested at most so deep. -/
def Program (n : Nat) : Phrase (List Node) := Sequence (Declaration false n)

/-! ### First tokens -/

open Lox.Parser (StartsWith primaryStarts expressionStarts statementStarts declarationStarts)

/-- A call starts like the primary expression in front. -/
theorem call_startsWith {Expr : Phrase Node} {ts : List Token} {e : Node} (h : Call Expr ts e) :
    StartsWith primaryStarts ts := by
  induction h with
  | primary h => exact Parser.call_startsWith (.primary h)
  | call _ _ _ _ ih => exact ih.append _

/-- An operand starts with its operator or like a call. -/
theorem unary_startsWith {n : Nat} {ts : List Token} {e : Node} (h : Unary n ts e) :
    StartsWith expressionStarts ts := by
  cases n with
  | zero => exact h.elim
  | succ n =>
      rw [Unary] at h
      cases h with
      | operator ht _ =>
          have hsub : ∀ k ∈ [Kind.bang, Kind.minus], k ∈ expressionStarts := by decide
          exact ⟨_, _, rfl, hsub _ ht⟩
      | call h =>
          obtain ⟨t, us, rfl, ht⟩ := call_startsWith h
          exact ⟨t, us, rfl, List.mem_cons_of_mem _ (List.mem_cons_of_mem _ ht)⟩

/-- No expression starts with a token that an operand cannot start with. -/
theorem expression_startsWith {n : Nat} {ts : List Token} {e : Node} (h : Expression n ts e) :
    StartsWith expressionStarts ts := by
  cases n with
  | zero => exact h.elim
  | succ n =>
      rw [Expression] at h
      cases h with
      | plain h =>
          refine Parser.joinedLeft_startsWith ?_ h
          iterate 5 refine Parser.joinedLeft_startsWith ?_
          exact unary_startsWith
      | assign hn _ _ => exact ⟨_, _, rfl, by simp [expressionStarts, hn]⟩

theorem statement_startsWith {inFunction dangling : Bool} {n : Nat} {ts : List Token} {s : Node}
    (h : Statement inFunction n dangling ts s) :
    StartsWith (statementStarts ++ expressionStarts) ts := by
  cases n with
  | zero => exact h.elim
  | succ n =>
      rw [Statement] at h
      cases h with
      | expression h _ =>
          obtain ⟨t, us, rfl, ht⟩ := expression_startsWith h
          exact ⟨t, _, rfl, List.mem_append_right _ ht⟩
      | print hk _ _ | returns _ hk _ _ | block hk _ _ | branch hk _ _ _ _
      | branchElse hk _ _ _ _ _ _ | loop hk _ _ _ _ | forLoop hk _ _ _ _ _ _ _ =>
          exact ⟨_, _, rfl, List.mem_append_left _ (by simp [statementStarts, hk])⟩

theorem declaration_startsWith {inFunction : Bool} {n : Nat} {ts : List Token} {d : Node}
    (h : Declaration inFunction n ts d) : StartsWith declarationStarts ts := by
  cases n with
  | zero => exact h.elim
  | succ n =>
      rw [Declaration] at h
      cases h with
      | function hk _ _ _ _ _ _ _ => exact ⟨_, _, rfl, by simp [declarationStarts, hk]⟩
      | «variable» h =>
          obtain ⟨t, us, rfl, ht⟩ := Parser.variableDeclaration_startsWith h
          rw [List.mem_singleton] at ht
          exact ⟨t, us, rfl, by simp [declarationStarts, ht]⟩
      | statement h =>
          obtain ⟨t, us, rfl, ht⟩ := statement_startsWith h
          exact ⟨t, us, rfl, List.mem_cons_of_mem _ (List.mem_cons_of_mem _ ht)⟩

/-! ### Lists that are not too long -/

/-- The expressions inside a primary expression may be more. -/
theorem primary_mono {P Q : Phrase Node} (hPQ : ∀ {ts e}, P ts e → Q ts e) {ts : List Token} {e : Node}
    (h : Primary P ts e) : Primary Q ts e := by
  cases h with
  | falseWord h => exact .falseWord h
  | trueWord h => exact .trueWord h
  | nilWord h => exact .nilWord h
  | number h => exact .number h
  | string h => exact .string h
  | identifier h => exact .identifier h
  | grouping hl h hr => exact .grouping hl (hPQ h) hr

/-- A call whose lists are short enough is a call here. -/
theorem call_of {P Q : Phrase Node} (hPQ : ∀ {ts e}, P ts e → Q ts e) {ts : List Token} {e : Node}
    (h : Grammar.Call P ts e) : Call Q ts e := by
  induction h with
  | primary h => exact .primary (primary_mono hPQ h)
  | call _ hl ha hr ih =>
      refine .call ih hl ?_ hr
      cases ha with
      | none => exact .none
      | some h _ => exact .some (Listed.mono (k := 0) (fun us e _ => hPQ) _ _ (Nat.le_refl _) h)

/-- So is an expression with short lists only, and an operand. -/
theorem expression_unary_of (n : Nat) :
    (∀ {ts e}, Grammar.Expression n ts e → Expression n ts e) ∧
      ∀ {ts e}, Grammar.Unary n ts e → Unary n ts e := by
  induction n with
  | zero => exact ⟨fun h => h.elim, fun h => h.elim⟩
  | succ n ih =>
      obtain ⟨ihe, ihu⟩ := ih
      refine ⟨fun {ts e} h => ?_, fun {ts e} h => ?_⟩
      · rw [Grammar.Expression] at h
        rw [Expression]
        cases h with
        | plain h =>
            have hU : Carries 0 ts.length (Grammar.Unary n) (Unary n) := fun us e _ => ihu
            exact .plain (LogicOr.mono hU _ _ (Nat.le_refl _) h)
        | assign hn he h => exact .assign hn he (ihe h)
      · rw [Grammar.Unary] at h
        rw [Unary]
        cases h with
        | operator ht h => exact .operator ht (ihu h)
        | call h => exact .call (call_of ihe h)

/-- A well-formed expression is one with lists of any length. -/
theorem expression_of {n : Nat} {ts : List Token} {e : Node} (h : Grammar.Expression n ts e) :
    Expression n ts e :=
  (expression_unary_of n).1 h

end Grammar.Long

/-! ### Parentheses -/

/-- The innermost parentheses that are open at a place, the tokens in front of it given last one first: how
many commas stand in them so far, and the tokens in front of them.  On the way back to them, as many
parentheses are skipped as `level` says. -/
def enclosing : Nat → List Token → Nat × List Token
  | _, [] => (0, [])
  | level, t :: behind =>
    if t.kind = .rightParen then enclosing (level + 1) behind
    else if t.kind = .leftParen then
      match level with
      | 0 => (0, behind)
      | level + 1 => enclosing level behind
    else if t.kind = .comma ∧ level = 0 then
      ((enclosing 0 behind).1 + 1, (enclosing 0 behind).2)
    else enclosing level behind

/-- Behind these tokens the same parentheses are open as in front of them, with the same commas in them;
those in between that are skipped by `k` at least may have more.  No function is declared. -/
structure Level (k : Nat) (ts : List Token) : Prop where
  skips : ∀ level behind, k ≤ level → enclosing level (ts.reverse ++ behind) = enclosing level behind
  words : ∀ t ∈ ts, t.kind ≠ .funWord

namespace Level

variable {k : Nat} {ts us : List Token} {t left right : Token}

/-- Level pieces may stand one behind the other. -/
theorem append (h : Level k ts) (h' : Level k us) : Level k (ts ++ us) where
  skips level behind hk := by
    rw [List.reverse_append, List.append_assoc, h'.skips _ _ hk, h.skips _ _ hk]
  words t ht := (List.mem_append.mp ht).elim (h.words t) (h'.words t)

/-- Any other token changes nothing. -/
theorem token (h : t.kind ∉ [Kind.leftParen, Kind.rightParen, Kind.comma, Kind.funWord]) :
    Level k [t] := by
  simp only [List.mem_cons, List.not_mem_nil, or_false, not_or] at h
  obtain ⟨hl, hr, hc, hf⟩ := h
  exact ⟨fun level behind _ => by simp [enclosing, hl, hr, hc], by simpa using hf⟩

theorem cons (h : t.kind ∉ [Kind.leftParen, Kind.rightParen, Kind.comma, Kind.funWord])
    (hts : Level k ts) : Level k (t :: ts) :=
  append (token h) hts

/-- Outside of its parentheses a comma does not count. -/
theorem comma (h : t.kind = .comma) : Level 1 [t] where
  skips level behind hk := by simp [enclosing, h, Nat.ne_of_gt hk]
  words := by simp [h]

/-- Whatever the commas in parentheses are, behind them nothing has changed. -/
theorem parens (hl : left.kind = .leftParen) (h : Level 1 us) (hr : right.kind = .rightParen) :
    Level k (left :: (us ++ [right])) where
  skips level behind _ := by
    have hinner := h.skips (level + 1) (left :: behind) (by omega)
    simpa [enclosing, hl, hr] using hinner
  words := by
    have hwords := h.words
    simpa [hl, hr, or_imp, forall_and] using hwords

/-- What is level where nothing is skipped is so where something is. -/
theorem inside (h : Level 0 ts) : Level 1 ts :=
  ⟨fun level behind _ => h.skips level behind (Nat.zero_le _), h.words⟩

end Level

namespace Grammar

/-- Entries and the commas between them are level inside the parentheses. -/
theorem Listed.level {α : Type} {Entry : Phrase α} (he : ∀ {ts a}, Entry ts a → Level 0 ts)
    {ts : List Token} {as : List α} (h : Listed Entry ts as) : Level 1 ts := by
  induction h with
  | one h => exact (he h).inside
  | more h hc _ ih => exact (he h).inside.append (.append (.comma hc) ih)

/-- So is a chain of operands. -/
theorem JoinedLeft.level {kinds : List Kind} {join : Node → Token → Node → Node}
    (hk : ∀ k ∈ kinds, k ∉ [Kind.leftParen, Kind.rightParen, Kind.comma, Kind.funWord])
    {Operand : Phrase Node} (ho : ∀ {ts e}, Operand ts e → Level 0 ts) {ts : List Token} {e : Node}
    (h : JoinedLeft kinds join Operand ts e) : Level 0 ts := by
  induction h with
  | operand h => exact ho h
  | operator _ ht hr ih => exact ih.append (.cons (hk _ ht) (ho hr))

namespace Long

/-- The parentheses of a call are closed again. -/
theorem call_level {Expr : Phrase Node} (he : ∀ {ts e}, Expr ts e → Level 0 ts) {ts : List Token}
    {e : Node} (h : Call Expr ts e) : Level 0 ts := by
  induction h with
  | primary h =>
      cases h with
      | falseWord h | trueWord h | nilWord h | number h | string h | identifier h =>
          exact .token (by simp [h])
      | grouping hl h hr => exact .parens hl (he h).inside hr
  | call _ hl ha hr ih =>
      refine ih.append ?_
      cases ha with
      | none => exact .parens hl ⟨fun _ _ _ => rfl, by simp⟩ hr
      | some h => exact .parens hl (h.level he) hr

/-- Expressions open and close parentheses in pairs, and so do operands. -/
theorem expression_unary_level (n : Nat) :
    (∀ {ts e}, Expression n ts e → Level 0 ts) ∧ ∀ {ts e}, Unary n ts e → Level 0 ts := by
  induction n with
  | zero => exact ⟨fun h => h.elim, fun h => h.elim⟩
  | succ n ih =>
      obtain ⟨ihe, ihu⟩ := ih
      refine ⟨fun {ts e} h => ?_, fun {ts e} h => ?_⟩
      · rw [Expression] at h
        cases h with
        | plain h =>
            refine JoinedLeft.level (by decide) ?_ h
            iterate 5 refine JoinedLeft.level (by decide) ?_
            exact ihu
        | assign hn he h => exact .cons (by simp [hn]) (.cons (by simp [he]) (ihe h))
      · rw [Unary] at h
        cases h with
        | operator ht h =>
            have hk : ∀ k ∈ [Kind.bang, Kind.minus],
                k ∉ [Kind.leftParen, Kind.rightParen, Kind.comma, Kind.funWord] := by decide
            exact .cons (hk _ ht) (ihu h)
        | call h => exact call_level ihe h

/-- An expression changes nothing about the parentheses around it. -/
theorem expression_level {n : Nat} {ts : List Token} {e : Node} (h : Expression n ts e) : Level 0 ts :=
  (expression_unary_level n).1 h

end Long

end Grammar

/-! ### Surplus tokens -/

/-- The last of the tokens behind a place, which are given last one first, is of none of these kinds. -/
def NotBehind (kinds : List Kind) (behind : List Token) : Prop := ∀ t ∈ behind.head?, t.kind ∉ kinds

theorem NotBehind.append {kinds : List Kind} {ts behind : List Token} (h : NotBehind kinds ts)
    (h' : NotBehind kinds behind) : NotBehind kinds (ts ++ behind) := by
  cases ts with
  | nil => exact h'
  | cons t ts => exact h

theorem NotBehind.append_of_ne_nil {kinds : List Kind} {ts : List Token} (h : NotBehind kinds ts)
    (hne : ts ≠ []) (behind : List Token) : NotBehind kinds (ts ++ behind) := by
  cases ts with
  | nil => exact absurd rfl hne
  | cons t ts => exact h

theorem NotBehind.mono {kinds kinds' : List Kind} {behind : List Token} (h : NotBehind kinds behind)
    (hk : kinds' ⊆ kinds) : NotBehind kinds' behind :=
  fun t ht hm => h t ht (hk hm)

/-- What is wrong with a list that is too long: of parameters, if its parentheses stand behind `fun` and a
name, and of arguments otherwise. -/
def causeBehind : List Token → Cause
  | _ :: t :: _ => if t.kind = .funWord then .tooManyParameters else .tooManyArguments
  | _ => .tooManyArguments

/-- The parentheses behind a callee hold arguments. -/
theorem causeBehind_callee {ts behind : List Token} (hne : ts ≠ [])
    (hts : ∀ t ∈ ts, t.kind ≠ .funWord) (hb : NotBehind [.funWord] behind) :
    causeBehind (ts.reverse ++ behind) = .tooManyArguments := by
  obtain ⟨ts, last, rfl⟩ := List.eq_nil_or_concat ts |>.resolve_left hne
  rw [List.concat_eq_append, List.reverse_append]
  cases hr : ts.reverse ++ behind with
  | nil => simp [hr, causeBehind]
  | cons t us =>
      have ht : t.kind ≠ .funWord := by
        have hmany : NotBehind [.funWord] ts.reverse := fun u hu hk => by
          have hmem : u ∈ ts := List.mem_reverse.mp (List.mem_of_mem_head? hu)
          exact hts u (by simp [hmem]) (List.mem_singleton.mp hk)
        simpa [hr, NotBehind] using hmany.append hb
      simp [hr, causeBehind, ht]

/-- The diagnostic at a token behind others, if it is surplus. -/
def note (behind : List Token) (t : Token) : List Diagnostic :=
  if behind.head?.any (·.kind = .comma) ∧ maxArguments ≤ (enclosing 0 behind).1 then
    [⟨causeBehind (enclosing 0 behind).2, t, behind.length⟩]
  else []

/-- The diagnostics at the surplus ones of some tokens behind others. -/
def surplusFrom (behind : List Token) : List Token → List Diagnostic
  | [] => []
  | t :: ts => note behind t ++ surplusFrom (t :: behind) ts

/-- The diagnostics at the surplus tokens of a program. -/
def surplus (ts : List Token) : List Diagnostic := surplusFrom [] ts

/-- What is too much in two pieces is that of the first, and then that of the second behind it. -/
theorem surplusFrom_append (behind ts us : List Token) :
    surplusFrom behind (ts ++ us) =
      surplusFrom behind ts ++ surplusFrom (ts.reverse ++ behind) us := by
  induction ts generalizing behind with
  | nil => rfl
  | cons t ts ih => simp [surplusFrom, ih]

/-- Only a token behind a comma can be too much. -/
theorem note_eq_nil {behind : List Token} (h : NotBehind [.comma] behind) (t : Token) :
    note behind t = [] := by
  refine if_neg fun hc => ?_
  obtain ⟨c, hm, hk⟩ := (Option.any_eq_true _ _).mp hc.1
  exact h c hm (List.mem_singleton.mpr (of_decide_eq_true hk))

/-- The place of an entry in parentheses behind `outer`: so many entries and commas stand in front of
it. -/
structure AtEntry (outer : List Token) (k : Nat) (behind : List Token) : Prop where
  enclosing : enclosing 0 behind = (k, outer)
  comma : 0 < k → ∃ c ∈ behind.head?, c.kind = .comma
  word : NotBehind [.funWord] behind

namespace AtEntry

variable {outer behind ts : List Token} {k : Nat} {t : Token}

/-- Behind the opening parenthesis stands the first entry. -/
theorem first {left : Token} (hl : left.kind = .leftParen) : AtEntry outer 0 (left :: outer) :=
  ⟨by simp [Lox.enclosing, hl], nofun, by simp [NotBehind, hl]⟩

/-- Behind a comma stands the next entry. -/
theorem next (h : AtEntry outer k behind) (hts : Level 0 ts) (ht : t.kind = .comma) :
    AtEntry outer (k + 1) (t :: (ts.reverse ++ behind)) := by
  refine ⟨?_, fun _ => ⟨t, rfl, ht⟩, by simp [NotBehind, ht]⟩
  have hsame := (hts.skips 0 behind (Nat.le_refl _)).trans h.enclosing
  simp [Lox.enclosing, ht, hsame]

/-- An entry is reported at its first token, if it is one too many. -/
theorem note_eq (h : AtEntry outer k behind) (t : Token) :
    note behind t = if maxArguments ≤ k then [⟨causeBehind outer, t, behind.length⟩] else [] := by
  unfold note
  rw [h.enclosing]
  by_cases hk : maxArguments ≤ k
  · obtain ⟨c, hc, hcomma⟩ := h.comma (Nat.lt_of_lt_of_le (by decide) hk)
    have hany : behind.head?.any (·.kind = .comma) :=
      (Option.any_eq_true _ _).mpr ⟨c, hc, decide_eq_true hcomma⟩
    rw [if_pos ⟨hany, hk⟩, if_pos hk]
  · rw [if_neg (fun h => hk h.2), if_neg hk]

end AtEntry

end Lox
