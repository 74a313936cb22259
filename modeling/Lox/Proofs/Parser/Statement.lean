import Lox.Parser.Statement
import Lox.Proofs.Parser.Expression

/-!
# Statements are parsed by the grammar

The parsers of statements and declarations agree with their phrases, at every bound on the nesting.

* `statement_gives`, `declaration_gives`: what the parsers give are statements and declarations of
  the grammar.  A statement that ends with an `if` without an `else` is left in front of something
  else than an `else`; so the `else` behind a statement belongs to the `if` that is read next.
* `statement_reads`, `declaration_reads`: all of them are read, in front of anything that does not go
  on with them.

Every form of a statement has one lemma in either direction, over any parsers of its parts.
-/

namespace Lox.Parser

open Grammar (Phrase)

/-- What is known of a statement that was parsed: the tokens are one, and if it ends with an `if`
without an `else`, no `else` follows. -/
def Closed (Stmt : Bool → Phrase Node) (ts : List Token) (s : Node) (rest : List Token) : Prop :=
  ∃ dangling, Stmt dangling ts s ∧ (dangling = true → Clear [.elseWord] rest)

/-! ### What the forms give -/

section Gives

variable {expression statement : Parser Node} {declaration : Parser (Option Node)}
  {Expr : Phrase Node} {Stmt : Bool → Phrase Node} {Item : Phrase Node} {inFunction : Bool}

/-- A block that is read is declarations and a closing brace. -/
theorem blockOf_gives
    (hd : Gives declaration fun ts o _ => ∃ d, o = some d ∧ Item ts d) :
    Gives (blockOf declaration) fun ts body _ => ∃ us right, ts = us ++ [right] ∧
      Grammar.Sequence Item us body ∧ right.kind = .rightBrace :=
  (itemsUntil_gives hd).bind fun us _ => Gives.expect fun right => Gives.pure fun _ hr h =>
    ⟨us, right, rfl, h.1, hr⟩

/-- What is read behind `fun` is a declaration of a function. -/
theorem functionDeclaration_gives
    (hd : Gives declaration fun ts o _ => ∃ d, o = some d ∧ Item ts d) :
    Gives (functionDeclaration declaration) fun ts d _ => ∀ keyword : Token,
      keyword.kind = .funWord →
        Grammar.DeclarationOver Expr Stmt (Grammar.Sequence Item) (keyword :: ts) d := by
  have name : Gives (expect .identifier .expectParameterName) fun ts t _ =>
      Grammar.Parameter ts t := by
    refine (expect_gives .identifier .expectParameterName).mono ?_
    rintro _ t _ ⟨rfl, ht⟩
    exact .name ht
  refine Gives.expect fun name' => Gives.expect fun left => ?_
  refine (entries_gives name).bind fun us params => ?_
  refine Gives.expect fun right => Gives.expect fun open' => ?_
  refine (blockOf_gives hd).bind fun vs body => Gives.pure ?_
  rintro rest ⟨ws, close, rfl, hb, hc⟩ ho hr hp hl hn keyword hk
  rw [List.append_nil]
  exact .function hk hn hl hp hr ho hb hc

/-- What is read behind `var` is a declaration of a variable. -/
theorem variableDeclaration_gives (he : Gives expression fun ts e _ => Expr ts e) :
    Gives (variableDeclaration expression) fun ts d _ => ∀ var : Token, var.kind = .varWord →
      Grammar.VariableDeclaration Expr (var :: ts) d := by
  refine Gives.expect fun name => Gives.accept (by decide) ?_ fun equals => ?_
  · refine (Gives.pure (Q := fun ts e _ => ts = [] ∧ e = Node.null) fun _ => ⟨rfl, rfl⟩).bind
      fun _ e => Gives.expect fun semicolon => Gives.pure ?_
    rintro rest hs ⟨rfl, rfl⟩ - hn var hv
    exact .plain hv hn hs
  · refine he.bind fun us e => Gives.expect fun semicolon => Gives.pure ?_
    intro rest hs h heq hn var hv
    rw [List.mem_singleton] at heq
    exact .initialized hv hn heq h hs

theorem expressionStatement_gives (he : Gives expression fun ts e _ => Expr ts e) :
    Gives (expressionStatement expression) fun ts s _ => ∃ us semicolon e, ts = us ++ [semicolon] ∧
      s = .expression e ∧ Expr us e ∧ semicolon.kind = .semicolon :=
  he.bind fun us e => Gives.expect fun semicolon => Gives.pure fun _ hs h =>
    ⟨us, semicolon, e, rfl, rfl, h, hs⟩

/-- A clause of a `for` loop is an expression or nothing. -/
theorem expressionUnless_gives (he : Gives expression fun ts e _ => Expr ts e) (kind : Kind) :
    Gives (expressionUnless kind expression) fun ts o _ => Grammar.Optional Expr ts o := by
  refine (check_gives kind).bind fun _ b => ?_
  cases b with
  | true =>
      refine Gives.pure ?_
      rintro rest rfl
      exact .none
  | false =>
      refine he.map some ?_
      rintro ts e rest h rfl
      exact .some h

/-- The first clause of a `for` statement, and the place of the loop in it. -/
theorem loopInitializer_gives (he : Gives expression fun ts e _ => Expr ts e) :
    Gives (loopInitializer expression) fun ts o _ => ∃ around,
      Grammar.Initializer Expr ts around ∧
        ∀ c n body, forLoop o c n body = around (forLoop none c n body) := by
  refine Gives.accept (by decide) (Gives.accept (by decide) ?_ fun var => ?_) fun semicolon => ?_
  · refine (expressionStatement_gives he).map some ?_
    rintro _ _ rest ⟨us, semicolon, e, rfl, rfl, h, hs⟩ - -
    exact ⟨_, .expression h hs, fun _ _ _ => rfl⟩
  · refine (variableDeclaration_gives he).map some ?_
    intro ts d rest h hv _
    rw [List.mem_singleton] at hv
    exact ⟨_, .variable (h var hv), fun _ _ _ => rfl⟩
  · refine Gives.pure fun rest hs => ?_
    rw [List.mem_singleton] at hs
    exact ⟨_, .none hs, fun _ _ _ => rfl⟩

/-- A condition left out is `true`. -/
theorem Optional.condition {ts : List Token} {o : Option Node} (h : Grammar.Optional Expr ts o) :
    Grammar.Condition Expr ts (o.getD (.literal (.bool true))) := by
  cases h with
  | none => exact .none
  | some h => exact .some h

/-- An increment stands behind the body, if there is one. -/
theorem Optional.increment {ts : List Token} {o : Option Node} (h : Grammar.Optional Expr ts o) :
    ∃ behind, Grammar.Increment Expr ts behind ∧ ∀ c body,
      forLoop none c o body = .loop (c.getD (.literal (.bool true))) (behind body) := by
  cases h with
  | none => exact ⟨_, .none, fun _ _ => rfl⟩
  | some h => exact ⟨_, .some h, fun _ _ => rfl⟩

/-- What is read behind `for` is a loop, and nothing dangles in it that its body does not let dangle. -/
theorem forStatement_gives (he : Gives expression fun ts e _ => Expr ts e)
    (hs : Gives statement (Closed Stmt)) {Body : Phrase (List Node)} :
    Gives (forStatement expression statement) fun ts s rest => ∀ keyword : Token,
      keyword.kind = .forWord →
        Closed (Grammar.StatementOver inFunction Expr Stmt Body) (keyword :: ts) s rest := by
  refine Gives.expect fun left => (loopInitializer_gives he).bind fun ts i => ?_
  refine (expressionUnless_gives he .semicolon).bind fun us c => Gives.expect fun semicolon => ?_
  refine (expressionUnless_gives he .rightParen).bind fun vs n => Gives.expect fun right => ?_
  refine hs.bind fun ws s => Gives.pure ?_
  rintro rest ⟨dangling, hbody, hel⟩ hr hn hsc hc ⟨around, hi, haround⟩ hl keyword hk
  obtain ⟨behind, hn', hbehind⟩ := Optional.increment hn
  rw [haround, hbehind, List.append_nil]
  exact ⟨dangling, .forLoop hk hl hi (Optional.condition hc) hsc hn' hr hbody, hel⟩

/-- What is read behind `if` is a conditional.  Without an `else`, the next token is not one. -/
theorem ifStatement_gives (he : Gives expression fun ts e _ => Expr ts e)
    (hs : Gives statement (Closed Stmt)) {Body : Phrase (List Node)} :
    Gives (ifStatement expression statement) fun ts s rest => ∀ keyword : Token,
      keyword.kind = .ifWord →
        Closed (Grammar.StatementOver inFunction Expr Stmt Body) (keyword :: ts) s rest := by
  refine Gives.expect fun left => he.bind fun ts c => Gives.expect fun right => ?_
  refine hs.bind fun us s => Gives.accept (by decide) ?_ fun other => ?_
  · -- no `else` follows: the statement is left open
    refine (Gives.pure (Q := fun ts e _ => ts = [] ∧ e = Node.null) fun _ => ⟨rfl, rfl⟩).bind
      fun _ e => Gives.pure ?_
    rintro rest ⟨rfl, rfl⟩ hclear ⟨dangling, hthen, -⟩ hr hc hl keyword hk
    simp only [List.append_nil] at *
    exact ⟨true, .branch hk hl hc hr hthen, fun _ => hclear⟩
  · -- the first branch stands in front of an `else`, so it is not open itself
    refine hs.bind fun vs s' => Gives.pure ?_
    rintro rest ⟨dangling', helse, hel'⟩ ho ⟨dangling, hthen, hel⟩ hr hc hl keyword hk
    rw [List.mem_singleton] at ho
    cases dangling with
    | true =>
        obtain ⟨t, us', htu, ht⟩ := hel rfl
        cases htu
        exact absurd (by simp [ho]) ht
    | false =>
        simp only [List.append_nil] at *
        exact ⟨dangling', .branchElse hk hl hc hr hthen ho helse, hel'⟩

/-- What is read behind `while` is a loop. -/
theorem whileStatement_gives (he : Gives expression fun ts e _ => Expr ts e)
    (hs : Gives statement (Closed Stmt)) {Body : Phrase (List Node)} :
    Gives (whileStatement expression statement) fun ts s rest => ∀ keyword : Token,
      keyword.kind = .whileWord →
        Closed (Grammar.StatementOver inFunction Expr Stmt Body) (keyword :: ts) s rest := by
  refine Gives.expect fun left => he.bind fun ts c => Gives.expect fun right => ?_
  refine hs.bind fun us s => Gives.pure ?_
  rintro rest ⟨dangling, hbody, hel⟩ hr hc hl keyword hk
  rw [List.append_nil]
  exact ⟨dangling, .loop hk hl hc hr hbody, hel⟩

theorem printStatement_gives (he : Gives expression fun ts e _ => Expr ts e)
    {Body : Phrase (List Node)} :
    Gives (printStatement expression) fun ts s rest => ∀ keyword : Token,
      keyword.kind = .printWord →
        Closed (Grammar.StatementOver inFunction Expr Stmt Body) (keyword :: ts) s rest :=
  he.bind fun _ _ => Gives.expect fun _ => Gives.pure fun _ hs h _ hk =>
    ⟨false, .print hk h hs, fun hf => by cases hf⟩

/-- What is read behind `return` is a return, if one may stand there. -/
theorem returnStatement_gives (he : Gives expression fun ts e _ => Expr ts e)
    {Body : Phrase (List Node)} {keyword : Token} (hk : keyword.kind = .returnWord) :
    Gives (returnStatement inFunction keyword expression) fun ts s rest =>
      Closed (Grammar.StatementOver inFunction Expr Stmt Body) (keyword :: ts) s rest := by
  have behind : Gives (do
      let value ← expressionUnless .semicolon expression
      let _ ← expect .semicolon .expectSemicolonAfterReturnValue
      pure (.returns keyword (value.getD .null)) : Parser Node) fun ts s rest =>
      inFunction = true →
        Closed (Grammar.StatementOver inFunction Expr Stmt Body) (keyword :: ts) s rest :=
    (expressionUnless_gives he .semicolon).bind fun _ _ => Gives.expect fun _ =>
      Gives.pure fun _ hs h hf => ⟨false, .returns hf hk h hs, fun hf => by cases hf⟩
  unfold returnStatement
  cases inFunction with
  | true => exact behind.mono fun _ _ _ h => h rfl
  | false =>
      refine (Gives.report _ _ fun _ _ _ => False).bind fun _ _ => behind.mono ?_
      intro _ _ _ _ h
      exact h.elim

end Gives

/-- What the parsers of statements and declarations give is in the grammar. -/
theorem statement_declaration_gives (n : Nat) :
    (∀ inFunction, Gives (statement inFunction n) (Closed (Grammar.Statement inFunction n))) ∧
      ∀ inFunction, Gives (declaration inFunction n) fun ts o _ =>
        ∃ d, o = some d ∧ Grammar.Declaration inFunction n ts d := by
  induction n with
  | zero =>
      refine ⟨fun _ => Gives.fail .tooDeep _, fun inFunction => ?_⟩
      rw [declaration]
      exact (Gives.fail .tooDeep _).recover
  | succ n ih =>
      obtain ⟨ihs, ihd⟩ := ih
      have he := assignment_gives n
      refine ⟨fun inFunction => ?_, fun inFunction => ?_⟩
      · simp only [statement, Grammar.Statement]
        refine Gives.accept (by decide) ?_ fun start => ?_
        · refine (expressionStatement_gives he).mono ?_
          rintro _ _ rest ⟨us, semicolon, e, rfl, rfl, h, hs⟩ -
          exact ⟨false, .expression h hs, fun hf => by cases hf⟩
        · dsimp only
          split
          case h_1 hk => exact (forStatement_gives he (ihs _)).mono fun _ _ _ h _ => h start hk
          case h_2 hk => exact (ifStatement_gives he (ihs _)).mono fun _ _ _ h _ => h start hk
          case h_3 hk => exact (printStatement_gives he).mono fun _ _ _ h _ => h start hk
          case h_4 hk => exact (returnStatement_gives he hk).mono fun _ _ _ h _ => h
          case h_5 hk => exact (whileStatement_gives he (ihs _)).mono fun _ _ _ h _ => h start hk
          case h_6 h₁ h₂ h₃ h₄ h₅ =>
            refine (blockOf_gives (ihd _)).map Node.block ?_
            rintro _ body rest ⟨us, right, rfl, hb, hr⟩ hk
            -- the last of the kinds that start a statement
            have hl : start.kind = .leftBrace := by
              simp only [statementStarts, List.mem_cons, List.not_mem_nil, or_false] at hk
              exact ((((hk.resolve_left h₁).resolve_left h₂).resolve_left h₃).resolve_left
                h₄).resolve_left h₅
            exact ⟨false, .block hl hb hr, fun hf => by cases hf⟩
      · simp only [declaration, Grammar.Declaration]
        refine Gives.recover (P := fun ts d _ => Grammar.DeclarationOver _ _ _ ts d) ?_
        refine Gives.accept (by decide) ?_ fun start => ?_
        · refine (ihs _).mono ?_
          rintro ts s rest ⟨dangling, h, -⟩ -
          exact .statement h
        · dsimp only
          split
          case h_1 hk => exact (functionDeclaration_gives (ihd true)).mono fun _ _ _ h _ => h start hk
          case h_2 hne =>
            refine (variableDeclaration_gives he).mono fun _ _ _ h hk => .variable (h start ?_)
            -- `var` is the only other keyword of a declaration
            simp only [List.mem_cons, List.not_mem_nil, or_false] at hk
            exact hk.resolve_left hne

/-! ### First tokens -/

/-- The kinds with which a declaration starts. -/
def declarationStarts : List Kind := .funWord :: .varWord :: (statementStarts ++ expressionStarts)

/-- Statements start with their keyword, a brace or an expression. -/
theorem statement_startsWith {inFunction dangling : Bool} {n : Nat} {ts : List Token} {s : Node}
    (h : Grammar.Statement inFunction n dangling ts s) :
    StartsWith (statementStarts ++ expressionStarts) ts := by
  cases n with
  | zero => exact h.elim
  | succ n =>
      rw [Grammar.Statement] at h
      cases h with
      | expression h _ =>
          obtain ⟨t, us, rfl, ht⟩ := expression_startsWith h
          exact ⟨t, _, rfl, List.mem_append_right _ ht⟩
      | print hk _ _ | returns _ hk _ _ | block hk _ _ | branch hk _ _ _ _
      | branchElse hk _ _ _ _ _ _ | loop hk _ _ _ _ | forLoop hk _ _ _ _ _ _ _ =>
          exact ⟨_, _, rfl, List.mem_append_left _ (by simp [statementStarts, hk])⟩

theorem variableDeclaration_startsWith {Expr : Phrase Node} {ts : List Token} {d : Node}
    (h : Grammar.VariableDeclaration Expr ts d) : StartsWith [.varWord] ts := by
  cases h with
  | plain hv _ _ | initialized hv _ _ _ _ => exact ⟨_, _, rfl, by simp [hv]⟩

/-- A declaration never starts with a token that ends a block or a program. -/
theorem declaration_startsWith {inFunction : Bool} {n : Nat} {ts : List Token} {d : Node}
    (h : Grammar.Declaration inFunction n ts d) : StartsWith declarationStarts ts := by
  cases n with
  | zero => exact h.elim
  | succ n =>
      rw [Grammar.Declaration] at h
      cases h with
      | function hk _ _ _ _ _ _ _ => exact ⟨_, _, rfl, by simp [declarationStarts, hk]⟩
      | «variable» h =>
          obtain ⟨t, us, rfl, ht⟩ := variableDeclaration_startsWith h
          rw [List.mem_singleton] at ht
          exact ⟨t, us, rfl, by simp [declarationStarts, ht]⟩
      | statement h =>
          obtain ⟨t, us, rfl, ht⟩ := statement_startsWith h
          exact ⟨t, us, rfl, List.mem_cons_of_mem _ (List.mem_cons_of_mem _ ht)⟩

/-! ### What the forms read -/

section Reads

variable {expression statement : Parser Node} {declaration : Parser (Option Node)}
  {Expr : Phrase Node} {Stmt : Bool → Phrase Node} {Item : Phrase Node} {inFunction : Bool}

/-- A token that closes a clause does not go on with the expression in it. -/
theorem clear_closing {t : Token} (ht : t.kind ∈ [Kind.semicolon, Kind.rightParen])
    (rest : List Token) : Clear goesOn (t :: rest) := by
  have hk : ∀ k ∈ [Kind.semicolon, Kind.rightParen], k ∉ goesOn := by decide
  exact clear_cons (hk _ ht) rest

/-- Declarations and a closing brace are read as a block. -/
theorem blockOf_reads (hs : ∀ {ts d}, Item ts d → StartsWith declarationStarts ts)
    (hd : ∀ {ts d rest}, Item ts d → Clear [.elseWord] rest →
      Reads declaration ts (some d) rest)
    {ts rest : List Token} {body : List Node} {right : Token}
    (h : Grammar.Sequence Item ts body) (hr : right.kind = .rightBrace) :
    Reads (blockOf declaration) (ts ++ [right]) body rest := by
  refine Reads.bind (itemsUntil_reads [.elseWord] (by decide) ?_ hs hd h (by simp [hr])
    (by simp [hr])) ?_
  · have hk : ∀ k ∈ declarationStarts, k ≠ .rightBrace ∧ k ≠ .eof := by decide
    intro t ht
    simpa using hk _ ht
  · exact Reads.expect hr (by decide) (Reads.pure _ rest)

variable (he : ∀ {ts e rest}, Expr ts e → Clear goesOn rest → Reads expression ts e rest)

include he

/-- What is derived behind `var` is read. -/
theorem variableDeclaration_reads {var : Token} {ts rest : List Token} {d : Node}
    (h : Grammar.VariableDeclaration Expr (var :: ts) d) :
    Reads (variableDeclaration expression) ts d rest := by
  cases h with
  | plain _ hn hs =>
      refine Reads.expect hn (by decide) (Reads.decline (clear_cons (by simp [hs]) _) ?_)
      refine Reads.first (Reads.pure Node.null _) ?_
      exact Reads.expect hs (by decide) (Reads.pure _ rest)
  | initialized _ hn heq h hs =>
      refine Reads.expect hn (by decide) (Reads.accept (by simp [heq]) (by simp [heq]) ?_)
      refine Reads.bind (he h (clear_closing (by simp [hs]) _)) ?_
      exact Reads.expect hs (by decide) (Reads.pure _ rest)

theorem expressionStatement_reads {ts rest : List Token} {semicolon : Token} {e : Node}
    (h : Expr ts e) (hs : semicolon.kind = .semicolon) :
    Reads (expressionStatement expression) (ts ++ [semicolon]) (.expression e) rest := by
  refine Reads.bind (he h (clear_closing (by simp [hs]) _)) ?_
  exact Reads.expect hs (by decide) (Reads.pure _ rest)

variable (hst : ∀ {ts e}, Expr ts e → StartsWith expressionStarts ts)

include hst

/-- A clause that may be absent is read in front of the token that closes it. -/
theorem expressionUnless_reads {ts : List Token} {o : Option Node} {t : Token}
    (ht : t.kind ∈ [Kind.semicolon, Kind.rightParen]) (h : Grammar.Optional Expr ts o)
    (rest : List Token) :
    Reads (expressionUnless t.kind expression) ts o (t :: rest) := by
  have hne : ∀ k ∈ [Kind.semicolon, Kind.rightParen], k ≠ .eof ∧ k ∉ expressionStarts := by decide
  cases h with
  | none => exact Reads.checkHit rfl rfl (hne _ ht).1 (Reads.pure none _)
  | some h =>
      refine Reads.checkClear (((hst h).append _).clear fun k hk => ?_) ?_
      · rw [List.mem_singleton]
        rintro rfl
        exact (hne _ ht).2 hk
      · exact (he h (clear_closing ht rest)).map some

/-- What is derived as an initializer is read and goes in front of the loop in the same way. -/
theorem loopInitializer_reads {ts : List Token} {around : Node → Node}
    (h : Grammar.Initializer Expr ts around) (rest : List Token) :
    ∃ o, (∀ c n body, forLoop o c n body = around (forLoop none c n body)) ∧
      Reads (loopInitializer expression) ts o rest := by
  cases h with
  | none hs =>
      refine ⟨none, fun _ _ _ => rfl, ?_⟩
      exact Reads.accept (by simp [hs]) (by simp [hs]) (Reads.pure none rest)
  | @«variable» _ d h =>
      refine ⟨some d, fun _ _ _ => rfl, ?_⟩
      obtain ⟨var, us, rfl, hv⟩ := variableDeclaration_startsWith h
      rw [List.mem_singleton] at hv
      refine Reads.decline (clear_cons (by simp [hv]) _) ?_
      refine Reads.accept (by simp [hv]) (by simp [hv]) ?_
      exact (variableDeclaration_reads he h).map some
  | @expression us semicolon e h hs =>
      refine ⟨some (.expression e), fun _ _ _ => rfl, ?_⟩
      have hstart := ((hst h).append [semicolon]).append rest
      refine Reads.decline (hstart.clear (by decide)) ?_
      refine Reads.decline (hstart.clear (by decide)) ?_
      exact (expressionStatement_reads he h hs).map some

/-- What is derived as a condition is read, up to its semicolon. -/
theorem condition_reads {ts : List Token} {c : Node} {semicolon : Token}
    (h : Grammar.Condition Expr ts c) (hs : semicolon.kind = .semicolon) (rest : List Token) :
    ∃ o, o.getD (.literal (.bool true)) = c ∧
      Reads (expressionUnless .semicolon expression) ts o (semicolon :: rest) := by
  rw [← hs]
  cases h with
  | none => exact ⟨none, rfl, expressionUnless_reads he hst (by simp [hs]) .none rest⟩
  | some h => exact ⟨some c, rfl, expressionUnless_reads he hst (by simp [hs]) (.some h) rest⟩

/-- What is derived as an increment is read, up to the parenthesis. -/
theorem increment_reads {ts : List Token} {behind : Node → Node} {right : Token}
    (h : Grammar.Increment Expr ts behind) (hr : right.kind = .rightParen) (rest : List Token) :
    ∃ o, (∀ c body, forLoop none c o body =
        .loop (c.getD (.literal (.bool true))) (behind body)) ∧
      Reads (expressionUnless .rightParen expression) ts o (right :: rest) := by
  rw [← hr]
  cases h with
  | none => exact ⟨none, fun _ _ => rfl, expressionUnless_reads he hst (by simp [hr]) .none rest⟩
  | @some _ e h =>
      exact ⟨some e, fun _ _ => rfl, expressionUnless_reads he hst (by simp [hr]) (.some h) rest⟩

end Reads

/-- Statements and declarations are read in front of anything that does not go on with them. -/
theorem statement_declaration_reads (n : Nat) :
    (∀ {inFunction dangling ts s rest}, Grammar.Statement inFunction n dangling ts s →
      (dangling = true → Clear [.elseWord] rest) → Reads (statement inFunction n) ts s rest) ∧
    (∀ {inFunction ts d rest}, Grammar.Declaration inFunction n ts d → Clear [.elseWord] rest →
      Reads (declaration inFunction n) ts (some d) rest) := by
  induction n with
  | zero => exact ⟨fun h _ => h.elim, fun h _ => h.elim⟩
  | succ n ih =>
      obtain ⟨ihs, ihd⟩ := ih
      have he := @assignment_reads n
      have hst := @expression_startsWith n
      refine ⟨fun {inFunction dangling ts s rest} h hel => ?_, fun {inFunction ts d rest} h hel => ?_⟩
      · rw [Grammar.Statement] at h
        rw [statement]
        cases h with
        | expression h hs =>
            refine Reads.decline ?_ (expressionStatement_reads he h hs)
            exact (((hst h).append _).append _).clear (by decide)
        | print hk h hs =>
            refine Reads.accept (by simp [statementStarts, hk]) (by simp [hk]) ?_
            simp only [hk]
            refine Reads.bind (he h (clear_closing (by simp [hs]) _)) ?_
            exact Reads.expect hs (by decide) (Reads.pure _ rest)
        | returns hf hk h hs =>
            refine Reads.accept (by simp [statementStarts, hk]) (by simp [hk]) ?_
            simp only [hk, returnStatement, hf]
            have hu := hs ▸ expressionUnless_reads he hst (by simp [hs]) h rest
            exact Reads.bind hu (Reads.expect hs (by decide) (Reads.pure _ rest))
        | block hl h hr =>
            refine Reads.accept (by simp [statementStarts, hl]) (by simp [hl]) ?_
            simp only [hl]
            exact (blockOf_reads declaration_startsWith ihd h hr).map Node.block
        | branch hk hl hc hr hs =>
            have hclear := hel rfl
            refine Reads.accept (by simp [statementStarts, hk]) (by simp [hk]) ?_
            simp only [hk]
            refine Reads.expect hl (by decide) (Reads.bind (he hc (clear_closing (by simp [hr]) _)) ?_)
            refine Reads.expect hr (by decide) (Reads.last (ihs hs fun _ => hclear) ?_)
            exact Reads.decline hclear (Reads.first (Reads.pure Node.null _)
              (Reads.pure _ rest))
        | branchElse hk hl hc hr hs ho hs' =>
            refine Reads.accept (by simp [statementStarts, hk]) (by simp [hk]) ?_
            simp only [hk]
            refine Reads.expect hl (by decide) (Reads.bind (he hc (clear_closing (by simp [hr]) _)) ?_)
            -- in front of `else` the first branch may not leave one open, so it reads to its own end
            refine Reads.expect hr (by decide) (Reads.bind (ihs hs fun hf => by cases hf) ?_)
            refine Reads.accept (by simp [ho]) (by simp [ho]) ?_
            exact Reads.last (ihs hs' hel) (Reads.pure _ rest)
        | loop hk hl hc hr hs =>
            refine Reads.accept (by simp [statementStarts, hk]) (by simp [hk]) ?_
            simp only [hk]
            refine Reads.expect hl (by decide) (Reads.bind (he hc (clear_closing (by simp [hr]) _)) ?_)
            exact Reads.expect hr (by decide) (Reads.last (ihs hs hel) (Reads.pure _ rest))
        | @forLoop keyword left semicolon right ts us vs ws c s around behind _ hk hl hi hc hsc hn hr
            hs =>
            -- each of the three clauses is read in front of the token that ends it
            obtain ⟨i, haround, hri⟩ := loopInitializer_reads he hst hi
              (us ++ semicolon :: (vs ++ right :: ws) ++ rest)
            obtain ⟨oc, rfl, hrc⟩ := condition_reads he hst hc hsc
              (vs ++ right :: ws ++ rest)
            obtain ⟨on, hbehind, hrn⟩ := increment_reads he hst hn hr (ws ++ rest)
            rw [← hbehind, ← haround]
            refine Reads.accept (by simp [statementStarts, hk]) (by simp [hk]) ?_
            simp only [hk]
            refine Reads.expect hl (by decide) (Reads.bind hri ?_)
            refine Reads.bind (by simpa using hrc) (Reads.expect hsc (by decide) ?_)
            refine Reads.bind (by simpa using hrn) (Reads.expect hr (by decide) ?_)
            exact Reads.last (ihs hs hel) (Reads.pure _ rest)
      · rw [Grammar.Declaration] at h
        rw [declaration]
        -- nothing is given up on the way, so there is nothing to recover from
        refine Reads.recover ?_
        cases h with
        | function hk hn hl hp hr ho hb hc =>
            refine Reads.accept (by simp [hk]) (by simp [hk]) ?_
            simp only [hk]
            refine Reads.expect hn (by decide) (Reads.expect hl (by decide) ?_)
            refine Reads.bind (entries_reads [] [.identifier] (by decide)
              (by decide) ?_ ?_ hp hr) ?_
            · rintro _ _ ⟨h⟩
              exact ⟨_, _, rfl, by simp [h]⟩
            · rintro _ t us ⟨h⟩ -
              exact expect_reads h (by decide) us
            · refine Reads.expect hr (by decide) (Reads.expect ho (by decide) ?_)
              exact Reads.last (blockOf_reads declaration_startsWith ihd hb hc) (Reads.pure _ rest)
        | «variable» h =>
            obtain ⟨var, us, rfl, hv⟩ := variableDeclaration_startsWith h
            rw [List.mem_singleton] at hv
            refine Reads.accept (by simp [hv]) (by simp [hv]) ?_
            simp only [hv]
            exact variableDeclaration_reads he h
        | statement h =>
            refine Reads.decline ?_ (ihs h fun _ => hel)
            exact ((statement_startsWith h).append _).clear (by decide)

end Lox.Parser
