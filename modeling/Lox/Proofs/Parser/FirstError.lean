import Lox.Proofs.Parser.Exact

/-!
# The first syntax error

Statements, declarations and programs read their phrases exactly: each of them is refused at the first
token with which there is no way to go on, and nowhere else.

* `Exact.recover`: recovery notes the first refusal, and nothing that comes later changes it.
* `ifStatement_exact`: an `else` is taken by the nearest `if`, and no program is lost by that, since what
  follows the statement `Absorbs` it.
* `program_exact`: a program leads from the grammar to the token for the end.
* `firstRefused_parseWithin`: so the first refusal of a list is at the first token that cannot continue
  a program.
-/

namespace Lox

namespace Parser

open Grammar.Relaxed
open Computability

variable {α : Type} {M K : Language Kind} {s : State}

/-! ### Recovery -/

/-- Giving a declaration up takes no diagnostic back. -/
theorem giveUp_grows (s : State) :
    s.diagnostics <+: (giveUp s : Outcome (Option α)).state.diagnostics := by
  have h : (giveUp s : Outcome (Option α)).Matches .same True 0 (fun _ _ => True) s s (giveUp s) :=
    (synchronize_matches (.same s)).bind fun _ _ _ _ _ hs _ _ => .done trivial hs (.refl _) (.refl _)
  obtain ⟨-, ds, hds, -⟩ := h.leads
  exact ⟨ds, hds.symm⟩

/-- Recovery notes where a step is refused. -/
theorem Exact.recover {p : Parser α} (hp : Exact M K p) : Exact M K (recover p) := by
  intro s
  have h := hp s
  simp only [Parser.recover]
  generalize p s = r at h ⊢
  cases r with
  | done a s₁ =>
      refine ⟨h.grows, fun hc => ?_⟩
      cases h.verdict hc with
      | done ts hc₁ hr hpos hK hM => exact .done ts hc₁ hr hpos hK hM
      | noted h hc₁ hd hf => exact .noted h hc₁ hd hf
  | stop why s₁ =>
      cases why with
      | offEnd => exact ⟨h.grows, fun _ => .offEnd⟩
      | refused d =>
          have hgrows := giveUp_grows (α := α) { s₁ with diagnostics := s₁.diagnostics ++ [d] }
          refine ⟨(h.grows.trans (List.prefix_append _ _)).trans hgrows, fun hc => ?_⟩
          cases h.verdict hc with
          | refused hc₁ hd hf => exact .noted hgrows hc₁ hd (.inr hf)
          | noted hn hc₁ hd hf =>
              exact .noted ((hn.trans (List.prefix_append _ _)).trans hgrows) hc₁ hd hf
      | tooDeep =>
          obtain ⟨_ | ⟨t, rest⟩, n, ds⟩ := s₁
          · exact ⟨h.grows, fun _ => .offEnd⟩
          · have hgrows := giveUp_grows (α := α) ⟨t :: rest, n, ds ++ [⟨.nestingTooDeep, t, n⟩]⟩
            refine ⟨(h.grows.trans (List.prefix_append _ _)).trans hgrows, fun hc => ?_⟩
            cases h.verdict hc with
            | tooDeep hc₁ => exact .noted hgrows hc₁ rfl (.inl rfl)
            | noted hn hc₁ hd hf =>
                exact .noted ((hn.trans (List.prefix_append _ _)).trans hgrows) hc₁ hd hf

/-! ### Items -/

/-- Items up to a token that ends them: no item starts with such a token, and what follows does. -/
theorem itemsUntil_exact {last starts : List Kind} {X : Language Kind} {isLast : Token → Bool}
    {item : Parser (Option α)} (hl : ∀ t : Token, isLast t = true ↔ t.kind ∈ .eof :: last)
    (hK : K ≤ startingWith last) (hX : X ≤ startingWith starts)
    (hd : ∀ k ∈ starts, k ∉ .eof :: last) (hi : Exact (X * (X∗ * K)) (X∗ * K) item) :
    Exact (X∗ * K) K (itemsUntil isLast item) := by
  have hmem : ∀ {k : Kind} {u : List Kind},
      k :: u ∈ X∗ * K ↔ k :: u ∈ K ∨ k :: u ∈ X * (X∗ * K) := by
    intro k u
    conv_lhs => rw [kstar_mul_eq, Language.mem_add]
  have hend : K ≤ X∗ * K := by
    rw [kstar_mul_eq]
    exact le_self_add
  have hmore : X * (X∗ * K) ≤ X∗ * K := by
    conv_rhs => rw [kstar_mul_eq]
    exact le_add_self
  have hloop : ∀ bound found, Exact (X∗ * K) K (itemsFrom isLast item bound found) := by
    intro bound
    induction bound with
    | nil => exact fun _ => Exact.offEnd
    | cons b bound ih =>
        rintro found ⟨_ | ⟨t, rest⟩, n, ds⟩
        · exact Exact.offEnd _
        · rw [itemsFrom_cons, bind_of_done (p := peek) rfl]
          cases hlast : isLast t with
          | true =>
              refine (Exact.pure found.reverse _).widen hend fun t' rest' hr u hu => ?_
              cases hr
              -- no item starts with a token that ends the list
              refine (hmem.mp hu).resolve_right fun hu => ?_
              exact hd _ (cons_mem_startingWith.mp (mul_le_startingWith hX hu)) ((hl t).mp hlast)
          | false =>
              refine ((hi ⟨t :: rest, n, ds⟩).bind fun o s₁ _ => ?_).widen hmore
                fun t' rest' hr u hu => ?_
              · cases o with
                | none => exact ih found s₁
                | some a => exact ih (a :: found) s₁
              · cases hr
                -- and the end of the list does not start with any other token
                refine (hmem.mp hu).resolve_left fun hu => ?_
                have hin := List.mem_cons_of_mem .eof (cons_mem_startingWith.mp (hK hu))
                rw [(hl t).mpr hin] at hlast
                cases hlast
  exact Exact.bounded fun bound => hloop bound []

/-! ### Statements -/

section Statements

variable {expression statement : Parser Node} {declaration : Parser (Option Node)}

/-- What may follow a statement: where it starts with `else`, the statement behind could as well have
belonged to the one in front. -/
def Absorbs (K : Language Kind) : Prop := ∀ u, .elseWord :: u ∈ K → u ∈ grammar .statement * K

/-- Where no `else` follows there is nothing to absorb. -/
theorem absorbs_of_avoids (h : Avoids [.elseWord] K) : Absorbs K :=
  fun u hu => absurd List.mem_cons_self (h _ u hu)

/-- A statement, whatever follows it. -/
def ReadsStatement (X : Language Kind) (p : Parser α) : Prop :=
  ∀ K, Nonvoid K → Absorbs K → Exact (X * K) K p

section Expressions

variable (he : ReadsAs goesOn (grammar .expression) expression)

include he

/-- An expression in front of a token that does not go on with it. -/
theorem expression_exact {kind : Kind} (hk : kind ∉ goesOn) (hK : Nonvoid K) :
    Exact (grammar .expression * (token [kind] * K)) (token [kind] * K) expression :=
  he _ (by simp [hK]) (avoids_token_mul (by simpa using hk))

theorem expressionStatement_exact (hK : Nonvoid K) :
    Exact (grammar .expressionStatement * K) K (expressionStatement expression) := by
  rw [grammar_eq, rule, mul_assoc]
  exact (expression_exact he (by decide) hK).bind fun _ =>
    (Exact.expect (by decide) (by decide) hK).bind fun _ => Exact.pure _

theorem printStatement_exact (hK : Nonvoid K) :
    Exact (grammar .expression * (token [.semicolon] * K)) K (printStatement expression) :=
  (expression_exact he (by decide) hK).bind fun _ =>
    (Exact.expect (by decide) (by decide) hK).bind fun _ => Exact.pure _

/-- A variable declaration behind its keyword. -/
theorem variableDeclaration_exact (hK : Nonvoid K) :
    Exact (token [.identifier] * ((1 + token [.equal] * grammar .expression) *
      (token [.semicolon] * K))) K (variableDeclaration expression) := by
  refine (Exact.expect (by decide) (by decide) (by simp [hK])).bind fun name => ?_
  have hend : ∀ e, Exact (token [.semicolon] * K) K
      (do let _ ← expect .semicolon .expectSemicolonAfterDeclaration
          pure (.declare name e) : Parser Node) :=
    fun e => (Exact.expect (by decide) (by decide) hK).bind fun _ => Exact.pure _
  rw [add_mul, one_mul, mul_assoc]
  exact Exact.acceptOr (by decide) (avoids_token_mul (by decide)) (hend .null) fun t _ =>
    (expression_exact he (by decide) hK).bind fun e => hend e

/-- An expression that may be absent, in front of a token of the kind that shows it. -/
theorem expressionUnless_exact {kind : Kind} (hk : kind ∉ .eof :: goesOn ++ expressionStarts)
    (hK : Nonvoid K) :
    Exact ((1 + grammar .expression) * (token [kind] * K)) (token [kind] * K)
      (expressionUnless kind expression) := by
  simp only [List.cons_append, List.mem_cons, List.mem_append, not_or] at hk
  obtain ⟨heof, hgoes, hstarts⟩ := hk
  rw [add_mul, one_mul]
  refine Exact.check heof le_self_add (fun u hu => ?_) (Exact.pure none) le_add_self
    (fun k hk u hu => ?_) ((expression_exact he hgoes hK).map some)
  · refine ((Language.mem_add _ _ _).mp hu).resolve_right fun hu => hstarts ?_
    exact mem_starts_of_cons_mem hu
  · refine ((Language.mem_add _ _ _).mp hu).resolve_left fun hu => hk ?_
    simpa using (cons_mem_token_mul.mp hu).1

theorem returnStatement_exact (inFunction : Bool) (keyword : Token) (hK : Nonvoid K) :
    Exact ((1 + grammar .expression) * (token [.semicolon] * K)) K
      (returnStatement inFunction keyword expression) := by
  have hvalue : Exact ((1 + grammar .expression) * (token [.semicolon] * K)) K
      (do let value ← expressionUnless .semicolon expression
          let _ ← expect .semicolon .expectSemicolonAfterReturnValue
          pure (.returns keyword (value.getD .null)) : Parser Node) :=
    (expressionUnless_exact he (by decide) hK).bind fun _ =>
      (Exact.expect (by decide) (by decide) hK).bind fun _ => Exact.pure _
  cases inFunction with
  | true => exact hvalue
  | false => exact (Exact.report rfl keyword).bind fun _ => hvalue

/-- A clause in front of a loop leads to the condition. -/
theorem loopInitializer_exact (hK : Nonvoid K) :
    Exact ((grammar .variableDeclaration + grammar .expressionStatement + token [.semicolon]) * K) K
      (loopInitializer expression) := by
  have hexpression : grammar .expressionStatement * K ≤ startingWith expressionStarts :=
    mul_le_startingWith (grammar_starts .expressionStatement)
  have hdeclaration : grammar .variableDeclaration * K ≤ startingWith [.varWord] :=
    mul_le_startingWith (grammar_starts .variableDeclaration)
  rw [add_mul, add_mul]
  refine Exact.acceptOr (by decide) ?_ ?_ fun t _ => Exact.pure none
  · exact (avoids_of_le hdeclaration (by decide)).add (avoids_of_le hexpression (by decide))
  · have hvar := (variableDeclaration_exact he hK).map some
    rw [add_comm, grammar_eq .variableDeclaration, rule]
    simp only [mul_assoc] at hvar ⊢
    exact Exact.acceptOr (by decide) (avoids_of_le hexpression (by decide))
      ((expressionStatement_exact he hK).map some) fun t _ => hvar

variable (hs : ReadsStatement (grammar .statement) statement)

include hs

/-- The clauses of a `for` and its body, from behind the keyword on. -/
theorem forStatement_exact (hK : Nonvoid K) (hA : Absorbs K) :
    Exact (token [.leftParen] * ((grammar .variableDeclaration + grammar .expressionStatement +
      token [.semicolon]) * ((1 + grammar .expression) * (token [.semicolon] *
      ((1 + grammar .expression) * (token [.rightParen] * (grammar .statement * K))))))) K
      (forStatement expression statement) := by
  refine (Exact.expect (by decide) (by decide) (by simp [hK])).bind fun _ => ?_
  refine (loopInitializer_exact he (by simp [hK])).bind fun initializer => ?_
  refine (expressionUnless_exact he (by decide) (by simp [hK])).bind fun condition => ?_
  refine (Exact.expect (by decide) (by decide) (by simp [hK])).bind fun _ => ?_
  refine (expressionUnless_exact he (by decide) (by simp [hK])).bind fun increment => ?_
  refine (Exact.expect (by decide) (by decide) (by simp [hK])).bind fun _ => ?_
  exact (hs K hK hA).bind fun body => Exact.pure _

/-- A loop from behind its keyword on. -/
theorem whileStatement_exact (hK : Nonvoid K) (hA : Absorbs K) :
    Exact (token [.leftParen] * (grammar .expression * (token [.rightParen] *
      (grammar .statement * K)))) K (whileStatement expression statement) := by
  refine (Exact.expect (by decide) (by decide) (by simp [hK])).bind fun _ => ?_
  refine (expression_exact he (by decide) (by simp [hK])).bind fun condition => ?_
  refine (Exact.expect (by decide) (by decide) (by simp [hK])).bind fun _ => ?_
  exact (hs K hK hA).bind fun body => Exact.pure _

/-- An `else` behind the first branch is taken, and what follows a statement allows for that. -/
theorem ifStatement_exact (hK : Nonvoid K) (hA : Absorbs K) :
    Exact (token [.leftParen] * (grammar .expression * (token [.rightParen] * (grammar .statement *
      ((1 + token [.elseWord] * grammar .statement) * K))))) K
      (ifStatement expression statement) := by
  rw [add_mul, one_mul, mul_assoc (token [.elseWord])]
  have hmem : ∀ {k : Kind} {u : List Kind}, k :: u ∈ K + token [.elseWord] * (grammar .statement * K) ↔
      k :: u ∈ K ∨ k ∈ [Kind.elseWord] ∧ u ∈ grammar .statement * K := by
    intro k u
    rw [Language.mem_add, cons_mem_token_mul]
  have hstatement : grammar .statement * K ≤
      grammar .statement * (K + token [.elseWord] * (grammar .statement * K)) :=
    mul_le_mul' le_rfl le_self_add
  have hA' : Absorbs (K + token [.elseWord] * (grammar .statement * K)) :=
    fun u hu => hstatement ((hmem.mp hu).elim (fun h => hA u h) And.right)
  refine (Exact.expect (by decide) (by decide) (by simp [hK])).bind fun _ => ?_
  refine (expression_exact he (by decide) (by simp [hK])).bind fun condition => ?_
  refine (Exact.expect (by decide) (by decide) (by simp [hK])).bind fun _ => ?_
  refine (hs _ (by simp [hK]) hA').bind fun thenBranch => ?_
  refine Exact.accept (Q := fun _ => grammar .statement * K) (by decide) (fun k hk u => ?_)
    (fun t _ => ?_) le_self_add (fun k hk u hu => ?_) (Exact.pure _)
  · rw [hmem]
    refine ⟨fun h => h.elim (fun h => ?_) And.right, fun h => .inr ⟨hk, h⟩⟩
    rw [List.mem_singleton] at hk
    exact hA u (hk ▸ h)
  · exact (hs K hK hA).bind fun _ => Exact.pure _
  · exact (hmem.mp hu).resolve_right fun h => hk h.1

end Expressions

variable (hd : ReadsStatement (grammar .declaration) declaration)

include hd

/-- A block from behind its opening brace on. -/
theorem blockOf_exact (hK : Nonvoid K) :
    Exact ((grammar .declaration)∗ * (token [.rightBrace] * K)) K (blockOf declaration) := by
  have hright : token [.rightBrace] * K ≤ startingWith [.rightBrace] :=
    mul_le_startingWith (token_le_startingWith (by decide))
  have hmore : Avoids [.elseWord] ((grammar .declaration)∗ * (token [.rightBrace] * K)) := by
    rw [kstar_mul_eq]
    exact (avoids_token_mul (by decide)).add
      (avoids_of_le (mul_le_startingWith (grammar_starts .declaration)) (by decide))
  have hitem := hd _ (by simp [hK]) (absorbs_of_avoids hmore)
  refine (itemsUntil_exact (fun t => ?_) hright (grammar_starts .declaration) (by decide)
    hitem).bind fun statements => (Exact.expect (by decide) (by decide) hK).bind fun _ => Exact.pure _
  simp [or_comm]

/-- A function from behind its keyword on. -/
theorem functionDeclaration_exact (hK : Nonvoid K) :
    Exact (token [.identifier] * (token [.leftParen] * ((1 + grammar .parameters) *
      (token [.rightParen] * (grammar .block * K))))) K (functionDeclaration declaration) := by
  have hname : ReadsAs [] (token [.identifier]) (expect .identifier .expectParameterName) :=
    fun K hK _ => Exact.expect (by decide) (by decide) hK
  have hparams := entries_exact (by decide : Cause.tooManyParameters.isReported = true)
    (token_le_startingWith fun k hk => hk) (by decide) ⟨by decide, by decide⟩ hname
    (K := grammar .block * K) (by simp [hK])
  rw [grammar_eq .parameters, rule]
  refine (Exact.expect (by decide) (by decide) (by simp [hK, joined])).bind fun name => ?_
  refine (Exact.expect (by decide) (by decide) (by simp [hK, joined])).bind fun _ => ?_
  refine hparams.bind fun params => ?_
  refine (Exact.expect (by decide) (by decide) (by simp [hK])).bind fun _ => ?_
  rw [grammar_eq .block, rule, mul_assoc, mul_assoc]
  refine (Exact.expect (by decide) (by decide) (by simp [hK])).bind fun _ => ?_
  exact (blockOf_exact hd hK).bind fun body => Exact.pure _

end Statements

/-! ### Declarations -/

/-- What stands behind the token with which a statement starts. -/
def behindStart (K : Language Kind) : Kind → Language Kind
  | .forWord => token [.leftParen] * ((grammar .variableDeclaration + grammar .expressionStatement +
      token [.semicolon]) * ((1 + grammar .expression) * (token [.semicolon] *
      ((1 + grammar .expression) * (token [.rightParen] * (grammar .statement * K))))))
  | .ifWord => token [.leftParen] * (grammar .expression * (token [.rightParen] *
      (grammar .statement * ((1 + token [.elseWord] * grammar .statement) * K))))
  | .printWord => grammar .expression * (token [.semicolon] * K)
  | .returnWord => (1 + grammar .expression) * (token [.semicolon] * K)
  | .whileWord => token [.leftParen] * (grammar .expression * (token [.rightParen] *
      (grammar .statement * K)))
  | _ => (grammar .declaration)∗ * (token [.rightBrace] * K)

/-- A statement starts with a token that tells what follows, or it is an expression. -/
theorem cons_mem_statement {k : Kind} {u : List Kind} :
    k :: u ∈ grammar .statement * K ↔ k :: u ∈ grammar .expressionStatement * K ∨
      k ∈ statementStarts ∧ u ∈ behindStart K k := by
  rw [grammar_eq .statement, rule]
  iterate 6 rw [add_mul]
  rw [grammar_eq .forStatement, grammar_eq .ifStatement, grammar_eq .printStatement,
    grammar_eq .returnStatement, grammar_eq .whileStatement, grammar_eq .block]
  simp only [rule, mul_assoc, Language.mem_add, cons_mem_token_mul, List.mem_singleton]
  cases k <;> simp [statementStarts, behindStart]

/-- What stands behind the keyword with which a declaration starts. -/
def behindKeyword (K : Language Kind) : Kind → Language Kind
  | .funWord => token [.identifier] * (token [.leftParen] * ((1 + grammar .parameters) *
      (token [.rightParen] * (grammar .block * K))))
  | _ => token [.identifier] * ((1 + token [.equal] * grammar .expression) *
      (token [.semicolon] * K))

/-- A declaration starts with a keyword that tells what follows, or it is a statement. -/
theorem cons_mem_declaration {k : Kind} {u : List Kind} :
    k :: u ∈ grammar .declaration * K ↔ k :: u ∈ grammar .statement * K ∨
      k ∈ [Kind.funWord, Kind.varWord] ∧ u ∈ behindKeyword K k := by
  rw [grammar_eq .declaration, rule, add_mul, add_mul, grammar_eq .functionDeclaration,
    grammar_eq .variableDeclaration]
  simp only [rule, mul_assoc, Language.mem_add, cons_mem_token_mul, List.mem_singleton]
  cases k <;> simp [behindKeyword, or_comm]

/-- Statements and declarations, by induction on the nesting budget. -/
theorem statement_attempt_readsStatement (depth : Nat) :
    (∀ inFunction, ReadsStatement (grammar .statement) (statement inFunction depth)) ∧
    ∀ inFunction, ReadsStatement (grammar .declaration) (attempt inFunction depth) := by
  induction depth with
  | zero => exact ⟨fun _ _ _ _ => Exact.tooDeep, fun _ _ _ _ => Exact.tooDeep⟩
  | succ depth ih =>
      obtain ⟨ihs, iha⟩ := ih
      have he := (assignment_unary_readsAs depth).1
      have hd : ∀ inFunction, ReadsStatement (grammar .declaration) (declaration inFunction depth) := by
        intro inFunction K hK hA
        rw [declaration_eq_recover]
        exact (iha inFunction K hK hA).recover
      refine ⟨fun inFunction K hK hA => ?_, fun inFunction K hK hA => ?_⟩
      · have hstarts : grammar .expressionStatement * K ≤ startingWith expressionStarts :=
          mul_le_startingWith (grammar_starts .expressionStatement)
        rw [statement]
        refine Exact.accept (Q := behindStart K) (by decide) (fun k hk u => ?_) (fun t ht => ?_)
          (fun w hw => ?_) (fun k hk u hu => ?_) (expressionStatement_exact he hK)
        · have hne : k :: u ∉ grammar .expressionStatement * K :=
            fun h => avoids_of_le hstarts (by decide) k u h hk
          simp only [cons_mem_statement, hne, hk, false_or, true_and]
        · simp only [statementStarts, List.mem_cons, List.not_mem_nil, or_false] at ht
          rcases ht with ht | ht | ht | ht | ht | ht <;> simp only [ht, behindStart]
          · exact forStatement_exact he (ihs inFunction) hK hA
          · exact ifStatement_exact he (ihs inFunction) hK hA
          · exact printStatement_exact he hK
          · exact returnStatement_exact he inFunction t hK
          · exact whileStatement_exact he (ihs inFunction) hK hA
          · exact (blockOf_exact (hd inFunction) hK).map Node.block
        · obtain ⟨k, v, rfl, -⟩ := hstarts hw
          exact cons_mem_statement.mpr (.inl hw)
        · exact (cons_mem_statement.mp hu).resolve_right fun h => hk h.1
      · have hstarts : grammar .statement * K ≤ startingWith (statementStarts ++ expressionStarts) :=
          mul_le_startingWith (grammar_starts .statement)
        rw [attempt]
        refine Exact.accept (Q := behindKeyword K) (by decide) (fun k hk u => ?_) (fun t ht => ?_)
          (fun w hw => ?_) (fun k hk u hu => ?_) (ihs inFunction K hK hA)
        · have hne : k :: u ∉ grammar .statement * K :=
            fun h => avoids_of_le hstarts (by decide) k u h hk
          simp only [cons_mem_declaration, hne, hk, false_or, true_and]
        · simp only [List.mem_cons, List.not_mem_nil, or_false] at ht
          rcases ht with ht | ht <;> simp only [ht, behindKeyword]
          · exact functionDeclaration_exact (hd true) hK
          · exact variableDeclaration_exact he hK
        · obtain ⟨k, v, rfl, -⟩ := hstarts hw
          exact cons_mem_declaration.mpr (.inl hw)
        · exact (cons_mem_declaration.mp hu).resolve_right fun h => hk h.1

/-- A program leads from the grammar to its last token. -/
theorem program_exact (depth : Nat) :
    Exact (grammar .program) (token [.eof]) (program depth) := by
  have hmore : Avoids [.elseWord] ((grammar .declaration)∗ * token [.eof]) := by
    rw [kstar_mul_eq]
    exact (avoids_of_le (token_le_startingWith fun k hk => hk) (by decide)).add
      (avoids_of_le (mul_le_startingWith (grammar_starts .declaration)) (by decide))
  have hitem : Exact (grammar .declaration * ((grammar .declaration)∗ * token [.eof]))
      ((grammar .declaration)∗ * token [.eof]) (declaration false depth) := by
    rw [declaration_eq_recover]
    exact ((statement_attempt_readsStatement depth).2 false _ (by simp)
      (absorbs_of_avoids hmore)).recover
  rw [grammar_eq, rule]
  refine itemsUntil_exact (fun t => ?_) (token_le_startingWith fun k hk => hk)
    (grammar_starts .declaration) (by decide) hitem
  simp

end Parser

open Grammar.Relaxed Lox.Parser

/-- What was refused first in a list of tokens: the first diagnostic that is not only a report. -/
def Parsed.firstRefused (p : Parsed) : Option Diagnostic :=
  p.diagnostics.find? fun d => !d.cause.isReported

/-- The first refusal stays the first, whatever is noted behind it. -/
theorem find?_of_prefix {ds es : List Diagnostic} {d : Diagnostic} (h : ds ++ [d] <+: es)
    (hds : ∀ d ∈ ds, d.cause.isReported = true) (hd : d.cause.isReported = false) :
    es.find? (fun d => !d.cause.isReported) = some d := by
  obtain ⟨rest, rfl⟩ := h
  have hnone : ds.find? (fun d => !d.cause.isReported) = none := by simpa using hds
  simp [List.find?_append, hnone, hd]

/-- **The first syntax error is at the first token that cannot continue the program.**  A list of tokens
is followed by one for the end, and its nesting is not what is refused first.  If the list is a program
of the relaxed grammar, nothing in it is refused.  Otherwise something is, and what is refused first is
the token at the given position: the tokens in front of it are the start of a program, and with it they
are not.  That token may be the one for the end: then the list could have gone on. -/
theorem firstRefused_parseWithin (depth : Nat) {ts : List Token} {eof : Token}
    (hts : ∀ t ∈ ts, t.kind ≠ .eof) (heof : eof.kind = .eof)
    (hdeep : ∀ d, (parseWithin depth (ts ++ [eof])).firstRefused = some d →
      d.cause ≠ .nestingTooDeep) :
    (Token.kinds (ts ++ [eof]) ∈ grammar .program →
      (parseWithin depth (ts ++ [eof])).firstRefused = none) ∧
    (Token.kinds (ts ++ [eof]) ∉ grammar .program →
      ∃ d, (parseWithin depth (ts ++ [eof])).firstRefused = some d ∧
        (ts ++ [eof])[d.position]? = some d.token ∧
        (∃ u, Token.kinds ((ts ++ [eof]).take d.position) ++ u ∈ grammar .program) ∧
        ∀ u, Token.kinds ((ts ++ [eof]).take (d.position + 1)) ++ u ∉ grammar .program) := by
  obtain ⟨ss, s₁, e, rest, h, hrest, he⟩ | ⟨s₁, h, -⟩ := program_cases depth ⟨ts ++ [eof], 0, []⟩
  · have hv := (program_exact depth ⟨ts ++ [eof], 0, []⟩).verdict fun _ hd => nomatch hd
    obtain ⟨-, hds, -⟩ := parseWithin_of_program h
    rw [h] at hv
    simp only [Parsed.firstRefused, hds] at hdeep ⊢
    cases hv with
    | done us hc hr _ hK _ =>
        -- no error: all of `ts` has been read, and the end mark is next
        have hus : us = ts := append_eof_inj hts he (by rw [← hrest]; exact hr)
        have hin : Token.kinds (ts ++ [eof]) ∈ grammar .program := by
          rw [Token.kinds, List.map_append, ← hus]
          exact hK _ ⟨eof.kind, by simp [heof], rfl⟩
        exact ⟨fun _ => List.find?_eq_none.mpr fun d hd => by simp [hc d hd], fun h => absurd hin h⟩
    | @noted _ ds d hn hc hd hf =>
        -- the first error, at the token behind the viable prefix `us`
        have hfirst := find?_of_prefix hn hc hd
        obtain ⟨us, rest', hr, hpos, hviable, hdead⟩ := hf.resolve_left (hdeep d hfirst)
        have hr : ts ++ [eof] = us ++ d.token :: rest' := hr
        have hpos : d.position = us.length := by rw [hpos, Nat.zero_add]
        refine ⟨fun hin => absurd ?_ (hdead (Token.kinds rest')), fun _ =>
          ⟨d, hfirst, ?_, ?_, fun u => ?_⟩⟩
        · rw [hr] at hin
          simpa [Token.kinds] using hin
        · simp [hr, hpos]
        · rw [hr, hpos, List.take_left]
          exact hviable
        · have htake : (us ++ d.token :: rest').take (us.length + 1) = us ++ [d.token] := by
            simp [List.take_append]
          rw [hr, hpos, htake]
          simpa [Token.kinds] using hdead u
  · obtain ⟨-, hres⟩ := parseWithin_ended depth hts heof []
    rw [parseWithin, h] at hres
    rcases hres with ⟨_, hres⟩ | ⟨_, _, hres⟩ <;> cases hres

/-- `1 = 2; x y` and the end: the target of the assignment is only reported, and what is refused first
is `y`, where `1 = 2; x` could have gone on. -/
theorem firstRefused_parseWithin_missing_semicolon :
    let token kind text := Token.ofText kind text .null 1
    let ts := [token .number "1", token .equal "=", token .number "2", token .semicolon ";",
      token .identifier "x", token .identifier "y"]
    let eof := token .eof ""
    (parse (ts ++ [eof])).diagnostics =
        [⟨.invalidAssignmentTarget, token .equal "=", 3⟩,
          ⟨.expectSemicolonAfterExpression, token .identifier "y", 5⟩] ∧
      Token.kinds (ts ++ [eof]) ∉ grammar .program ∧
      (∃ u, Token.kinds ((ts ++ [eof]).take 5) ++ u ∈ grammar .program) ∧
      ∀ u, Token.kinds ((ts ++ [eof]).take 6) ++ u ∉ grammar .program := by
  intro token ts eof
  have hds : (parse (ts ++ [eof])).diagnostics =
      [⟨.invalidAssignmentTarget, token .equal "=", 3⟩,
        ⟨.expectSemicolonAfterExpression, token .identifier "y", 5⟩] := by cbv
  have hfirst : (parse (ts ++ [eof])).firstRefused =
      some ⟨.expectSemicolonAfterExpression, token .identifier "y", 5⟩ := by
    rw [Parsed.firstRefused, hds]
    rfl
  have hdeep : ∀ d, (parse (ts ++ [eof])).firstRefused = some d → d.cause ≠ .nestingTooDeep := by
    rw [hfirst]
    rintro d ⟨⟩
    decide
  obtain ⟨hin, hout⟩ := firstRefused_parseWithin nestingLimit (by decide : ∀ t ∈ ts, t.kind ≠ .eof)
    (rfl : eof.kind = .eof) hdeep
  have hnot : Token.kinds (ts ++ [eof]) ∉ grammar .program := by
    intro h
    have hnone := hin h
    rw [← parse, hfirst] at hnone
    cases hnone
  obtain ⟨d, hd, -, hviable, hdead⟩ := hout hnot
  rw [← parse, hfirst] at hd
  cases hd
  exact ⟨hds, hnot, hviable, hdead⟩

end Lox
