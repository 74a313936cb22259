import Mathlib
import Lox.Proofs.Parser.Statement

/-!
# The grammar without what is only reported

Some mistakes are reported and reading goes on behind them: any disjunction may stand in front of `=`,
lists of arguments and parameters may have any length, and `return` may stand anywhere.  What is left of
the grammar then is a matter of the kinds of the tokens alone.

The rules are equations between languages over the kinds (`rule`), and the grammar is their least
solution (`grammar`).  The rule for `if` leaves open to which `if` an `else` belongs.

* `grammar_eq`: the grammar satisfies its rules.
* `grammar_starts`: the kinds with which each phrase starts; no phrase is empty.
* `nonvoid_grammar`: there are phrases of each sort.
-/

namespace Lox.Grammar

open Computability

namespace Relaxed

/-- The sorts of phrases. -/
inductive Nonterminal where
  | program
  | declaration | functionDeclaration | variableDeclaration
  | statement | expressionStatement | forStatement | ifStatement | printStatement | returnStatement
  | whileStatement | block
  | parameters | arguments
  | expression | assignment | logicOr | logicAnd | equality | comparison | term | factor | unary
  | call | primary

/-- A single token of one of some kinds. -/
def token (kinds : List Kind) : Language Kind := {w | ∃ k ∈ kinds, w = [k]}

/-- Phrases with single tokens of some kinds between them. -/
def joined (kinds : List Kind) (X : Language Kind) : Language Kind := X * (token kinds * X)∗

/-- The rules of the grammar, over given phrases. -/
def rule (g : Nonterminal → Language Kind) : Nonterminal → Language Kind
  | .program => (g .declaration)∗ * token [.eof]
  | .declaration => g .functionDeclaration + g .variableDeclaration + g .statement
  | .functionDeclaration =>
    token [.funWord] * token [.identifier] * token [.leftParen] * (1 + g .parameters) *
      token [.rightParen] * g .block
  | .variableDeclaration =>
    token [.varWord] * token [.identifier] * (1 + token [.equal] * g .expression) *
      token [.semicolon]
  | .statement =>
    g .expressionStatement + g .forStatement + g .ifStatement + g .printStatement +
      g .returnStatement + g .whileStatement + g .block
  | .expressionStatement => g .expression * token [.semicolon]
  | .forStatement =>
    token [.forWord] * token [.leftParen] *
      (g .variableDeclaration + g .expressionStatement + token [.semicolon]) *
      (1 + g .expression) * token [.semicolon] * (1 + g .expression) * token [.rightParen] *
      g .statement
  | .ifStatement =>
    token [.ifWord] * token [.leftParen] * g .expression * token [.rightParen] * g .statement *
      (1 + token [.elseWord] * g .statement)
  | .printStatement => token [.printWord] * g .expression * token [.semicolon]
  | .returnStatement => token [.returnWord] * (1 + g .expression) * token [.semicolon]
  | .whileStatement =>
    token [.whileWord] * token [.leftParen] * g .expression * token [.rightParen] * g .statement
  | .block => token [.leftBrace] * (g .declaration)∗ * token [.rightBrace]
  | .parameters => joined [.comma] (token [.identifier])
  | .arguments => joined [.comma] (g .expression)
  | .expression => g .assignment
  | .assignment => g .logicOr * (1 + token [.equal] * g .assignment)
  | .logicOr => joined [.orWord] (g .logicAnd)
  | .logicAnd => joined [.andWord] (g .equality)
  | .equality => joined [.bangEqual, .equalEqual] (g .comparison)
  | .comparison => joined [.greater, .greaterEqual, .less, .lessEqual] (g .term)
  | .term => joined [.minus, .plus] (g .factor)
  | .factor => joined [.slash, .star] (g .unary)
  | .unary => token [.bang, .minus] * g .unary + g .call
  | .call => g .primary * (token [.leftParen] * (1 + g .arguments) * token [.rightParen])∗
  | .primary =>
    token [.falseWord, .trueWord, .nilWord, .number, .string, .identifier] +
      token [.leftParen] * g .expression * token [.rightParen]

/-- More words for the nonterminals give more words for each rule. -/
theorem rule_mono : Monotone rule := by
  intro g g' h N
  cases N <;> simp only [rule] <;>
    apply_rules [add_le_add, mul_le_mul', kstar_mono, le_refl, h]

/-- The grammar: the least languages that satisfy the rules. -/
def grammar : Nonterminal → Language Kind := OrderHom.lfp ⟨rule, rule_mono⟩

/-- The grammar is a fixed point of its rules. -/
theorem grammar_eq (N : Nonterminal) : grammar N = rule grammar N :=
  (congrFun (OrderHom.map_lfp ⟨rule, rule_mono⟩) N).symm

/-! ### First tokens -/

/-- The lists that start with one of some kinds. -/
def startingWith (kinds : List Kind) : Language Kind := {w | ∃ k v, w = k :: v ∧ k ∈ kinds}

variable {kinds kinds' : List Kind} {X Y K : Language Kind} {k : Kind} {u : List Kind}

theorem cons_mem_startingWith : k :: u ∈ startingWith kinds ↔ k ∈ kinds := by
  constructor
  · rintro ⟨k', v, h, hk⟩
    cases h
    exact hk
  · exact fun hk => ⟨k, u, rfl, hk⟩

theorem token_le_startingWith (h : ∀ k ∈ kinds, k ∈ kinds') : token kinds ≤ startingWith kinds' := by
  rintro _ ⟨k, hk, rfl⟩
  exact ⟨k, [], rfl, h k hk⟩

theorem startingWith_mono (h : ∀ k ∈ kinds, k ∈ kinds') :
    startingWith kinds ≤ startingWith kinds' := by
  rintro _ ⟨k, v, rfl, hk⟩
  exact ⟨k, v, rfl, h k hk⟩

/-- An alternative starts like one of its parts. -/
theorem add_le_startingWith (hX : X ≤ startingWith kinds) (hY : Y ≤ startingWith kinds) :
    X + Y ≤ startingWith kinds := by
  intro w hw
  exact ((Language.mem_add X Y w).mp hw).elim (fun h => hX h) (fun h => hY h)

/-- A sequence starts like its first part, if that is not empty. -/
theorem mul_le_startingWith (h : X ≤ startingWith kinds) : X * Y ≤ startingWith kinds := by
  intro w hw
  obtain ⟨a, ha, b, -, rfl⟩ := Language.mem_mul.mp hw
  obtain ⟨k, v, rfl, hk⟩ := h ha
  exact ⟨k, v ++ b, rfl, hk⟩

/-- A repetition comes to its end or goes on for another round. -/
theorem kstar_mul_eq (X K : Language Kind) : X∗ * K = K + X * (X∗ * K) := by
  conv_lhs => rw [← Language.one_add_self_mul_kstar_eq_kstar X, add_mul, one_mul, mul_assoc]

/-- The kinds with which the phrases of a sort start. -/
def starts : Nonterminal → List Kind
  | .program => .eof :: Parser.declarationStarts
  | .declaration => Parser.declarationStarts
  | .functionDeclaration => [.funWord]
  | .variableDeclaration => [.varWord]
  | .statement => Parser.statementStarts ++ Parser.expressionStarts
  | .forStatement => [.forWord]
  | .ifStatement => [.ifWord]
  | .printStatement => [.printWord]
  | .returnStatement => [.returnWord]
  | .whileStatement => [.whileWord]
  | .block => [.leftBrace]
  | .parameters => [.identifier]
  | .call | .primary => Parser.primaryStarts
  | _ => Parser.expressionStarts

/-- Every phrase starts with a token of the kinds of its sort. -/
theorem grammar_starts (N : Nonterminal) : grammar N ≤ startingWith (starts N) := by
  refine OrderHom.lfp_le ⟨rule, rule_mono⟩ (a := fun N => startingWith (starts N)) ?_ N
  intro N
  cases N with
  | program =>
      show (startingWith (starts .declaration))∗ * token [.eof] ≤ startingWith (starts .program)
      rw [kstar_mul_eq]
      exact add_le_startingWith (token_le_startingWith (by decide))
        (mul_le_startingWith (startingWith_mono (by decide)))
  | declaration | statement =>
      repeat' apply add_le_startingWith
      all_goals exact startingWith_mono (by decide)
  | unary =>
      exact add_le_startingWith (mul_le_startingWith (token_le_startingWith (by decide)))
        (startingWith_mono (by decide))
  | primary =>
      exact add_le_startingWith (token_le_startingWith (by decide))
        (mul_le_startingWith (mul_le_startingWith (token_le_startingWith (by decide))))
  | expression => exact le_rfl
  | expressionStatement | arguments | assignment | logicOr | logicAnd | equality | comparison | term
  | factor | call => exact mul_le_startingWith (startingWith_mono (by decide))
  | _ =>
      repeat apply mul_le_startingWith
      exact token_le_startingWith (by decide)

/-! ### Membership by the first token -/

/-- Only a token in front can be taken off. -/
theorem cons_mem_token_mul : k :: u ∈ token kinds * K ↔ k ∈ kinds ∧ u ∈ K := by
  constructor
  · intro h
    obtain ⟨_, ⟨k', hk, rfl⟩, b, hb, h⟩ := Language.mem_mul.mp h
    cases h
    exact ⟨hk, hb⟩
  · exact fun ⟨hk, hu⟩ => Language.mem_mul.mpr ⟨[k], ⟨k, hk, rfl⟩, u, hu, rfl⟩

/-- A phrase of the grammar in front decides the first token. -/
theorem mem_starts_of_cons_mem {N : Nonterminal} (h : k :: u ∈ grammar N * K) : k ∈ starts N :=
  cons_mem_startingWith.mp (mul_le_startingWith (grammar_starts N) h)

/-- There is a list in the language. -/
def Nonvoid (K : Language Kind) : Prop := ∃ u, u ∈ K

@[simp]
theorem nonvoid_one : Nonvoid 1 := ⟨[], Language.nil_mem_one⟩

@[simp]
theorem nonvoid_kstar : Nonvoid X∗ := ⟨[], Language.nil_mem_kstar X⟩

@[simp]
theorem nonvoid_token_cons : Nonvoid (token (k :: kinds)) := ⟨[k], k, List.mem_cons_self, rfl⟩

/-- A sequence has a word if both parts have. -/
@[simp]
theorem nonvoid_mul : Nonvoid (X * Y) ↔ Nonvoid X ∧ Nonvoid Y := by
  constructor
  · rintro ⟨w, hw⟩
    obtain ⟨a, ha, b, hb, -⟩ := Language.mem_mul.mp hw
    exact ⟨⟨a, ha⟩, ⟨b, hb⟩⟩
  · exact fun ⟨⟨a, ha⟩, ⟨b, hb⟩⟩ => ⟨a ++ b, Language.append_mem_mul ha hb⟩

@[simp]
theorem nonvoid_sup : Nonvoid (X ⊔ Y) ↔ Nonvoid X ∨ Nonvoid Y := exists_or

/-- What has a word by its rule has one. -/
theorem nonvoid_of_rule {N : Nonterminal} (h : Nonvoid (rule grammar N)) : Nonvoid (grammar N) := by
  rwa [grammar_eq]

/-- There are phrases of each sort. -/
@[simp]
theorem nonvoid_grammar (N : Nonterminal) : Nonvoid (grammar N) := by
  have hprimary : Nonvoid (grammar .primary) := nonvoid_of_rule (by simp [rule])
  have hcall : Nonvoid (grammar .call) := nonvoid_of_rule (by simp [rule, hprimary])
  have hunary : Nonvoid (grammar .unary) := nonvoid_of_rule (by simp [rule, hcall])
  have hfactor : Nonvoid (grammar .factor) := nonvoid_of_rule (by simp [rule, joined, hunary])
  have hterm : Nonvoid (grammar .term) := nonvoid_of_rule (by simp [rule, joined, hfactor])
  have hcomparison : Nonvoid (grammar .comparison) := nonvoid_of_rule (by simp [rule, joined, hterm])
  have hequality : Nonvoid (grammar .equality) :=
    nonvoid_of_rule (by simp [rule, joined, hcomparison])
  have hand : Nonvoid (grammar .logicAnd) := nonvoid_of_rule (by simp [rule, joined, hequality])
  have hor : Nonvoid (grammar .logicOr) := nonvoid_of_rule (by simp [rule, joined, hand])
  have hassignment : Nonvoid (grammar .assignment) := nonvoid_of_rule (by simp [rule, hor])
  have hexpression : Nonvoid (grammar .expression) := nonvoid_of_rule (by simp [rule, hassignment])
  have hsemicolon : Nonvoid (grammar .expressionStatement) :=
    nonvoid_of_rule (by simp [rule, hexpression])
  have hstatement : Nonvoid (grammar .statement) := nonvoid_of_rule (by simp [rule, hsemicolon])
  have hblock : Nonvoid (grammar .block) := nonvoid_of_rule (by simp [rule])
  cases N with
  | program | declaration | functionDeclaration | variableDeclaration | forStatement | ifStatement
  | printStatement | returnStatement | whileStatement | parameters | arguments =>
      exact nonvoid_of_rule (by simp [rule, joined, hexpression, hstatement, hblock])
  | _ => assumption

end Relaxed

end Lox.Grammar
