import Lox.Proofs.Parser.Program
import Lox.Proofs.Token.Scan

/-!
# The trees of program texts

A tree that was loaded may have any shape; the tree of a program text has that of a program.
`Node.IsExpression T` and `Node.IsStatement T inFunction` say so, for trees whose tokens are in `T`:
literals hold values of the language, every operator stands in a tree for operators of its kind, and
a `return` stands inside a function only.

`Program.ofSource_eq_ok`: the statements of a program text are statements in this sense.  A phrase
*builds* a kind of tree when it gives it for all tokens in `T`; every rule of the grammar builds what
it should if its parts do.
-/

namespace Lox

namespace Node

/-- A value that a literal of a program text can have. -/
inductive IsLiteral : Node → Prop where
  | text (s : String) : IsLiteral (.text s)
  | number (text : List Char) : IsLiteral (.number (Lexer.numeralValue text))
  | bool (b : Bool) : IsLiteral (.bool b)
  | nil : IsLiteral .nil

/-- The operators that stand between two operands, the logical ones left out. -/
def binaryKinds : List Kind :=
  [.slash, .star, .minus, .plus, .greater, .greaterEqual, .less, .lessEqual, .bangEqual, .equalEqual]

section

variable (T : Token → Prop)

/-- An expression of a program text, with tokens in `T`. -/
inductive IsExpression : Node → Prop where
  | literal {v : Node} (h : IsLiteral v) : IsExpression (.literal v)
  | grouping {e : Node} (h : IsExpression e) : IsExpression (.grouping e)
  | reference {name : Token} (hn : T name) (hk : name.kind = .identifier) :
      IsExpression (.reference name)
  | assign {name : Token} {e : Node} (hn : T name) (hk : name.kind = .identifier)
      (h : IsExpression e) : IsExpression (.assign name e)
  | logical {l r : Node} {o : Token} (hl : IsExpression l) (ho : T o)
      (hk : o.kind ∈ [Kind.andWord, .orWord]) (hr : IsExpression r) :
      IsExpression (.logical l o r)
  | unary {o : Token} {e : Node} (ho : T o) (hk : o.kind ∈ [Kind.bang, .minus])
      (h : IsExpression e) : IsExpression (.unary o e)
  | binary {l r : Node} {o : Token} (hl : IsExpression l) (ho : T o) (hk : o.kind ∈ binaryKinds)
      (hr : IsExpression r) : IsExpression (.binary l o r)
  | call {e : Node} {paren : Token} {es : List Node} (h : IsExpression e) (hp : T paren)
      (hs : ∀ e' ∈ es, IsExpression e') : IsExpression (.call e paren es)

/-- A statement of a program text, inside a function or outside, with tokens in `T`. -/
inductive IsStatement : Bool → Node → Prop where
  | expression {inFunction : Bool} {e : Node} (h : IsExpression T e) :
      IsStatement inFunction (.expression e)
  | print {inFunction : Bool} {e : Node} (h : IsExpression T e) : IsStatement inFunction (.print e)
  | declare {inFunction : Bool} {name : Token} (hn : T name) (hk : name.kind = .identifier) :
      IsStatement inFunction (.declare name .null)
  | declareValue {inFunction : Bool} {name : Token} {e : Node} (hn : T name)
      (hk : name.kind = .identifier) (h : IsExpression T e) :
      IsStatement inFunction (.declare name e)
  | block {inFunction : Bool} {statements : List Node}
      (h : ∀ s ∈ statements, IsStatement inFunction s) : IsStatement inFunction (.block statements)
  | branch {inFunction : Bool} {c s : Node} (hc : IsExpression T c) (hs : IsStatement inFunction s) :
      IsStatement inFunction (.branch c s .null)
  | branchElse {inFunction : Bool} {c s s' : Node} (hc : IsExpression T c)
      (hs : IsStatement inFunction s) (hs' : IsStatement inFunction s') :
      IsStatement inFunction (.branch c s s')
  | loop {inFunction : Bool} {c s : Node} (hc : IsExpression T c) (hs : IsStatement inFunction s) :
      IsStatement inFunction (.loop c s)
  | function {inFunction : Bool} {name : Token} {params : List Token} {body : List Node}
      (hn : T name) (hk : name.kind = .identifier)
      (hp : ∀ p ∈ params, T p ∧ p.kind = .identifier) (hb : ∀ s ∈ body, IsStatement true s) :
      IsStatement inFunction (.function name params body)
  | returnNothing {keyword : Token} (hk : T keyword) : IsStatement true (.returns keyword .null)
  | returns {keyword : Token} {e : Node} (hk : T keyword) (h : IsExpression T e) :
      IsStatement true (.returns keyword e)

end

theorem IsExpression.ne_null {T : Token → Prop} {e : Node} (h : IsExpression T e) : e ≠ .null := by
  rintro rfl
  cases h

theorem IsStatement.ne_null {T : Token → Prop} {inFunction : Bool} {s : Node}
    (h : IsStatement T inFunction s) : s ≠ .null := by
  rintro rfl
  cases h

end Node

/-! ### What the rules of the grammar build -/

namespace Grammar

variable {α : Type} {T : Token → Prop}

/-- Of tokens in `T`, the phrase gives only what is in `P`. -/
def Builds (T : Token → Prop) (P : α → Prop) (A : Phrase α) : Prop :=
  ∀ ts a, A ts a → (∀ t ∈ ts, T t) → P a

/-- Operators of certain kinds join what their operands build. -/
theorem JoinedLeft.builds {kinds : List Kind} {join : Node → Token → Node → Node}
    {Operand : Phrase Node} {P : Node → Prop} (ho : Builds T P Operand)
    (hj : ∀ l t r, P l → T t → t.kind ∈ kinds → P r → P (join l t r)) :
    Builds T P (JoinedLeft kinds join Operand) := by
  intro ts e h
  induction h with
  | operand h => exact ho _ _ h
  | operator hl ht hr ih =>
      intro hT
      rw [List.forall_mem_append, List.forall_mem_cons] at hT
      exact hj _ _ _ (ih hT.1) hT.2.1 ht (ho _ _ hr hT.2.2)

/-- A list builds what its entries build. -/
theorem Listed.builds {Entry : Phrase α} {P : α → Prop} (he : Builds T P Entry) :
    Builds T (fun as => ∀ a ∈ as, P a) (Listed Entry) := by
  intro ts as h
  induction h with
  | one h =>
      intro hT
      exact List.forall_mem_singleton.mpr (he _ _ h hT)
  | more h _ _ ih =>
      intro hT
      rw [List.forall_mem_append, List.forall_mem_cons] at hT
      exact List.forall_mem_cons.mpr ⟨he _ _ h hT.1, ih hT.2.2⟩

theorem Entries.builds {Entry : Phrase α} {P : α → Prop} (he : Builds T P Entry) :
    Builds T (fun as => ∀ a ∈ as, P a) (Entries Entry) := by
  intro ts as h hT
  cases h with
  | none => exact fun a ha => absurd ha List.not_mem_nil
  | some h _ => exact Listed.builds he _ _ h hT

theorem Sequence.builds {Item : Phrase α} {P : α → Prop} (hi : Builds T P Item) :
    Builds T (fun as => ∀ a ∈ as, P a) (Sequence Item) := by
  intro ts as h
  induction h with
  | nil => exact fun _ a ha => absurd ha List.not_mem_nil
  | cons h _ ih =>
      intro hT
      rw [List.forall_mem_append] at hT
      exact List.forall_mem_cons.mpr ⟨hi _ _ h hT.1, ih hT.2⟩

/-! ### Expressions -/

open Node (IsLiteral IsExpression IsStatement)

/-- A number that was cut from a text denotes a literal of the language. -/
theorem isLiteral_of_number (hT : ∀ t, T t → t.IsCut) {t : Token} (ht : T t) (hk : t.kind = .number) :
    IsLiteral (Node.ofLiteral t.literal) := by
  obtain ⟨lines, kind, text, line, -, -, rfl⟩ := hT t ht
  obtain rfl : kind = .number := hk
  exact .number text

/-- So does a string, which denotes what stands between its quotes. -/
theorem isLiteral_of_string (hT : ∀ t, T t → t.IsCut) {t : Token} (ht : T t) (hk : t.kind = .string) :
    IsLiteral (Node.ofLiteral t.literal) := by
  obtain ⟨lines, kind, text, line, -, -, rfl⟩ := hT t ht
  obtain rfl : kind = .string := hk
  exact .text _

theorem Primary.builds (hT : ∀ t, T t → t.IsCut) {Expr : Phrase Node}
    (he : Builds T (IsExpression T) Expr) : Builds T (IsExpression T) (Primary Expr) := by
  intro ts e h ht
  cases h with
  | falseWord | trueWord => exact .literal (.bool _)
  | nilWord => exact .literal .nil
  | number hk => exact .literal (isLiteral_of_number hT (ht _ List.mem_cons_self) hk)
  | string hk => exact .literal (isLiteral_of_string hT (ht _ List.mem_cons_self) hk)
  | identifier hk => exact .reference (ht _ List.mem_cons_self) hk
  | grouping _ h _ =>
      rw [List.forall_mem_cons, List.forall_mem_append] at ht
      exact .grouping (he _ _ h ht.2.1)

theorem Call.builds (hT : ∀ t, T t → t.IsCut) {Expr : Phrase Node}
    (he : Builds T (IsExpression T) Expr) : Builds T (IsExpression T) (Call Expr) := by
  intro ts e h
  induction h with
  | primary h => exact Primary.builds hT he _ _ h
  | call _ _ ha _ ih =>
      intro ht
      rw [List.forall_mem_append, List.forall_mem_cons, List.forall_mem_append] at ht
      obtain ⟨htc, -, hta, htr⟩ := ht
      exact .call (ih htc) (htr _ List.mem_cons_self) (Entries.builds he _ _ ha hta)

/-- The six levels with an operator between two operands. -/
theorem LogicOr.builds {Operand : Phrase Node} (ho : Builds T (IsExpression T) Operand) :
    Builds T (IsExpression T) (LogicOr Operand) := by
  have binary : ∀ {kinds : List Kind} {Operand : Phrase Node}, kinds ⊆ Node.binaryKinds →
      Builds T (IsExpression T) Operand →
      Builds T (IsExpression T) (JoinedLeft kinds .binary Operand) := by
    intro kinds Operand hk ho
    exact JoinedLeft.builds ho fun l t r hl ht htk hr => .binary hl ht (hk htk) hr
  have logical : ∀ {kinds : List Kind} {Operand : Phrase Node}, kinds ⊆ [.andWord, .orWord] →
      Builds T (IsExpression T) Operand →
      Builds T (IsExpression T) (JoinedLeft kinds .logical Operand) := by
    intro kinds Operand hk ho
    exact JoinedLeft.builds ho fun l t r hl ht htk hr => .logical hl ht (hk htk) hr
  exact logical (by decide) <| logical (by decide) <| binary (by decide) <| binary (by decide) <|
    binary (by decide) <| binary (by decide) ho

/-- Expressions, by induction on the nesting. -/
theorem expression_unary_builds (hT : ∀ t, T t → t.IsCut) (n : Nat) :
    Builds T (IsExpression T) (Expression n) ∧ Builds T (IsExpression T) (Unary n) := by
  induction n with
  | zero => exact ⟨fun _ _ h => h.elim, fun _ _ h => h.elim⟩
  | succ n ih =>
      obtain ⟨ihe, ihu⟩ := ih
      refine ⟨fun ts e h ht => ?_, fun ts e h ht => ?_⟩
      · rw [Expression] at h
        cases h with
        | plain h => exact LogicOr.builds ihu _ _ h ht
        | assign hn _ h =>
            rw [List.forall_mem_cons, List.forall_mem_cons] at ht
            exact .assign ht.1 hn (ihe _ _ h ht.2.2)
      · rw [Unary] at h
        cases h with
        | operator hk h =>
            rw [List.forall_mem_cons] at ht
            exact .unary ht.1 hk (ihu _ _ h ht.2)
        | call h => exact Call.builds hT ihe _ _ h ht

/-! ### Statements -/

section Statements

variable {Expr : Phrase Node} {inFunction : Bool}

theorem VariableDeclaration.builds (he : Builds T (IsExpression T) Expr) :
    Builds T (IsStatement T inFunction) (VariableDeclaration Expr) := by
  intro ts d h ht
  cases h with
  | plain _ hn _ =>
      rw [List.forall_mem_cons, List.forall_mem_cons] at ht
      exact .declare ht.2.1 hn
  | initialized _ hn _ h _ =>
      simp only [List.forall_mem_cons, List.forall_mem_append] at ht
      exact .declareValue ht.2.1 hn (he _ _ h ht.2.2.2.1)

/-- The first clause of a `for` statement makes a statement of the loop. -/
theorem Initializer.builds (he : Builds T (IsExpression T) Expr) :
    Builds T (fun around => ∀ s, IsStatement T inFunction s → IsStatement T inFunction (around s))
      (Initializer Expr) := by
  intro ts around h ht s hs
  cases h with
  | none _ => exact hs
  | «variable» h =>
      refine .block (List.forall_mem_cons.mpr ⟨VariableDeclaration.builds he _ _ h ht, ?_⟩)
      exact List.forall_mem_singleton.mpr hs
  | expression h _ =>
      rw [List.forall_mem_append] at ht
      refine .block (List.forall_mem_cons.mpr ⟨.expression (he _ _ h ht.1), ?_⟩)
      exact List.forall_mem_singleton.mpr hs

/-- A condition left out is a literal. -/
theorem Condition.builds (he : Builds T (IsExpression T) Expr) :
    Builds T (IsExpression T) (Condition Expr) := by
  intro ts c h ht
  cases h with
  | none => exact .literal (.bool true)
  | some h => exact he _ _ h ht

/-- The third clause of a `for` statement makes a statement of the body. -/
theorem Increment.builds (he : Builds T (IsExpression T) Expr) :
    Builds T (fun behind => ∀ s, IsStatement T inFunction s → IsStatement T inFunction (behind s))
      (Increment Expr) := by
  intro ts behind h ht s hs
  cases h with
  | none => exact hs
  | some h =>
      refine .block (List.forall_mem_cons.mpr ⟨hs, ?_⟩)
      exact List.forall_mem_singleton.mpr (.expression (he _ _ h ht))

/-- Statements, if their parts build what they should. -/
theorem StatementOver.builds {Stmt : Bool → Phrase Node} {Body : Phrase (List Node)}
    (he : Builds T (IsExpression T) Expr)
    (hs : ∀ dangling, Builds T (IsStatement T inFunction) (Stmt dangling))
    (hb : Builds T (fun body => ∀ s ∈ body, IsStatement T inFunction s) Body) (dangling : Bool) :
    Builds T (IsStatement T inFunction) (StatementOver inFunction Expr Stmt Body dangling) := by
  intro ts s h ht
  cases h with
  | expression h _ =>
      rw [List.forall_mem_append] at ht
      exact .expression (he _ _ h ht.1)
  | print _ h _ =>
      rw [List.forall_mem_cons, List.forall_mem_append] at ht
      exact .print (he _ _ h ht.2.1)
  | returns hf _ h _ =>
      rw [List.forall_mem_cons, List.forall_mem_append] at ht
      subst hf
      cases h with
      | none => exact .returnNothing ht.1
      | some h => exact .returns ht.1 (he _ _ h ht.2.1)
  | block _ h _ =>
      rw [List.forall_mem_cons, List.forall_mem_append] at ht
      exact .block (hb _ _ h ht.2.1)
  | branch _ _ hc _ h =>
      simp only [List.forall_mem_cons, List.forall_mem_append] at ht
      exact .branch (he _ _ hc ht.2.2.1) (hs _ _ _ h ht.2.2.2.2)
  | branchElse _ _ hc _ h _ h' =>
      simp only [List.forall_mem_cons, List.forall_mem_append] at ht
      obtain ⟨-, -, htc, -, hts, -, hts'⟩ := ht
      exact .branchElse (he _ _ hc htc) (hs _ _ _ h hts) (hs _ _ _ h' hts')
  | loop _ _ hc _ h =>
      simp only [List.forall_mem_cons, List.forall_mem_append] at ht
      exact .loop (he _ _ hc ht.2.2.1) (hs _ _ _ h ht.2.2.2.2)
  | forLoop _ _ hi hc _ hn _ h =>
      simp only [List.forall_mem_cons, List.forall_mem_append] at ht
      obtain ⟨-, -, hti, htc, -, htn, -, hts⟩ := ht
      have hbody := Increment.builds he _ _ hn htn _ (hs _ _ _ h hts)
      exact Initializer.builds he _ _ hi hti _ (.loop (Condition.builds he _ _ hc htc) hbody)

theorem Parameter.builds : Builds T (fun p => T p ∧ p.kind = .identifier) Parameter := by
  intro ts p h ht
  cases h with
  | name hk => exact ⟨ht _ List.mem_cons_self, hk⟩

/-- Declarations; the body of a function may return. -/
theorem DeclarationOver.builds {Stmt : Bool → Phrase Node} {Body : Phrase (List Node)}
    (he : Builds T (IsExpression T) Expr)
    (hs : ∀ dangling, Builds T (IsStatement T inFunction) (Stmt dangling))
    (hb : Builds T (fun body => ∀ s ∈ body, IsStatement T true s) Body) :
    Builds T (IsStatement T inFunction) (DeclarationOver Expr Stmt Body) := by
  intro ts d h ht
  cases h with
  | function _ hn _ hp _ _ h _ =>
      simp only [List.forall_mem_cons, List.forall_mem_append] at ht
      obtain ⟨-, htn, -, htp, -, -, htb, -⟩ := ht
      exact .function htn hn (Entries.builds Parameter.builds _ _ hp htp) (hb _ _ h htb)
  | «variable» h => exact VariableDeclaration.builds he _ _ h ht
  | statement h => exact hs _ _ _ h ht

/-- Statements and declarations, by induction on the nesting. -/
theorem statement_declaration_builds (hT : ∀ t, T t → t.IsCut) (n : Nat) (inFunction : Bool) :
    (∀ dangling, Builds T (IsStatement T inFunction) (Statement inFunction n dangling)) ∧
      Builds T (IsStatement T inFunction) (Declaration inFunction n) := by
  induction n generalizing inFunction with
  | zero => exact ⟨fun _ _ _ h => h.elim, fun _ _ h => h.elim⟩
  | succ n ih =>
      obtain ⟨ihs, ihd⟩ := ih inFunction
      have he := (expression_unary_builds hT n).1
      refine ⟨fun dangling => ?_, ?_⟩
      · exact StatementOver.builds he ihs (Sequence.builds ihd) dangling
      · exact DeclarationOver.builds he ihs (Sequence.builds (ih true).2)

end Statements

end Grammar

/-! ### Program texts -/

/-- **Program texts give programs.**  The tokens of the statements are cut from the text, and stand on
its lines. -/
theorem Program.ofSource_eq_ok {T : Token → Prop} {source : String} {statements : List Node}
    (hsource : ∀ t, t.CutWithin (source.length + 1) → T t) (hT : ∀ t, T t → t.IsCut)
    (h : Program.ofSource source = .ok statements) : ∀ s ∈ statements, s.IsStatement T false := by
  rw [ofSource] at h
  split at h
  · cases h
  · rename_i tokens htokens
    obtain ⟨ts, line, rfl, hts⟩ := scan_eq_ok htokens
    split at h
    · cases h
    · rename_i found hfound
      cases h
      have hp := (parseWithin_eq_ok_iff (fun t ht => (hts t ht).kind_ne) rfl _ _).mp hfound
      refine Grammar.Sequence.builds (Grammar.statement_declaration_builds hT _ false).2 _ _ hp ?_
      exact fun t ht => hsource t (hts t ht)

end Lox
