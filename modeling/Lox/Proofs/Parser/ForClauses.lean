import Lox.Proofs.Eval.Alike
import Lox.Proofs.Parser.Reads

/-!
# The clauses of a `for` statement

A `for` statement is read clause by clause, and what it stands for is put together at the end
(`forStatement_eq`).  Of its clauses two things are known (`forClauses_yields`): the one in front of
the loop declares a variable or is an expression, and the body, like every statement, binds no name
in the scope it is executed in (`statement_yields`).
-/

namespace Lox

/-- What a `for` statement is made of. -/
structure ForClauses where
  initializer : Option Node
  condition : Option Node
  increment : Option Node
  body : Node

/-- The loop that the clauses stand for. -/
def ForClauses.loop (f : ForClauses) : Node :=
  Parser.forLoop f.initializer f.condition f.increment f.body

/-- A clause in front of a loop. -/
inductive Node.IsInitializer : Node → Prop where
  | declare (name : Token) (value : Node) : IsInitializer (.declare name value)
  | expression (e : Node) : IsInitializer (.expression e)

/-- Clauses as they are read. -/
structure ForClauses.Proper (f : ForClauses) : Prop where
  initializer : ∀ s, f.initializer = some s → s.IsInitializer
  /-- The body binds no name in the scope it is executed in. -/
  body : f.body.declares = false

/-- Neither does the loop, whose initializer has a block of its own. -/
theorem ForClauses.Proper.declares_loop {f : ForClauses} (hf : f.Proper) :
    f.loop.declares = false := by
  obtain ⟨initializer, condition, increment, body⟩ := f
  have hb : body.declares = false := hf.body
  cases initializer with
  | some s => rfl
  | none =>
      cases increment with
      | some e => rfl
      | none => exact hb

namespace Parser

variable {α β : Type} {P : α → Prop} {Q : β → Prop}

/-- The clauses of a `for` statement, behind its keyword. -/
def forClauses (expression statement : Parser Node) : Parser ForClauses := do
  let _ ← expect .leftParen .expectParenAfterFor
  let initializer ← loopInitializer expression
  let condition ← expressionUnless .semicolon expression
  let _ ← expect .semicolon .expectSemicolonAfterLoopCondition
  let increment ← expressionUnless .rightParen expression
  let _ ← expect .rightParen .expectParenAfterForClauses
  let body ← statement
  pure ⟨initializer, condition, increment, body⟩

theorem map_bind (g : α → β) {γ : Type} (p : Parser γ) (f : γ → Parser α) :
    g <$> (p >>= f) = p >>= fun c => g <$> f c := by
  funext s
  show andThen (andThen p f) (fun a => pure (g a)) s = andThen p (fun c => g <$> f c) s
  rw [andThen, andThen, andThen]
  cases p s with
  | done c s' => rfl
  | stop why s' => rfl

/-- A `for` statement is the loop that its clauses stand for. -/
theorem forStatement_eq (expression statement : Parser Node) :
    forStatement expression statement = ForClauses.loop <$> forClauses expression statement := by
  simp only [forClauses, map_bind]
  rfl

/-! ### What parsers give -/

/-- Whatever the parser gives is in `P`. -/
def Yields (p : Parser α) (P : α → Prop) : Prop := ∀ s a s', p s = .done a s' → P a

namespace Yields

/-- Of everything that is given, nothing is known. -/
theorem any (p : Parser α) : Yields p fun _ => True := fun _ _ _ _ => trivial

theorem fail (why : Stop) : Yields (fail why) P := fun _ _ _ h => by cases h

theorem pure {a : α} (ha : P a) : Yields (pure a) P := by
  intro s b s' h
  cases (show Outcome.done a s = .done b s' from h)
  exact ha

/-- What is known of the first value is used for the second. -/
theorem bind {p : Parser α} {f : α → Parser β} (hp : Yields p P) (hf : ∀ a, P a → Yields (f a) Q) :
    Yields (p >>= f) Q := by
  intro s b s'' h
  obtain ⟨a, s', h₁, h₂⟩ := bind_eq_done h
  exact hf a (hp s a s' h₁) s' b s'' h₂

/-- A step whose value does not matter, and what follows it. -/
theorem next {p : Parser α} {f : α → Parser β} (hf : ∀ a, Yields (f a) Q) : Yields (p >>= f) Q :=
  bind (any p) fun a _ => hf a

theorem map {p : Parser α} {f : α → β} (hp : Yields p P) (hf : ∀ a, P a → Q (f a)) :
    Yields (f <$> p) Q :=
  bind hp fun a ha => pure (hf a ha)

end Yields

/-- A declaration of a variable may stand in front of a loop. -/
theorem variableDeclaration_yields (expression : Parser Node) :
    Yields (variableDeclaration expression) Node.IsInitializer := by
  refine Yields.next fun name => Yields.next fun equal => ?_
  cases equal with
  | some _ =>
      exact Yields.next fun value => Yields.next fun _ => Yields.pure (.declare name value)
  | none => exact Yields.next fun value => Yields.next fun _ => Yields.pure (.declare name value)

theorem expressionStatement_yields (expression : Parser Node) :
    Yields (expressionStatement expression) fun s => ∃ e, s = .expression e :=
  Yields.next fun e => Yields.next fun _ => Yields.pure ⟨e, rfl⟩

theorem loopInitializer_yields (expression : Parser Node) :
    Yields (loopInitializer expression) fun o => ∀ s, o = some s → s.IsInitializer := by
  refine Yields.next fun semicolon => ?_
  cases semicolon with
  | some _ => exact Yields.pure nofun
  | none =>
      refine Yields.next fun var => ?_
      cases var with
      | some _ =>
          refine (variableDeclaration_yields expression).map ?_
          intro s hs s' heq
          rwa [← Option.some.inj heq]
      | none =>
          refine (expressionStatement_yields expression).map ?_
          rintro _ ⟨e, rfl⟩ s' heq
          rw [← Option.some.inj heq]
          exact .expression e

/-- The clauses are proper, as the body is a statement. -/
theorem forClauses_yields (expression : Parser Node) {statement : Parser Node}
    (hs : Yields statement fun s => s.declares = false) :
    Yields (forClauses expression statement) ForClauses.Proper := by
  refine Yields.next fun _ => (loopInitializer_yields expression).bind fun initializer hi => ?_
  refine Yields.next fun condition => Yields.next fun _ => Yields.next fun increment => ?_
  exact Yields.next fun _ => hs.bind fun body hb => Yields.pure ⟨hi, hb⟩

/-- A conditional binds no name, since its branches do not. -/
theorem ifStatement_yields (expression : Parser Node) {statement : Parser Node}
    (hs : Yields statement fun s => s.declares = false) :
    Yields (ifStatement expression statement) fun s => s.declares = false := by
  refine Yields.next fun _ => Yields.next fun condition => Yields.next fun _ => ?_
  refine hs.bind fun thenBranch ht => Yields.next fun elseWord => ?_
  have hbranch : ∀ elseBranch : Node, elseBranch.declares = false →
      (Node.branch condition thenBranch elseBranch).declares = false := by
    intro elseBranch he
    rw [Node.declares, ht, he]
    rfl
  cases elseWord with
  | some _ => exact hs.bind fun elseBranch he => Yields.pure (hbranch elseBranch he)
  | none => exact Yields.pure (hbranch .null rfl)

theorem returnStatement_yields (inFunction : Bool) (keyword : Token) (expression : Parser Node) :
    Yields (returnStatement inFunction keyword expression) fun s => s.declares = false := by
  have hrest : Yields (do
      let value ← expressionUnless .semicolon expression
      let _ ← expect .semicolon .expectSemicolonAfterReturnValue
      pure (Node.returns keyword (value.getD .null))) fun s => s.declares = false :=
    Yields.next fun value => Yields.next fun _ => Yields.pure rfl
  cases inFunction with
  | true => exact hrest
  | false => exact Yields.next fun _ => hrest

/-- A statement binds no name in the scope it is executed in: declarations are read elsewhere. -/
theorem statement_yields (inFunction : Bool) (depth : Nat) :
    Yields (statement inFunction depth) fun s => s.declares = false := by
  induction depth with
  | zero => exact Yields.fail _
  | succ depth ih =>
      rw [statement]
      refine Yields.next fun start => ?_
      cases start with
      | none =>
          intro s a s' h
          obtain ⟨e, rfl⟩ := expressionStatement_yields _ s a s' h
          rfl
      | some start =>
          dsimp only
          split
          · rw [forStatement_eq]
            exact (forClauses_yields _ ih).map fun f hf => hf.declares_loop
          · exact ifStatement_yields _ ih
          · exact Yields.next fun e => Yields.next fun _ => Yields.pure rfl
          · exact returnStatement_yields inFunction start _
          · refine Yields.next fun _ => Yields.next fun condition => Yields.next fun _ => ?_
            exact ih.bind fun body hb => Yields.pure hb
          · exact (Yields.any _).map fun statements _ => rfl

end Parser

end Lox
