import Lox.Proofs.Parser.ForClauses

/-!
# Where declarations stand

Declarations are read in programs, blocks and function bodies only.  A branch of an `if` and the body of
a loop are statements, and so is what a `for` statement stands for.

* `Node.Exposed d`: of all statements inside `d`, only the declarations bind a name in the scope they are
  executed in.
* `Parser.program_yields`, `parseWithin_exposed`: all that is read is of this kind.
-/

namespace Lox

namespace Node

/-- A declaration of a variable or of a function. -/
def isDeclaration : Node → Bool
  | .declare .. => true
  | .function .. => true
  | _ => false

/-- The second statement is the first one, or stands inside it. -/
inductive Contains : Node → Node → Prop where
  | self (s : Node) : Contains s s
  | block {statements : List Node} {t s : Node} (ht : t ∈ statements) (h : Contains t s) :
      Contains (.block statements) s
  | thenBranch {c t t' s : Node} (h : Contains t s) : Contains (.branch c t t') s
  | elseBranch {c t t' s : Node} (h : Contains t' s) : Contains (.branch c t t') s
  | body {c t s : Node} (h : Contains t s) : Contains (.loop c t) s
  | function {name : Token} {params : List Token} {body : List Node} {t s : Node} (ht : t ∈ body)
      (h : Contains t s) : Contains (.function name params body) s

/-- Of all statements inside, only the declarations bind a name in the scope they are executed in. -/
def Exposed (d : Node) : Prop := ∀ s, d.Contains s → s.declares = s.isDeclaration

namespace Exposed

variable {c s s' : Node} {statements : List Node}

theorem null : Exposed .null := by
  rintro s ⟨⟩
  rfl

theorem expression (e : Node) : Exposed (.expression e) := by
  rintro s ⟨⟩
  rfl

theorem print (e : Node) : Exposed (.print e) := by
  rintro s ⟨⟩
  rfl

theorem returns (keyword : Token) (e : Node) : Exposed (.returns keyword e) := by
  rintro s ⟨⟩
  rfl

theorem declare (name : Token) (e : Node) : Exposed (.declare name e) := by
  rintro s ⟨⟩
  rfl

/-- A block binds no name in the scope it is executed in, whatever is declared inside. -/
theorem block (h : ∀ t ∈ statements, Exposed t) : Exposed (.block statements) := by
  intro s hs
  cases hs with
  | self => rfl
  | block ht hs => exact h _ ht s hs

/-- A function declares its own name; its body is executed in a scope of its own. -/
theorem function (name : Token) (params : List Token) (h : ∀ t ∈ statements, Exposed t) :
    Exposed (.function name params statements) := by
  intro s hs
  cases hs with
  | self => rfl
  | function ht hs => exact h _ ht s hs

/-- Branches have to be statements, since they are executed in the scope of the conditional. -/
theorem branch (h : Exposed s) (hs : s.declares = false) (h' : Exposed s') (hs' : s'.declares = false) :
    Exposed (.branch c s s') := by
  intro t ht
  cases ht with
  | self =>
      rw [declares, hs, hs']
      rfl
  | thenBranch ht => exact h t ht
  | elseBranch ht => exact h' t ht

/-- So has the body of a loop. -/
theorem loop (h : Exposed s) (hs : s.declares = false) : Exposed (.loop c s) := by
  intro t ht
  cases ht with
  | self => exact hs
  | body ht => exact h t ht

/-- The clause in front of a loop is a declaration or binds no name. -/
theorem initializer (h : s.IsInitializer) : Exposed s := by
  cases h with
  | declare name value => exact .declare name value
  | expression e => exact .expression e

end Exposed

end Node

/-- The initializer of a `for` statement, which may declare a variable, stands in a block. -/
theorem ForClauses.Proper.exposed_loop {f : ForClauses} (hf : f.Proper) (hb : f.body.Exposed) :
    f.loop.Exposed := by
  obtain ⟨initializer, condition, increment, body⟩ := f
  have hbody : body.declares = false := hf.body
  have hloop : (Parser.forLoop none condition increment body).Exposed := by
    cases increment with
    | none => exact .loop hb hbody
    | some e =>
        refine .loop (.block (List.forall_mem_cons.mpr ⟨hb, ?_⟩)) rfl
        exact List.forall_mem_singleton.mpr (.expression e)
  cases initializer with
  | none => exact hloop
  | some first =>
      have hfirst : first.Exposed := .initializer (hf.initializer first rfl)
      exact .block (List.forall_mem_cons.mpr ⟨hfirst, List.forall_mem_singleton.mpr hloop⟩)

namespace Parser

open Node (Exposed)

variable {α : Type} {P Q : α → Prop}

/-! ### Items -/

theorem Yields.and {p : Parser α} (hp : Yields p P) (hq : Yields p Q) :
    Yields p fun a => P a ∧ Q a :=
  fun s a s' h => ⟨hp s a s' h, hq s a s' h⟩

/-- Only what was read whole is given. -/
theorem recover_yields {p : Parser α} (hp : Yields p P) :
    Yields (recover p) fun o => ∀ a ∈ o, P a := by
  have hnone : ∀ q : Parser Unit,
      Yields (q >>= fun _ => pure (none : Option α)) fun o => ∀ a ∈ o, P a :=
    fun q => Yields.next fun _ => Yields.pure nofun
  intro s o s' h
  rw [recover] at h
  split at h
  · rename_i a s' hr
    cases h
    rintro b ⟨⟩
    exact hp s a s' hr
  · exact hnone _ _ o s' h
  · refine Yields.next (Q := fun o => ∀ a ∈ o, P a) ?_ _ o s' h
    exact fun t => Yields.next fun _ => hnone _
  · cases h

/-- What all items have, all that is gathered has. -/
theorem itemsFrom_yields {item : Parser (Option α)} (hi : Yields item fun o => ∀ a ∈ o, P a)
    (isLast : Token → Bool) {bound : List Token} {found : List α} (hf : ∀ a ∈ found, P a) :
    Yields (itemsFrom isLast item bound found) fun as => ∀ a ∈ as, P a := by
  induction bound generalizing found with
  | nil => exact fun _ _ _ h => by cases h
  | cons _ bound ih =>
      intro s as s' h
      rw [itemsFrom] at h
      split at h
      · cases h
      · split at h
        · cases h
          exact fun a ha => hf a (List.mem_reverse.mp ha)
        · split at h
          · cases h
          · exact ih hf _ as s' h
          · rename_i a s₁ ha
            exact ih (List.forall_mem_cons.mpr ⟨hi _ _ _ ha a rfl, hf⟩) _ as s' h

theorem itemsUntil_yields {item : Parser (Option α)} (hi : Yields item fun o => ∀ a ∈ o, P a)
    (isLast : Token → Bool) : Yields (itemsUntil isLast item) fun as => ∀ a ∈ as, P a :=
  fun s => itemsFrom_yields hi isLast (fun _ ha => absurd ha List.not_mem_nil) s

/-! ### Statements -/

/-- What all items of a block have, its body has. -/
theorem blockOf_yields {item : Parser (Option Node)} {P : Node → Prop}
    (hi : Yields item fun o => ∀ a ∈ o, P a) : Yields (blockOf item) fun body => ∀ s ∈ body, P s :=
  (itemsUntil_yields hi _).bind fun _ hs => Yields.next fun _ => Yields.pure hs

/-- Functions, if the items of their bodies are exposed. -/
theorem functionDeclaration_exposed {item : Parser (Option Node)}
    (hi : Yields item fun o => ∀ d ∈ o, Exposed d) : Yields (functionDeclaration item) Exposed := by
  refine Yields.next fun name => Yields.next fun _ => Yields.next fun params => ?_
  refine Yields.next fun _ => Yields.next fun _ => ?_
  exact (blockOf_yields hi).bind fun body hb => Yields.pure (.function name params hb)

/-- Conditionals, whose branches are read as statements. -/
theorem ifStatement_exposed (expression : Parser Node) {statement : Parser Node}
    (hs : Yields statement fun s => s.Exposed ∧ s.declares = false) :
    Yields (ifStatement expression statement) Exposed := by
  refine Yields.next fun _ => Yields.next fun condition => Yields.next fun _ => ?_
  refine hs.bind fun thenBranch ht => Yields.next fun elseWord => ?_
  cases elseWord with
  | some _ =>
      exact hs.bind fun elseBranch he => Yields.pure (.branch ht.1 ht.2 he.1 he.2)
  | none => exact Yields.pure (.branch ht.1 ht.2 .null rfl)

/-- A `for` statement stands for a block with a loop, and its body is read as a statement. -/
theorem forStatement_exposed (expression : Parser Node) {statement : Parser Node}
    (hs : Yields statement fun s => s.Exposed ∧ s.declares = false) :
    Yields (forStatement expression statement) Exposed := by
  have hbody : Yields (forClauses expression statement) fun f => f.body.Exposed := by
    refine Yields.next fun _ => Yields.next fun initializer => ?_
    refine Yields.next fun condition => Yields.next fun _ => Yields.next fun increment => ?_
    exact Yields.next fun _ => hs.bind fun body hb => Yields.pure hb.1
  have hproper := forClauses_yields expression fun s a s' h => (hs s a s' h).2
  rw [forStatement_eq]
  exact (hproper.and hbody).map fun f hf => hf.1.exposed_loop hf.2

theorem returnStatement_exposed (inFunction : Bool) (keyword : Token) (expression : Parser Node) :
    Yields (returnStatement inFunction keyword expression) Exposed := by
  have hrest : Yields (do
      let value ← expressionUnless .semicolon expression
      let _ ← expect .semicolon .expectSemicolonAfterReturnValue
      pure (Node.returns keyword (value.getD .null))) Exposed :=
    Yields.next fun value => Yields.next fun _ => Yields.pure (.returns keyword _)
  cases inFunction with
  | true => exact hrest
  | false => exact Yields.next fun _ => hrest

theorem statement_exposed {depth : Nat} {inFunction : Bool}
    (hs : Yields (statement inFunction depth) Exposed)
    (hd : Yields (declaration inFunction depth) fun o => ∀ d ∈ o, Exposed d) :
    Yields (statement inFunction (depth + 1)) Exposed := by
  have hs := hs.and (statement_yields inFunction depth)
  rw [statement]
  refine Yields.next fun start => ?_
  cases start with
  | none => exact Yields.next fun e => Yields.next fun _ => Yields.pure (.expression e)
  | some start =>
      dsimp only
      split
      · exact forStatement_exposed _ hs
      · exact ifStatement_exposed _ hs
      · exact Yields.next fun e => Yields.next fun _ => Yields.pure (.print e)
      · exact returnStatement_exposed inFunction start _
      · refine Yields.next fun _ => Yields.next fun condition => Yields.next fun _ => ?_
        exact hs.bind fun body hb => Yields.pure (.loop hb.1 hb.2)
      · exact (blockOf_yields hd).map fun statements hss => .block hss

/-- Declarations one nesting level up. -/
theorem declaration_exposed {depth : Nat} {inFunction : Bool}
    (hs : Yields (statement inFunction depth) Exposed)
    (hd : Yields (declaration true depth) fun o => ∀ d ∈ o, Exposed d) :
    Yields (declaration inFunction (depth + 1)) fun o => ∀ d ∈ o, Exposed d := by
  rw [declaration]
  refine recover_yields (Yields.next fun start => ?_)
  cases start with
  | none => exact hs
  | some start =>
      dsimp only
      split
      · exact functionDeclaration_exposed hd
      · intro s a s' h
        exact .initializer (variableDeclaration_yields _ s a s' h)

/-- All statements and declarations, by induction on the nesting budget. -/
theorem statements_exposed (depth : Nat) (inFunction : Bool) :
    Yields (statement inFunction depth) Exposed ∧
      Yields (declaration inFunction depth) fun o => ∀ d ∈ o, Exposed d := by
  induction depth generalizing inFunction with
  | zero => exact ⟨Yields.fail _, recover_yields (Yields.fail _)⟩
  | succ depth ih =>
      obtain ⟨hs, hd⟩ := ih inFunction
      exact ⟨statement_exposed hs hd, declaration_exposed hs (ih true).2⟩

/-- Of all statements inside what is read as a program, only the declarations bind a name in the scope
they are executed in. -/
theorem program_yields (depth : Nat) : Yields (program depth) fun ss => ∀ d ∈ ss, Exposed d :=
  itemsUntil_yields (statements_exposed depth false).2 _

end Parser

/-- All statements of a program that is read. -/
theorem parseWithin_exposed {depth : Nat} {tokens : List Token} {statements : List Node}
    (h : (parseWithin depth tokens).result = .ok statements) : ∀ d ∈ statements, d.Exposed := by
  rw [parseWithin] at h
  split at h
  · rename_i found s hp
    split at h
    · cases h
      exact Parser.program_yields depth _ _ _ hp
    · cases h
  all_goals cases h

end Lox
