import Lox.Proofs.Grammar

/-!
# How deep a program is nested

The phrases grow with the bound on the nesting, and a bound beyond the number of tokens is as good
as none: every level of nesting takes a token.

* `Program.rebound`: a program within a bound is one within every bound that is larger or beyond the
  number of its tokens.
* `nestedWithin_of_length`: tokens fewer than the bound are nested within it.

It is an induction over the nesting.  A part of a phrase is shorter than the phrase by the tokens
around it, so each rule is carried over to other phrases for its parts that hold the same lists up
to a length (`Carries`).
-/

namespace Lox.Grammar

/-! ### The rules over other parts -/

/-- A phrase of `P` is one of `Q`, if with `k` more tokens it has at most `l`. -/
def Carries {α : Type} (k l : Nat) (P Q : Phrase α) : Prop :=
  ∀ ts a, ts.length + k ≤ l → P ts a → Q ts a

/-- A chain of operands is carried over if its operands are. -/
theorem JoinedLeft.mono {kinds : List Kind} {join : Node → Token → Node → Node}
    {P Q : Phrase Node} {k l : Nat} (hPQ : Carries k l P Q) :
    Carries k l (JoinedLeft kinds join P) (JoinedLeft kinds join Q) := by
  intro ts e hl h
  induction h with
  | operand h => exact .operand (hPQ _ _ hl h)
  | operator _ ht hr ih =>
      simp only [List.length_append, List.length_cons] at hl
      exact .operator (ih (by omega)) ht (hPQ _ _ (by omega) hr)

/-- A disjunction is carried over if its operands are. -/
theorem LogicOr.mono {P Q : Phrase Node} {k l : Nat} (hPQ : Carries k l P Q) :
    Carries k l (LogicOr P) (LogicOr Q) := by
  iterate 6 refine JoinedLeft.mono ?_
  exact hPQ

/-- A list with commas is carried over if its entries are. -/
theorem Listed.mono {α : Type} {P Q : Phrase α} {k l : Nat} (hPQ : Carries k l P Q) :
    Carries k l (Listed P) (Listed Q) := by
  intro ts as hl h
  induction h with
  | one h => exact .one (hPQ _ _ hl h)
  | more h hc _ ih =>
      simp only [List.length_append, List.length_cons] at hl
      exact .more (hPQ _ _ (by omega) h) hc (ih (by omega))

/-- So is a list that may be empty. -/
theorem Entries.mono {α : Type} {P Q : Phrase α} {k l : Nat} (hPQ : Carries k l P Q) :
    Carries k l (Entries P) (Entries Q) := by
  intro ts as hl h
  cases h with
  | none => exact .none
  | some h hn => exact .some (Listed.mono hPQ _ _ hl h) hn

/-- So is a sequence of items. -/
theorem Sequence.mono {α : Type} {P Q : Phrase α} {k l : Nat} (hPQ : Carries k l P Q) :
    Carries k l (Sequence P) (Sequence Q) := by
  intro ts as hl h
  induction h with
  | nil => exact .nil
  | cons h _ ih =>
      simp only [List.length_append] at hl
      exact .cons (hPQ _ _ (by omega) h) (ih (by omega))

/-- So is a part that may be absent. -/
theorem Optional.mono {P Q : Phrase Node} {k l : Nat} (hPQ : Carries k l P Q) :
    Carries k l (Optional P) (Optional Q) := by
  intro ts o hl h
  cases h with
  | none => exact .none
  | some h => exact .some (hPQ _ _ hl h)

/-- The expressions in a call stand in parentheses, so they are shorter than the call. -/
theorem Call.mono {P Q : Phrase Node} {k l : Nat} (hPQ : Carries (k + 2) l P Q) :
    Carries k l (Call P) (Call Q) := by
  intro ts e hl h
  induction h with
  | primary h =>
      refine .primary ?_
      cases h with
      | falseWord h => exact .falseWord h
      | trueWord h => exact .trueWord h
      | nilWord h => exact .nilWord h
      | number h => exact .number h
      | string h => exact .string h
      | identifier h => exact .identifier h
      | grouping hl' h hr =>
          simp only [List.length_append, List.length_cons, List.length_nil] at hl
          exact .grouping hl' (hPQ _ _ (by omega) h) hr
  | call _ hl' ha hr ih =>
      simp only [List.length_append, List.length_cons, List.length_nil] at hl
      exact .call (ih (by omega)) hl' (Entries.mono hPQ _ _ (by omega) ha) hr

/-- A declaration is carried over if its initial value is. -/
theorem VariableDeclaration.mono {P Q : Phrase Node} {k l : Nat} (hPQ : Carries k l P Q) :
    Carries k l (VariableDeclaration P) (VariableDeclaration Q) := by
  intro ts d hl h
  cases h with
  | plain hv hn hs => exact .plain hv hn hs
  | initialized hv hn he h hs =>
      simp only [List.length_append, List.length_cons, List.length_nil] at hl
      exact .initialized hv hn he (hPQ _ _ (by omega) h) hs

theorem Initializer.mono {P Q : Phrase Node} {k l : Nat} (hPQ : Carries k l P Q) :
    Carries k l (Initializer P) (Initializer Q) := by
  intro ts f hl h
  cases h with
  | none hs => exact .none hs
  | «variable» h => exact .variable (VariableDeclaration.mono hPQ _ _ hl h)
  | expression h hs =>
      simp only [List.length_append, List.length_cons, List.length_nil] at hl
      exact .expression (hPQ _ _ (by omega) h) hs

theorem Condition.mono {P Q : Phrase Node} {k l : Nat} (hPQ : Carries k l P Q) :
    Carries k l (Condition P) (Condition Q) := by
  intro ts c hl h
  cases h with
  | none => exact .none
  | some h => exact .some (hPQ _ _ hl h)

theorem Increment.mono {P Q : Phrase Node} {k l : Nat} (hPQ : Carries k l P Q) :
    Carries k l (Increment P) (Increment Q) := by
  intro ts f hl h
  cases h with
  | none => exact .none
  | some h => exact .some (hPQ _ _ hl h)

/-- Every statement has a token besides its parts, and a block has two. -/
theorem StatementOver.mono {inFunction dangling : Bool} {P Q : Phrase Node}
    {S T : Bool → Phrase Node} {B C : Phrase (List Node)} {l : Nat} (hPQ : Carries 1 l P Q)
    (hST : ∀ d, Carries 1 l (S d) (T d)) (hBC : Carries 2 l B C) :
    Carries 0 l (StatementOver inFunction P S B dangling)
      (StatementOver inFunction Q T C dangling) := by
  intro ts s hl h
  cases h with
  | expression h hs =>
      simp only [List.length_append, List.length_cons, List.length_nil] at hl
      exact .expression (hPQ _ _ (by omega) h) hs
  | print hk h hs =>
      simp only [List.length_append, List.length_cons, List.length_nil] at hl
      exact .print hk (hPQ _ _ (by omega) h) hs
  | returns hf hk h hs =>
      simp only [List.length_append, List.length_cons, List.length_nil] at hl
      exact .returns hf hk (Optional.mono hPQ _ _ (by omega) h) hs
  | block hl' h hr =>
      simp only [List.length_append, List.length_cons, List.length_nil] at hl
      exact .block hl' (hBC _ _ (by omega) h) hr
  | branch hk hl' hc hr hs =>
      simp only [List.length_append, List.length_cons] at hl
      exact .branch hk hl' (hPQ _ _ (by omega) hc) hr (hST _ _ _ (by omega) hs)
  | branchElse hk hl' hc hr hs ho hs' =>
      simp only [List.length_append, List.length_cons] at hl
      exact .branchElse hk hl' (hPQ _ _ (by omega) hc) hr (hST _ _ _ (by omega) hs) ho
        (hST _ _ _ (by omega) hs')
  | loop hk hl' hc hr hs =>
      simp only [List.length_append, List.length_cons] at hl
      exact .loop hk hl' (hPQ _ _ (by omega) hc) hr (hST _ _ _ (by omega) hs)
  | forLoop hk hl' hi hc hsc hn hr hs =>
      simp only [List.length_append, List.length_cons] at hl
      exact .forLoop hk hl' (Initializer.mono hPQ _ _ (by omega) hi)
        (Condition.mono hPQ _ _ (by omega) hc) hsc (Increment.mono hPQ _ _ (by omega) hn) hr
        (hST _ _ _ (by omega) hs)

/-- Declarations are carried over if their expressions, statements and bodies are. -/
theorem DeclarationOver.mono {P Q : Phrase Node} {S T : Bool → Phrase Node}
    {B C : Phrase (List Node)} {l : Nat} (hPQ : Carries 0 l P Q)
    (hST : ∀ d, Carries 0 l (S d) (T d)) (hBC : Carries 2 l B C) :
    Carries 0 l (DeclarationOver P S B) (DeclarationOver Q T C) := by
  intro ts d hl h
  cases h with
  | function hk hn hl' hp hr ho hb hc =>
      simp only [List.length_append, List.length_cons, List.length_nil] at hl
      exact .function hk hn hl' hp hr ho (hBC _ _ (by omega) hb) hc
  | «variable» h => exact .variable (VariableDeclaration.mono hPQ _ _ hl h)
  | statement h => exact .statement (hST _ _ _ hl h)

/-! ### Every level takes a token -/

/-- An operand has a token. -/
theorem Unary.ne_nil {n : Nat} {ts : List Token} {e : Node} (h : Unary n ts e) : ts ≠ [] := by
  cases n with
  | zero => exact h.elim
  | succ n =>
      rw [Unary] at h
      cases h with
      | operator => simp
      | call h =>
          cases h with
          | primary h => cases h <;> simp
          | call => simp

/-- An expression within any bound is one within every bound that is larger or beyond the number of
its tokens. -/
theorem expression_unary_rebound (n : Nat) : ∀ m ts e,
    (n ≤ m ∨ ts.length < m → Expression n ts e → Expression m ts e) ∧
      (n ≤ m ∨ ts.length ≤ m → Unary n ts e → Unary m ts e) := by
  induction n with
  | zero => exact fun m ts e => ⟨fun _ h => h.elim, fun _ h => h.elim⟩
  | succ n ih =>
      intro m ts e
      refine ⟨fun hm h => ?_, fun hm h => ?_⟩
      · match m, hm with
        | 0, hm => omega
        | m + 1, hm =>
            -- each level of nesting takes a token, so the length bounds the levels as well
            have hU : Carries 0 ts.length (Unary n) (Unary m) := fun us e hu =>
              (ih m us e).2 (by omega)
            rw [Expression] at h ⊢
            cases h with
            | plain h => exact .plain (LogicOr.mono hU _ _ (Nat.le_refl _) h)
            | @assign _ _ us v hn he h =>
                simp only [List.length_cons] at hm
                exact .assign hn he ((ih m us v).1 (by omega) h)
      · have hne := Unary.ne_nil h
        match m, hm with
        | 0, hm =>
            have : ts = [] := List.length_eq_zero_iff.mp (by omega)
            exact absurd this hne
        | m + 1, hm =>
            rw [Unary] at h ⊢
            cases h with
            | @operator _ us e ht h =>
                simp only [List.length_cons] at hm
                exact .operator ht ((ih m us e).2 (by omega) h)
            | call h =>
                have hE : Carries 2 ts.length (Expression n) (Expression m) := fun us e hu =>
                  (ih m us e).1 (by omega)
                exact .call (Call.mono hE _ _ (Nat.le_refl _) h)

/-- The same of statements and declarations. -/
theorem statement_declaration_rebound (n : Nat) : ∀ inFunction m ts s,
    (∀ dangling, n ≤ m ∨ ts.length < m → Statement inFunction n dangling ts s →
      Statement inFunction m dangling ts s) ∧
      (n ≤ m ∨ ts.length + 1 < m → Declaration inFunction n ts s →
        Declaration inFunction m ts s) := by
  induction n with
  | zero => exact fun _ m ts s => ⟨fun _ _ h => h.elim, fun _ h => h.elim⟩
  | succ n ih =>
      intro inFunction m ts s
      refine ⟨fun dangling hm h => ?_, fun hm h => ?_⟩
      · match m, hm with
        | 0, hm => omega
        | m + 1, hm =>
            rw [Statement] at h ⊢
            have hE : Carries 1 ts.length (Expression n) (Expression m) := fun us e hu =>
              (expression_unary_rebound n m us e).1 (by omega)
            have hS : ∀ d, Carries 1 ts.length (Statement inFunction n d)
                (Statement inFunction m d) := fun d us s hu =>
              (ih inFunction m us s).1 d (by omega)
            have hD : Carries 2 ts.length (Declaration inFunction n) (Declaration inFunction m) :=
              fun us d hu => (ih inFunction m us d).2 (by omega)
            exact StatementOver.mono hE hS (Sequence.mono hD) _ _ (Nat.le_refl _) h
      · match m, hm with
        | 0, hm => omega
        | m + 1, hm =>
            rw [Declaration] at h ⊢
            have hE : Carries 0 ts.length (Expression n) (Expression m) := fun us e hu =>
              (expression_unary_rebound n m us e).1 (by omega)
            have hS : ∀ d, Carries 0 ts.length (Statement inFunction n d)
                (Statement inFunction m d) := fun d us s hu =>
              (ih inFunction m us s).1 d (by omega)
            have hD : Carries 2 ts.length (Declaration true n) (Declaration true m) :=
              fun us d hu => (ih true m us d).2 (by omega)
            exact DeclarationOver.mono hE hS (Sequence.mono hD) _ _ (Nat.le_refl _) h

/-! ### Programs -/

/-- A program that is short enough for a bound is one under it, whatever bound it was read at. -/
theorem Program.rebound {n m : Nat} {ts : List Token} {statements : List Node}
    (hm : n ≤ m ∨ ts.length + 1 < m) (h : Program n ts statements) : Program m ts statements := by
  have hD : Carries 0 ts.length (Declaration false n) (Declaration false m) := fun us d hu =>
    (statement_declaration_rebound n false m us d).2 (by omega)
  exact Sequence.mono hD _ _ (Nat.le_refl _) h

/-- Tokens fewer than the bound are nested within it. -/
theorem nestedWithin_of_length {n : Nat} {ts : List Token} (h : ts.length + 1 < n) :
    NestedWithin n ts := by
  rintro statements ⟨m, hp⟩
  exact hp.rebound (.inr h)

end Lox.Grammar
