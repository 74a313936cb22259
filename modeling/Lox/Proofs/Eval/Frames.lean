import Lox.Proofs.Eval.Simulation

/-!
# More frames change nothing but the bound

A task that ends within the bound on nested steps ends in the same way under every larger bound.

* `Run.Truncates p q`: the step `p` does what `q` does, unless the bound is used up in it.  It goes
  through sequencing and the loops of the machine.
* `truncating`: a task with fewer frames truncates the same task with more, since truncation is a
  simulation of a configuration by itself.
-/

namespace Lox

variable {α β : Type}

/-- The bound on nested steps is used up. -/
def Result.IsExhausted : Result α → Prop
  | .ok _ _ => False
  | .stop why _ => why = .exhausted

instance (r : Result α) : Decidable r.IsExhausted :=
  match r with
  | .ok _ _ => .isFalse id
  | .stop why _ => inferInstanceAs (Decidable (why = .exhausted))

namespace Run

/-- The first step does what the second does, unless the bound on nested steps is used up in it. -/
def Truncates (p q : Run α) : Prop := ∀ m, ¬ (p m).IsExhausted → p m = q m

namespace Truncates

theorem refl (p : Run α) : p.Truncates p := fun _ _ => rfl

/-- Truncating twice is truncating. -/
theorem trans {p q r : Run α} (h₁ : p.Truncates q) (h₂ : q.Truncates r) : p.Truncates r := by
  intro m hm
  have h := h₁ m hm
  rw [h] at hm ⊢
  exact h₂ m hm

/-- Nothing is done before the bound is used up. -/
theorem exhausted (q : Run α) : Truncates exhausted q := fun _ hm => absurd rfl hm

/-- Sequencing: if the first step runs out, so does the sequence. -/
theorem bind {p q : Run α} {f g : α → Run β} (hp : p.Truncates q)
    (hf : ∀ a, (f a).Truncates (g a)) : Truncates (p >>= f) (q >>= g) := by
  intro m
  show ¬ (andThen p f m).IsExhausted → andThen p f m = andThen q g m
  have h := hp m
  rw [andThen, andThen]
  generalize p m = r at h ⊢
  intro hm
  cases r with
  | ok a m₁ =>
      rw [← h id]
      exact hf a m₁ hm
  | stop why m₁ => rw [← h hm]

theorem map {p q : Run α} (f : α → β) (hp : p.Truncates q) : Truncates (f <$> p) (f <$> q) :=
  bind hp fun _ => refl _

theorem inScope {p q : Run α} (i : Nat) (hp : p.Truncates q) :
    Truncates (inScope i p) (inScope i q) := by
  intro m
  have h := hp { m with current := i }
  rw [Run.inScope, Run.inScope]
  generalize p { m with current := i } = r at h ⊢
  intro hm
  cases r with
  | ok a m₁ => rw [← h id]
  | stop why m₁ => rw [← h hm]

theorem leaving {p q : Run α} (hp : p.Truncates q) : Truncates (leaving p) (leaving q) := by
  intro m
  have h := hp m
  rw [Run.leaving, Run.leaving]
  generalize p m = r at h ⊢
  intro hm
  cases r with
  | ok a m₁ => rw [← h id]
  | stop why m₁ => rw [← h hm]

/-- Statements one after the other, up to the first that returns. -/
theorem firstOf {f g : β → Run (Option α)} (hf : ∀ b, (f b).Truncates (g b)) (bs : List β) :
    Truncates (firstOf f bs) (firstOf g bs) := by
  induction bs with
  | nil => exact refl _
  | cons b bs ih =>
      intro m
      have h := hf b m
      rw [Run.firstOf, Run.firstOf]
      generalize f b m = r at h ⊢
      intro hm
      cases r with
      | stop why m₁ => rw [← h hm]
      | ok o m₁ =>
          rw [← h id]
          cases o with
          | none => exact ih m₁ hm
          | some a => rfl

theorem whileTrue {condition condition' : Run Bool} {body body' : Run (Option α)}
    (hc : condition.Truncates condition') (hb : body.Truncates body') (rounds : Nat) :
    Truncates (whileTrue condition body rounds) (whileTrue condition' body' rounds) := by
  induction rounds with
  | zero => exact refl _
  | succ rounds ih =>
      intro m
      have h := hc m
      rw [Run.whileTrue, Run.whileTrue]
      generalize condition m = r at h ⊢
      intro hm
      cases r with
      | stop why m₁ => rw [← h hm]
      | ok b m₁ =>
          rw [← h id]
          cases b with
          | false => rfl
          | true =>
              have h₁ := hb m₁
              dsimp only at hm ⊢
              generalize body m₁ = r at h₁ hm ⊢
              cases r with
              | stop why m₂ => rw [← h₁ hm]
              | ok o m₂ =>
                  rw [← h₁ id]
                  cases o with
                  | none => exact ih m₂ hm
                  | some a => rfl

end Truncates

end Run

/-! ### Tasks -/

/-- Truncation goes through every task. -/
theorem Run.Truncates.simulation (config : Config) :
    Simulation config config fun _ p q => p.Truncates q where
  host := rfl
  plain _ := .refl _
  bind := .bind
  tell _ := .refl _
  inScope := .inScope
  enterCall _ := .refl _
  leaving := .leaving
  checkCall _ _ _ _ := .refl _
  whileTrue hc hb := hc.whileTrue hb config.rounds

/-- **A task with fewer frames truncates the same task with more.** -/
theorem truncating (config : Config) {n n' : Nat} (h : n ≤ n') :
    Simulates config config (fun _ p q => p.Truncates q) n n' := by
  refine (Run.Truncates.simulation config).simulates (.inr ⟨h, fun k => ?_, .exhausted _⟩)
  exact ⟨fun _ => .exhausted _, fun _ => .exhausted _, fun _ _ _ => .exhausted _,
    fun _ _ => .exhausted _, fun _ => .exhausted _⟩

/-- And so does a whole program. -/
theorem runProgram_truncates (config : Config) {n n' : Nat} (h : n ≤ n') (statements : List Node) :
    (runProgram config n statements).Truncates (runProgram config n' statements) :=
  Run.Truncates.bind (.refl _) fun _ => .firstOf (truncating config h).execute statements

end Lox
