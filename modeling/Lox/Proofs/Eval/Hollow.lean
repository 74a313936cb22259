import Lox.Proofs.Eval.Alike
import Lox.Proofs.Scope.Hollow

/-!
# Runs that differ by scopes that bind nothing

A step may be run in a scope of its own on one machine and without one on the other, if it binds no
name in that scope: the scope stays hollow, and the machines stay alike.

* `Run.StaysAlike k solid p p'`: from machines that are alike, the steps end in the same way, on
  machines that are alike in a correspondence that extends the one at the start.
* `Run.StaysAlike.inBlock`: both steps are run in a new scope, and these are counterparts.
* `Run.StaysAlike.inBlockIf`: either step is run in a new scope or where it stands.
* `Run.StaysAlike.whileTrue`: a loop goes through this, by induction on its rounds; each round may
  extend the correspondence.
-/

namespace Lox

variable {α α' β : Type}

/-! ### Blocks -/

/-- Runs a step in a new scope inside the current one. -/
def Run.inBlock (p : Run α) : Run α := do
  let id ← newScope (← currentScope) []
  inScope id p

/-- Runs a step in a new scope or where it stands. -/
def Run.inBlockIf (own : Bool) (p : Run α) : Run α := if own then inBlock p else p

/-- The machine in a new scope, or as it stands. -/
def Machine.enter (own : Bool) (m : Machine) : Machine :=
  { m with heap := if own then m.heap.push (some m.current) else m.heap
           current := if own then m.heap.size else m.current }

/-- The end of a step, with another scope as the current one. -/
def Result.backTo (i : Nat) : Result α → Result α
  | .ok a m => .ok a { m with current := i }
  | .stop why m => .stop why { m with current := i }

/-- A step that has restored its scope is back there. -/
theorem Result.backTo_eq {r : Result α} {i : Nat} (h : r.machine.current = i) : r.backTo i = r := by
  subst h
  cases r with
  | ok a m => rfl
  | stop why m => rfl

/-- To run a step in a scope is to enter it and to go back. -/
theorem Run.inScope_eq (i : Nat) (p : Run α) (m : Machine) :
    inScope i p m = (p { m with current := i }).backTo m.current := by
  rw [inScope]
  cases p { m with current := i } with
  | ok a m₁ => rfl
  | stop why m₁ => rfl

theorem Run.inBlock_eq (p : Run α) (m : Machine) :
    inBlock p m = (p (m.enter true)).backTo m.current :=
  inScope_eq m.heap.size p { m with heap := m.heap.push (some m.current) }

/-- A step that restores its scope is run in a new one, or in none, in the same manner. -/
theorem Run.inBlockIf_eq {p : Run α} (hp : p.Restores) (own : Bool) (m : Machine) :
    inBlockIf own p m = (p (m.enter own)).backTo m.current := by
  cases own with
  | true => exact inBlock_eq p m
  | false => exact (Result.backTo_eq (hp m).current).symm

theorem Run.Restores.inBlock {p : Run α} (hp : p.Restores) : (Run.inBlock p).Restores :=
  Restores.currentScope.bind fun outer => (Restores.newScope outer []).bind fun i =>
    Restores.inScope i hp

theorem Run.Restores.inBlockIf {p : Run α} (hp : p.Restores) (own : Bool) :
    (Run.inBlockIf own p).Restores := by
  cases own with
  | true => exact hp.inBlock
  | false => exact hp

/-! ### Machines -/

section Enter

variable {c c' : Correspondence} {solid inner : Prop} {k k' : Nat} {m m' : Machine}

/-- To enter a new scope opens it; to stay opens none. -/
theorem Machine.opens_enter (own : Bool) (m : Machine) :
    m.heap.Opens m.current (m.enter own).heap := by
  cases own with
  | true => exact .push _ _
  | false => exact .refl _ _

theorem Machine.enter_lt (own : Bool) (hm : m.current < m.heap.size) :
    (m.enter own).current < (m.enter own).heap.size := by
  cases own with
  | true =>
      show m.heap.size < (m.heap.push (some m.current)).size
      rw [Heap.size_push]
      exact Nat.lt_succ_self _
  | false => exact hm

/-- A new scope stands for what the current one stands for. -/
theorem Machine.standing_enter (own : Bool) (stands : Nat → Nat) (hm : m.current < m.heap.size) :
    standing stands m.heap.size (m.enter own).heap.size (stands m.current) (m.enter own).current =
      stands m.current := by
  cases own with
  | true => exact standing_opened (Nat.le_refl _) (Machine.enter_lt true hm)
  | false => exact standing_old hm

namespace Machine.Alike

/-- Both machines go into new scopes, which are counterparts. -/
theorem enter (hm : m.Alike c solid m') : Machine.Alike c True (m.enter true) (m'.enter true) := by
  have hnew : c.Pairs m.heap.size m'.heap.size := hm.heap.fresh 0
  exact { hm with
    heap := hm.heap.push hm.current hm.lt hm.lt'
    current := .of_pairs hnew
    pairs := fun _ => hnew
    lt := Machine.enter_lt true hm.lt
    lt' := Machine.enter_lt true hm.lt' }

/-- Either machine goes into a new scope or stays where it is; no name may be bound in it. -/
theorem enterHollow (hm : m.Alike c solid m') {n : Nat} (hc : c.Complete n) (own own' : Bool) :
    ∃ c' : Correspondence, c'.Complete n ∧ c'.Extends c m.heap.size m'.heap.size ∧
      Machine.Alike c' False (m.enter own) (m'.enter own') := by
  have ho := m.opens_enter own
  have ho' := m'.opens_enter own'
  have hlt := Nat.lt_of_le_of_lt (hm.heap.first.stands_le hm.lt) hm.lt
  have hlt' := Nat.lt_of_le_of_lt (hm.heap.second.stands_le hm.lt') hm.lt'
  refine ⟨_, hm.heap.complete_adjoin hc ho.size_le ho'.size_le hlt hlt',
    hm.heap.extends_adjoin ho.size_le ho'.size_le _ _,
    { hm with heap := hm.heap.opens ho ho' hm.lt hm.lt', current := ?_, pairs := nofun,
              lt := Machine.enter_lt own hm.lt, lt' := Machine.enter_lt own' hm.lt' }⟩
  refine .inl ?_
  show standing _ _ _ _ _ < _ ∧ standing _ _ _ _ _ < _ ∧
    c.Pairs (standing c.left _ _ _ (m.enter own).current)
      (standing c.right _ _ _ (m'.enter own').current)
  rw [Machine.standing_enter own c.left hm.lt, Machine.standing_enter own' c.right hm.lt']
  exact ⟨hlt, hlt', hm.current⟩

end Machine.Alike

/-- Both machines go back to the scopes that were current, which still correspond. -/
theorem Result.Alike.backTo {V : Nat → Nat → α → α' → Prop} {r : Result α} {r' : Result α'}
    (h : r.Alike c' inner k k' V r') (hm : m.Alike c solid m')
    (he : c'.Extends c m.heap.size m'.heap.size) (hk : m.heap.size ≤ k) (hk' : m'.heap.size ≤ k') :
    (r.backTo m.current).Alike c' solid m.heap.size m'.heap.size V (r'.backTo m'.current) := by
  have hback : ∀ {m₁ m₁' : Machine}, m₁.Alike c' inner m₁' → m.heap.size ≤ m₁.heap.size →
      m'.heap.size ≤ m₁'.heap.size → Machine.Alike c' solid { m₁ with current := m.current }
        { m₁' with current := m'.current } := fun hm₁ hl hl' =>
    { hm₁ with
      current := he.related hm.lt hm.lt' hm.current
      pairs := fun hs => he.pairs hm.lt hm.lt' (hm.pairs hs)
      lt := Nat.lt_of_lt_of_le hm.lt hl
      lt' := Nat.lt_of_lt_of_le hm.lt' hl' }
  cases h with
  | ok ha hm₁ hl hl' =>
      have hn := Nat.le_trans hk hl
      have hn' := Nat.le_trans hk' hl'
      exact .ok ha (hback hm₁ hn hn') hn hn'
  | stop hm₁ hl hl' =>
      have hn := Nat.le_trans hk hl
      have hn' := Nat.le_trans hk' hl'
      exact .stop (hback hm₁ hn hn') hn hn'

end Enter

/-! ### Runs -/

/-- Two statements end in the same way, in a correspondence that extends one among the first so many
scopes. -/
def Result.StaysAlike (n : Nat) (c : Correspondence) (solid : Prop) (k k' : Nat)
    (r r' : Result (Option Value)) : Prop :=
  ∃ c' : Correspondence, c'.Complete n ∧ c'.Extends c k k' ∧
    r.Alike c' solid k k' (ReturnsAlike c') r'

/-- Seen from further back. -/
theorem Result.StaysAlike.widen {n : Nat} {c c' : Correspondence} {solid : Prop} {k k' l l' : Nat}
    {r r' : Result (Option Value)} (h : r.StaysAlike n c' solid l l' r') (he : c'.Extends c k k')
    (hk : k ≤ l) (hk' : k' ≤ l') : r.StaysAlike n c solid k k' r' := by
  obtain ⟨c'', hc, he', hr⟩ := h
  exact ⟨c'', hc, he.trans he' hk hk', hr.widen hk hk'⟩

namespace Run

/-- From machines that are alike, two statements end in the same way, on machines that are alike.  The
first so many scopes correspond to themselves. -/
def StaysAlike (n : Nat) (solid : Prop) (p p' : Run (Option Value)) : Prop :=
  ∀ c m m', Correspondence.Complete c n → m.Alike c solid m' →
    (p m).StaysAlike n c solid m.heap.size m'.heap.size (p' m')

namespace StaysAlike

variable {n : Nat} {solid : Prop} {p p' : Run (Option Value)}

/-- Steps that are in step in every correspondence need not extend it. -/
theorem of_alike (h : ∀ c, c.Complete n → Alike c solid 0 0 (ReturnsAlike c) p p') : StaysAlike n solid p p' :=
  fun c m m' hc hm => ⟨c, hc, .refl _ _ _, h c hc m m' hm (Nat.zero_le _) (Nat.zero_le _)⟩

/-- A step that is in step with itself, and what follows it. -/
theorem next {q : Run β} {f f' : β → Run (Option Value)}
    (hq : ∀ c, c.Complete n → Alike c solid 0 0 (fun _ _ => Eq) q q) (hf : ∀ b, StaysAlike n solid (f b) (f' b)) :
    StaysAlike n solid (q >>= f) (q >>= f') := by
  intro c m m' hc hm
  have h := hq c hc m m' hm (Nat.zero_le _) (Nat.zero_le _)
  show (andThen q f m).StaysAlike n c solid _ _ (andThen q f' m')
  rw [andThen, andThen]
  generalize q m = r, q m' = r' at h ⊢
  cases h with
  | stop hm₁ hk hk' => exact ⟨c, hc, .refl _ _ _, .stop hm₁ hk hk'⟩
  | ok heq hm₁ hk hk' =>
      cases heq
      exact (hf _ c _ _ hc hm₁).widen (.refl _ _ _) hk hk'

/-- Both steps are run in new scopes, in which names may be bound. -/
theorem inBlock (hp : StaysAlike n True p p') : StaysAlike n solid (inBlock p) (inBlock p') := by
  intro c m m' hc hm
  have hk := (m.opens_enter true).size_le
  have hk' := (m'.opens_enter true).size_le
  obtain ⟨c', hc', he, h⟩ := (hp c _ _ hc hm.enter).widen (.refl _ _ _) hk hk'
  rw [inBlock_eq, inBlock_eq]
  exact ⟨c', hc', he, h.backTo hm he (Nat.le_refl _) (Nat.le_refl _)⟩

/-- Either step is run in a new scope or where it stands; no name may be bound in that scope. -/
theorem inBlockIf (hp : StaysAlike n False p p') (hr : p.Restores) (hr' : p'.Restores)
    (own own' : Bool) : StaysAlike n solid (inBlockIf own p) (inBlockIf own' p') := by
  intro c m m' hc hm
  have hk := (m.opens_enter own).size_le
  have hk' := (m'.opens_enter own').size_le
  obtain ⟨c₁, hc₁, he₁, hm₁⟩ := hm.enterHollow hc own own'
  obtain ⟨c', hc', he, h⟩ := (hp c₁ _ _ hc₁ hm₁).widen he₁ hk hk'
  rw [inBlockIf_eq hr, inBlockIf_eq hr']
  exact ⟨c', hc', he, h.backTo hm he (Nat.le_refl _) (Nat.le_refl _)⟩

/-- Loops go round in step, each round extending the correspondence of the one before. -/
theorem whileTrue {condition : Run Bool}
    (hc : ∀ c, c.Complete n → Alike c solid 0 0 (fun _ _ => Eq) condition condition)
    (hp : StaysAlike n solid p p') (rounds : Nat) :
    StaysAlike n solid (whileTrue condition p rounds) (whileTrue condition p' rounds) := by
  induction rounds with
  | zero => exact fun c m m' hcomplete hm => ⟨c, hcomplete, .refl _ _ _, .stopped hm _⟩
  | succ rounds ih =>
      intro c m m' hcomplete hm
      have h := hc c hcomplete m m' hm (Nat.zero_le _) (Nat.zero_le _)
      rw [Run.whileTrue, Run.whileTrue]
      generalize condition m = r, condition m' = r' at h ⊢
      cases h with
      | stop hm₁ hk hk' => exact ⟨c, hcomplete, .refl _ _ _, .stop hm₁ hk hk'⟩
      | @ok b b' m₁ m₁' heq hm₁ hk hk' =>
          cases heq
          cases b with
          | false => exact ⟨c, hcomplete, .refl _ _ _, .ok .none hm₁ hk hk'⟩
          | true =>
              refine Result.StaysAlike.widen ?_ (.refl c _ _) hk hk'
              obtain ⟨c₂, hc₂, he, h₂⟩ := hp c m₁ m₁' hcomplete hm₁
              dsimp only
              generalize p m₁ = r, p' m₁' = r' at h₂ ⊢
              cases h₂ with
              | stop hm₂ hl hl' => exact ⟨c₂, hc₂, he, .stop hm₂ hl hl'⟩
              | @ok o o' m₂ m₂' ho hm₂ hl hl' =>
                  cases ho with
                  | some hv => exact ⟨c₂, hc₂, he, .ok (.some hv) hm₂ hl hl'⟩
                  | none => exact (ih c₂ m₂ m₂' hc₂ hm₂).widen he hl hl'

end StaysAlike

end Run

end Lox
