import Lox.Proofs.Parser.Append
import Lox.Proofs.Parser.Matches

/-!
# Programs in lockstep

Statements, declarations and programs are read in lockstep on tokens that are like each other.

* `recover_matches`: recovery keeps two runs together, and where there is a token to go on with, it
  takes one: the step it recovers from did, or giving up does.
* `statement_attempt_matches`: statements and declarations, over all nesting budgets.
* `program_finishes`: a program stops only where no token is left.
* `parseWithin_matches`: so two lists that are like each other up to the first token for the end are
  accepted alike, or rejected with the same diagnostics.
-/

namespace Lox

namespace Parser

variable {α β : Type} {L : Token.Likeness} {deep : Prop} {V : α → α → Prop} {b k : Nat}
  {s s' : State}

/-! ### Recovery -/

/-- There is a next token, and it is not for the end. -/
def State.GoesOn (s : State) : Prop := ∃ t rest, s.rest = t :: rest ∧ t.kind ≠ .eof

/-- Both runs go on or neither does. -/
theorem State.Matches.goesOn_iff (hs : s.Matches L s') : s.GoesOn ↔ s'.GoesOn := by
  have ha := hs.rest
  simp only [State.GoesOn]
  generalize s.rest = rest at ha ⊢
  generalize s'.rest = rest' at ha ⊢
  cases ha with
  | nil => exact ⟨nofun, nofun⟩
  | ended h he => simp [← L.kind h, he]
  | cons h => simp [← L.kind h]

/-- Where a run that could go on has taken no token, it still can. -/
theorem State.Leads.goesOn_or_takes {s₁ : State} (h : s.Leads deep 0 s₁) (hg : s.GoesOn) :
    s₁.GoesOn ∨ s.Leads deep 1 s₁ := by
  obtain ⟨⟨ts, hts, hpos, -, hend⟩, hds⟩ := h
  cases ts with
  | nil =>
      obtain ⟨t, rest, hr, ht⟩ := hg
      exact .inl ⟨t, rest, hts.symm.trans hr, ht⟩
  | cons t ts => exact .inr ⟨⟨t :: ts, hts, hpos, Nat.le_add_left 1 _, hend⟩, hds⟩

/-- Both runs skip as many tokens. -/
theorem skipFrom_matches {rest rest' : List Token} (hr : Ahead L rest rest') (last : Kind) (n : Nat)
    {ds ds' : List Diagnostic} (hd : List.Forall₂ (Diagnostic.Matches L) ds ds') :
    (skipFrom last rest n ds).Matches L deep 0 (fun _ _ => True) ⟨rest, n, ds⟩ ⟨rest', n, ds'⟩
      (skipFrom last rest' n ds') := by
  induction hr generalizing last n with
  | nil => exact .ended ⟨.nil, rfl, hd⟩ rfl
  | @ended e e' h he rest rest' =>
      simp only [skipFrom, he, ← L.kind h, decide_true, Bool.true_or, if_true]
      exact .done trivial ⟨.ended h he rest rest', rfl, hd⟩ (.refl _) (.refl _)
  | @cons t t' rest rest' h hr ih =>
      rw [skipFrom, skipFrom, ← L.kind h]
      split
      · exact .done trivial ⟨.cons h hr, rfl, hd⟩ (.refl _) (.refl _)
      · rename_i hstop
        have ht : t.kind ≠ .eof := fun he => hstop (by simp [he])
        have ht' : t'.kind ≠ .eof := by rwa [← L.kind h]
        exact (ih t.kind (n + 1)).behind (.token ht rest n ds) (.token ht' rest' n ds') (Nat.zero_le _)

/-- Giving a statement up takes the next token. -/
theorem synchronize_matches_of_goesOn (hs : s.Matches L s') (hg : s.GoesOn) :
    (synchronize s).Matches L deep 1 (fun _ _ => True) s s' (synchronize s') := by
  obtain ⟨_, n, ds⟩ := s
  obtain ⟨_, n', ds'⟩ := s'
  obtain ⟨hr, rfl, hd⟩ := hs
  obtain ⟨t, rest, rfl, ht⟩ := hg
  cases hr with
  | ended _ he => exact absurd he ht
  | @cons _ t' _ rest' h hr =>
      have ht' : t'.kind ≠ .eof := by rwa [← L.kind h]
      simp only [synchronize, if_neg ht, ← L.kind h]
      exact (skipFrom_matches hr t.kind (n + 1) hd).behind (.token ht rest n ds)
        (.token ht' rest' n ds') (Nat.le_refl 1)

/-- So both give up at the same place. -/
theorem synchronize_matches (hs : s.Matches L s') :
    (synchronize s).Matches L deep 0 (fun _ _ => True) s s' (synchronize s') := by
  by_cases hg : s.GoesOn
  · exact (synchronize_matches_of_goesOn hs hg).mono (Nat.zero_le 1) fun _ _ hv => hv
  · have hstay : ∀ s : State, ¬ s.GoesOn → s.rest ≠ [] → synchronize s = .done () s := by
      rintro ⟨_ | ⟨t, rest⟩, n, ds⟩ hg hne
      · exact absurd rfl hne
      · have ht : t.kind = .eof := by
          by_contra ht
          exact hg ⟨t, rest, rfl, ht⟩
        simp only [synchronize, if_pos ht]
    by_cases hr : s.rest = []
    · have hr' := hs.rest.eq_nil_iff.mp hr
      simp only [synchronize, hr, hr']
      exact .ended hs hr
    · have hr' : s'.rest ≠ [] := fun h => hr (hs.rest.eq_nil_iff.mpr h)
      rw [hstay s hg hr, hstay s' (fun h => hg (hs.goesOn_iff.mpr h)) hr']
      exact .done trivial hs (.refl s) (.refl s')

/-- Seen from where it started, a run that gives a statement up takes a token: before, or then. -/
theorem giveUp_matches {s₁ s₁' : State} (hs : s.Matches L s') (hg : s.GoesOn)
    (hs₁ : s₁.Matches L s₁') (hl : s.Leads deep 0 s₁) (hl' : s'.Leads deep 0 s₁') :
    (giveUp s₁).Matches L deep 1 (Option.Rel V) s s' (giveUp s₁') := by
  by_cases hg₁ : s₁.GoesOn
  · refine Outcome.Matches.behind (j := 1) ?_ hl hl' (Nat.le_refl _)
    exact (synchronize_matches_of_goesOn hs₁ hg₁).bind fun _ _ _ _ _ hs₂ _ _ =>
      .done .none hs₂ (.refl _) (.refl _)
  · have hl₁ := (hl.goesOn_or_takes hg).resolve_left hg₁
    have hl₁' := (hl'.goesOn_or_takes (hs.goesOn_iff.mp hg)).resolve_left fun h =>
      hg₁ (hs₁.goesOn_iff.mpr h)
    refine Outcome.Matches.behind (j := 0) ?_ hl₁ hl₁' (Nat.le_refl _)
    exact (synchronize_matches hs₁).bind fun _ _ _ _ _ hs₂ _ _ => .done .none hs₂ (.refl _) (.refl _)

/-- A state with one more diagnostic. -/
theorem State.Matches.diagnostic {d d' : Diagnostic} (hs : s.Matches L s') (hd : d.Matches L d') :
    State.Matches L { s with diagnostics := s.diagnostics ++ [d] }
      { s' with diagnostics := s'.diagnostics ++ [d'] } :=
  ⟨hs.rest, hs.position, List.rel_append hs.diagnostics (.cons hd .nil)⟩

/-- A declaration that is refused in one run is refused in the other, and both go on from the same place. -/
theorem recover_matches {p p' : Parser α} (hs : s.Matches L s') (hg : s.GoesOn)
    (hp : (p s).Matches L deep 1 V s s' (p' s')) :
    (recover p s).Matches L deep 1 (Option.Rel V) s s' (recover p' s') := by
  simp only [recover]
  generalize p s = r at hp ⊢
  generalize p' s' = r' at hp ⊢
  cases hp with
  | done hv hs₁ hl hl' => exact .done (.some hv) hs₁ hl hl'
  | refused hd hc hs₁ hl hl' =>
      have hc' := hd.cause ▸ hc
      exact giveUp_matches hs hg (hs₁.diagnostic hd)
        (hl.trans (.diagnostic (fun h => absurd h hc) _) (Nat.le_refl 0))
        (hl'.trans (.diagnostic (fun h => absurd h hc') _) (Nat.le_refl 0))
  | @tooDeep s₁ s₁' hdeep hs₁ hl hl' =>
      have hr := hs₁.rest
      obtain ⟨_ | ⟨t, rest⟩, n, ds⟩ := s₁
      · obtain ⟨_, n', ds'⟩ := s₁'
        obtain rfl := hr.eq_nil_iff.mp rfl
        exact .offEnd rfl hs₁ hl hl'
      · obtain ⟨_, n', ds'⟩ := s₁'
        obtain ⟨t', rest', rfl, ht⟩ := hr.head
        exact giveUp_matches hs hg
          (hs₁.diagnostic (show Diagnostic.Matches L ⟨.nestingTooDeep, t, n⟩
            ⟨.nestingTooDeep, t', n'⟩ from ⟨rfl, ht, hs₁.position⟩))
          (hl.trans (.diagnostic (fun _ => hdeep) _) (Nat.le_refl 0))
          (hl'.trans (.diagnostic (fun _ => hdeep) _) (Nat.le_refl 0))
  | offEnd hr hs₁ hl hl' => exact .offEnd hr hs₁ hl hl'

/-- Where there is a token to go on with, two steps end alike, and a token is taken. -/
def MatchesOn (L : Token.Likeness) (deep : Prop) (b : Nat) (V : α → α → Prop) (p p' : Parser α) :
    Prop :=
  ∀ s s' : State, s.Matches L s' → s.rest.length ≤ b → s.GoesOn → (p s).Matches L deep 1 V s s' (p' s')

theorem Matches.recover {p p' : Parser α} (h : Matches L deep b 1 V p p') :
    MatchesOn L deep b (Option.Rel V) (recover p) (recover p') :=
  fun s s' hs hle hg => recover_matches hs hg (h s s' hs hle)

/-! ### Items -/

section Items

variable {isLast : Token → Bool} {item item' : Parser (Option α)}

/-- Without tokens there is no end to be found. -/
theorem itemsFrom_nil (h : s.rest = []) (bound : List Token) (found : List α) :
    itemsFrom isLast item bound found s = .stop .offEnd s := by
  cases bound with
  | nil => rfl
  | cons t bound => simp [itemsFrom, h]

/-- Items are read in lockstep; an item may be given up in both runs. -/
theorem itemsFrom_matches (hl : ∀ t : Token, t.kind = .eof → isLast t = true)
    (hlike : ∀ t t', L.Rel t t' → isLast t = isLast t')
    (hi : MatchesOn L deep b (Option.Rel V) item item') {bound bound' : List Token}
    {found found' : List α} (hf : List.Forall₂ V found found') (hs : s.Matches L s')
    (hle : s.rest.length ≤ b) (hb : s.rest.length ≤ bound.length)
    (hb' : s'.rest.length ≤ bound'.length) :
    (itemsFrom isLast item bound found s).Matches L deep 0 (List.Forall₂ V) s s'
      (itemsFrom isLast item' bound' found' s') := by
  induction bound generalizing bound' found found' s s' with
  | nil =>
      have hr : s.rest = [] := List.eq_nil_of_length_eq_zero (Nat.le_zero.mp hb)
      rw [itemsFrom_nil hr, itemsFrom_nil (hs.rest.eq_nil_iff.mp hr)]
      exact .ended hs hr
  | cons t bound ih =>
      obtain ⟨hr, hr'⟩ | ⟨_, _, t', us', hbound, rfl, hround⟩ := hs.round deep hb hb'
      · rw [itemsFrom_nil hr, itemsFrom_nil hr']
        exact .ended hs hr
      cases hbound
      obtain ⟨_ | ⟨u, rest⟩, n, ds⟩ := s
      · rw [itemsFrom_nil rfl, itemsFrom_nil (hs.rest.eq_nil_iff.mp rfl)]
        exact .ended hs rfl
      obtain ⟨_, n', ds'⟩ := s'
      obtain ⟨u', rest', rfl, hu⟩ := hs.rest.head
      rw [itemsFrom_cons, itemsFrom_cons, bind_of_done (p := peek) rfl, bind_of_done (p := peek) rfl,
        ← hlike u u' hu]
      cases hlast : isLast u with
      | true => exact .done (List.rel_reverse hf) hs (.refl _) (.refl _)
      | false =>
          have hu : u.kind ≠ .eof := fun h => by rw [hl u h] at hlast; cases hlast
          refine ((hi _ _ hs hle ⟨u, rest, rfl, hu⟩).bind fun o o' s₁ s₁' ho hs₁ hl₁ hl₁' => ?_)
          have hle₁ := hl₁.length_le
          obtain ⟨hb₁, hb₁'⟩ := hround s₁ s₁' hl₁ hl₁'
          cases ho with
          | none => exact ih hf hs₁ (by omega) hb₁ hb₁'
          | some ha => exact ih (.cons ha hf) hs₁ (by omega) hb₁ hb₁'

theorem itemsUntil_matches (hl : ∀ t : Token, t.kind = .eof → isLast t = true)
    (hlike : ∀ t t', L.Rel t t' → isLast t = isLast t')
    (hi : MatchesOn L deep b (Option.Rel V) item item') :
    Matches L deep b 0 (List.Forall₂ V) (itemsUntil isLast item) (itemsUntil isLast item') :=
  fun _ _ hs hle => itemsFrom_matches hl hlike hi .nil hs hle (Nat.le_refl _) (Nat.le_refl _)

end Items

/-! ### Statements -/

section Statements

variable {expression expression' statement statement' : Parser Node}
  {declaration declaration' : Parser (Option Node)}

/-- An expression and its semicolon. -/
theorem expressionStatement_matches
    (he : Matches L deep b 1 (Node.Matches L) expression expression') :
    Matches L deep b 1 (Node.Matches L) (expressionStatement expression)
      (expressionStatement expression') := by
  refine he.bind fun e e' _ h _ => ?_
  exact (Matches.expect (by decide)).bind fun _ _ _ _ _ => Matches.pure (.expression h)

theorem printStatement_matches (he : Matches L deep b 1 (Node.Matches L) expression expression') :
    Matches L deep b 1 (Node.Matches L) (printStatement expression)
      (printStatement expression') := by
  refine he.bind fun e e' _ h _ => ?_
  exact (Matches.expect (by decide)).bind fun _ _ _ _ _ => Matches.pure (.print h)

/-- The name, the initial value if there is one, and the semicolon. -/
theorem variableDeclaration_matches
    (he : Matches L deep b 1 (Node.Matches L) expression expression') :
    Matches L deep b 1 (Node.Matches L) (variableDeclaration expression)
      (variableDeclaration expression') := by
  refine (Matches.expect (by decide)).bind fun name name' c hn hc => ?_
  have hend : ∀ {c : Nat} {e e' : Node}, e.Matches L e' →
      Matches L deep c 0 (Node.Matches L)
        (do let _ ← expect .semicolon .expectSemicolonAfterDeclaration
            pure (.declare name e))
        (do let _ ← expect .semicolon .expectSemicolonAfterDeclaration
            pure (.declare name' e')) :=
    fun h => (Matches.expect (by decide)).bind fun _ _ _ _ _ => Matches.pure (.declare hn h)
  refine Matches.accept (hend .null) fun _ _ c' _ _ hc' => ?_
  exact (he.fewer (by omega)).bind fun e e' _ h _ => hend h

/-- Both runs find the token that stands for an absent expression, or neither. -/
theorem expressionUnless_matches (he : Matches L deep b 1 (Node.Matches L) expression expression')
    (kind : Kind) :
    Matches L deep b 0 (Option.Rel (Node.Matches L)) (expressionUnless kind expression)
      (expressionUnless kind expression') := by
  refine (Matches.check kind).bind fun x x' c hx hc => ?_
  subst hx
  cases x with
  | true => exact Matches.pure .none
  | false => exact ((he.fewer (by omega)).relax).map fun _ _ h => .some h

/-- Both notice a return outside functions. -/
theorem returnStatement_matches (he : Matches L deep b 1 (Node.Matches L) expression expression')
    (inFunction : Bool) {t t' : Token} (ht : L.Rel t t') :
    Matches L deep b 1 (Node.Matches L) (returnStatement inFunction t expression)
      (returnStatement inFunction t' expression') := by
  have hvalue : Matches L deep b 1 (Node.Matches L)
      (do let value ← expressionUnless .semicolon expression
          let _ ← expect .semicolon .expectSemicolonAfterReturnValue
          pure (.returns t (value.getD .null)))
      (do let value ← expressionUnless .semicolon expression'
          let _ ← expect .semicolon .expectSemicolonAfterReturnValue
          pure (.returns t' (value.getD .null))) := by
    refine (expressionUnless_matches he _).bind fun o o' _ ho _ => ?_
    refine (Matches.expect (by decide)).bind fun _ _ _ _ _ => Matches.pure (.returns ht ?_)
    cases ho with
    | none => exact .null
    | some h => exact h
  cases inFunction with
  | true => exact hvalue
  | false =>
      exact (Matches.report (by decide) ht).bind fun _ _ _ _ hc => hvalue.fewer hc

/-- The first clause of a loop. -/
theorem loopInitializer_matches (he : Matches L deep b 1 (Node.Matches L) expression expression') :
    Matches L deep b 1 (Option.Rel (Node.Matches L)) (loopInitializer expression)
      (loopInitializer expression') := by
  refine Matches.accept ?_ fun _ _ _ _ _ _ => Matches.pure .none
  refine Matches.accept ?_ fun _ _ c _ _ hc => ?_
  · exact (expressionStatement_matches he).map fun _ _ h => .some h
  · exact ((variableDeclaration_matches (he.fewer (by omega))).map fun _ _ h => .some h).relax

/-- A loop with clauses is the same tree around trees that match. -/
theorem forLoop_matches
    {initializer initializer' condition condition' increment increment' : Option Node}
    {body body' : Node} (hi : Option.Rel (Node.Matches L) initializer initializer')
    (hc : Option.Rel (Node.Matches L) condition condition')
    (hn : Option.Rel (Node.Matches L) increment increment') (hb : body.Matches L body') :
    (forLoop initializer condition increment body).Matches L
      (forLoop initializer' condition' increment' body') := by
  have hcond : (condition.getD (.literal (.bool true))).Matches L
      (condition'.getD (.literal (.bool true))) := by
    cases hc with
    | none => exact .plain rfl
    | some h => exact h
  cases hn with
  | none =>
      cases hi with
      | none => exact .loop hcond hb
      | some h => exact .block (.cons h (.cons (.loop hcond hb) .nil))
  | some hstep =>
      have hbody := Node.Matches.block (.cons hb (.cons (.expression hstep) .nil))
      cases hi with
      | none => exact .loop hcond hbody
      | some h => exact .block (.cons h (.cons (.loop hcond hbody) .nil))

/-- All clauses, and then the body. -/
theorem forStatement_matches (he : Matches L deep b 1 (Node.Matches L) expression expression')
    (hs : Matches L deep b 1 (Node.Matches L) statement statement') :
    Matches L deep b 1 (Node.Matches L) (forStatement expression statement)
      (forStatement expression' statement') := by
  refine (Matches.expect (by decide)).bind fun _ _ c₁ _ hc₁ => ?_
  refine (loopInitializer_matches (he.fewer (by omega))).bind fun i i' c₂ hi hc₂ => ?_
  refine (expressionUnless_matches (he.fewer (by omega)) _).bind fun c c' c₃ hc hc₃ => ?_
  refine (Matches.expect (by decide)).bind fun _ _ c₄ _ hc₄ => ?_
  refine (expressionUnless_matches (he.fewer (by omega)) _).bind fun n n' c₅ hn hc₅ => ?_
  refine (Matches.expect (by decide)).bind fun _ _ c₆ _ hc₆ => ?_
  refine (hs.fewer (by omega)).bind fun body body' _ hb _ => ?_
  exact Matches.pure (forLoop_matches hi hc hn hb)

/-- Both runs find the other branch, or neither. -/
theorem ifStatement_matches (he : Matches L deep b 1 (Node.Matches L) expression expression')
    (hs : Matches L deep b 1 (Node.Matches L) statement statement') :
    Matches L deep b 1 (Node.Matches L) (ifStatement expression statement)
      (ifStatement expression' statement') := by
  refine (Matches.expect (by decide)).bind fun _ _ c₁ _ hc₁ => ?_
  refine (he.fewer (by omega)).bind fun c c' c₂ hc hc₂ => ?_
  refine (Matches.expect (by decide)).bind fun _ _ c₃ _ hc₃ => ?_
  refine (hs.fewer (by omega)).bind fun t t' c₄ ht hc₄ => ?_
  refine Matches.accept (Matches.pure (.branch hc ht .null)) fun _ _ c₅ _ _ hc₅ => ?_
  exact (hs.fewer (by omega)).bind fun e e' _ he _ => Matches.pure (.branch hc ht he)

theorem whileStatement_matches (he : Matches L deep b 1 (Node.Matches L) expression expression')
    (hs : Matches L deep b 1 (Node.Matches L) statement statement') :
    Matches L deep b 1 (Node.Matches L) (whileStatement expression statement)
      (whileStatement expression' statement') := by
  refine (Matches.expect (by decide)).bind fun _ _ c₁ _ hc₁ => ?_
  refine (he.fewer (by omega)).bind fun c c' c₂ hc hc₂ => ?_
  refine (Matches.expect (by decide)).bind fun _ _ c₃ _ hc₃ => ?_
  exact (hs.fewer (by omega)).bind fun body body' _ hb _ => Matches.pure (.loop hc hb)

/-- The declarations of a block. -/
theorem blockOf_matches
    (hd : MatchesOn L deep b (Option.Rel (Node.Matches L)) declaration declaration') :
    Matches L deep b 1 (List.Forall₂ (Node.Matches L)) (blockOf declaration)
      (blockOf declaration') := by
  have hlike : ∀ t t' : Token, L.Rel t t' →
      (decide (t.kind = .rightBrace) || decide (t.kind = .eof)) =
        (decide (t'.kind = .rightBrace) || decide (t'.kind = .eof)) := by
    intro t t' ht
    rw [L.kind ht]
  refine (itemsUntil_matches (fun t h => by simp [h]) hlike hd).bind fun ss ss' _ h _ => ?_
  exact (Matches.expect (by decide)).bind fun _ _ _ _ _ => Matches.pure h

/-- The parameters are counted alike, and then the body is read. -/
theorem functionDeclaration_matches
    (hd : MatchesOn L deep b (Option.Rel (Node.Matches L)) declaration declaration') :
    Matches L deep b 1 (Node.Matches L) (functionDeclaration declaration)
      (functionDeclaration declaration') := by
  have hd' : ∀ c ≤ b, MatchesOn L deep c (Option.Rel (Node.Matches L)) declaration declaration' :=
    fun c hc s s' hs hle => hd s s' hs (Nat.le_trans hle hc)
  refine (Matches.expect (by decide)).bind fun name name' c₁ hn hc₁ => ?_
  refine (Matches.expect (by decide)).bind fun _ _ c₂ _ hc₂ => ?_
  refine (entries_matches (by decide) (Matches.expect (by decide))).bind fun ps ps' c₃ hp hc₃ => ?_
  refine (Matches.expect (by decide)).bind fun _ _ c₄ _ hc₄ => ?_
  refine (Matches.expect (by decide)).bind fun _ _ c₅ _ hc₅ => ?_
  exact (blockOf_matches (hd' c₅ (by omega))).bind fun body body' _ hb _ =>
    Matches.pure (.function hn hp hb)

end Statements

/-! ### Declarations and programs -/

/-- What a declaration recovers from. -/
def attempt (inFunction : Bool) : Nat → Parser Node
  | 0 => fail .tooDeep
  | depth + 1 => do
    match ← accept [.funWord, .varWord] with
    | none => statement inFunction depth
    | some start =>
      match start.kind with
      | .funWord => functionDeclaration (declaration true depth)
      | _ => variableDeclaration (assignment depth)

/-- A declaration is an attempt that may be given up. -/
theorem declaration_eq_recover (inFunction : Bool) (depth : Nat) :
    declaration inFunction depth = recover (attempt inFunction depth) := by
  cases depth with
  | zero => rfl
  | succ depth => rfl

/-- Statements and declarations are read in lockstep.  Each level of nesting that takes no token stands
between two that do, so a budget of twice the tokens is never used up. -/
theorem statement_attempt_matches (d d' : Nat) :
    (∀ b inFunction, Budgets deep (2 * b + 2) d d' →
      Matches L deep b 1 (Node.Matches L) (statement inFunction d) (statement inFunction d')) ∧
    ∀ b inFunction, Budgets deep (2 * b + 3) d d' →
      Matches L deep b 1 (Node.Matches L) (attempt inFunction d) (attempt inFunction d') := by
  induction d generalizing d' with
  | zero =>
      refine ⟨fun b inFunction h => ?_, fun b inFunction h => ?_⟩
      · obtain ⟨hd, rfl⟩ := h.zero
        exact Matches.tooDeep hd
      · obtain ⟨hd, rfl⟩ := h.zero
        exact Matches.tooDeep hd
  | succ d ih =>
      have hdecl : ∀ {b d'} inFunction, Budgets deep (2 * b + 3) d d' →
          MatchesOn L deep b (Option.Rel (Node.Matches L)) (declaration inFunction d)
            (declaration inFunction d') := by
        intro b d' inFunction h
        rw [declaration_eq_recover, declaration_eq_recover]
        exact ((ih d').2 b inFunction h).recover
      refine ⟨fun b inFunction h => ?_, fun b inFunction h => ?_⟩
      · obtain ⟨d', rfl, hd⟩ := h.succ
        rw [statement, statement]
        have he : ∀ c ≤ b, Matches L deep c 1 (Node.Matches L) (assignment d) (assignment d') :=
          fun c hc => assignment_matches (hd _ (by omega))
        have hs : ∀ c, c + 1 ≤ b →
            Matches L deep c 1 (Node.Matches L) (statement inFunction d) (statement inFunction d') :=
          fun c hc => (ih d').1 c inFunction (hd _ (by omega))
        refine Matches.accept (expressionStatement_matches (he b (Nat.le_refl b)))
          fun t t' c ht _ hc => ?_
        -- a token has been read, so there is a smaller bound for what is behind it
        have hec := he c (by omega)
        dsimp only
        rw [← L.kind ht]
        split
        · exact (forStatement_matches hec (hs c hc)).relax
        · exact (ifStatement_matches hec (hs c hc)).relax
        · exact (printStatement_matches hec).relax
        · exact (returnStatement_matches hec inFunction ht).relax
        · exact (whileStatement_matches hec (hs c hc)).relax
        · have hblock := blockOf_matches (hdecl (b := c) inFunction (hd _ (by omega)))
          exact (hblock.map fun _ _ h => .block h).relax
      · obtain ⟨d', rfl, hd⟩ := h.succ
        rw [attempt, attempt]
        refine Matches.accept ((ih d').1 b inFunction (hd _ (by omega))) fun t t' c ht _ hc => ?_
        dsimp only
        rw [← L.kind ht]
        split
        · exact (functionDeclaration_matches (hdecl true (hd _ (by omega)))).relax
        · exact (variableDeclaration_matches (assignment_matches (hd _ (by omega)))).relax

/-- Declarations are read in lockstep with budgets for their nesting. -/
theorem declaration_matches {d d' : Nat} (inFunction : Bool) (h : Budgets deep (2 * b + 3) d d') :
    MatchesOn L deep b (Option.Rel (Node.Matches L)) (declaration inFunction d)
      (declaration inFunction d') := by
  rw [declaration_eq_recover, declaration_eq_recover]
  exact ((statement_attempt_matches d d').2 b inFunction h).recover

/-- And so are programs. -/
theorem program_matches {d d' : Nat} (h : Budgets deep (2 * b + 3) d d') :
    Matches L deep b 0 (List.Forall₂ (Node.Matches L)) (program d) (program d') := by
  refine itemsUntil_matches (fun t h => by simp [h]) (fun t t' ht => ?_)
    (declaration_matches false h)
  rw [L.kind ht]

/-! ### How a program ends -/

/-- A step that stops only where no token is left. -/
def Finishes (p : Parser α) : Prop := ∀ {s why s₁}, p s = .stop why s₁ → why = .offEnd

/-- Skipping stops only where the tokens end. -/
theorem skipFrom_finishes {last : Kind} {rest : List Token} {n : Nat} {ds : List Diagnostic}
    {why : Stop} {s₁ : State} (h : skipFrom last rest n ds = .stop why s₁) : why = .offEnd := by
  induction rest generalizing last n with
  | nil =>
      cases h
      rfl
  | cons t rest ih =>
      rw [skipFrom] at h
      split at h
      · cases h
      · exact ih h

theorem giveUp_finishes : Finishes (giveUp : Parser (Option α)) := by
  intro s why s₁ h
  have h' : andThen synchronize (fun _ => pure none : Unit → Parser (Option α)) s = .stop why s₁ := h
  obtain ⟨_ | ⟨t, rest⟩, n, ds⟩ := s
  · cases h'
    rfl
  · simp only [andThen, synchronize] at h'
    split at h'
    · cases h'
    · rename_i why' s' hskip
      cases h'
      split at hskip
      · cases hskip
      · exact skipFrom_finishes hskip

/-- What is given up leaves no diagnostic to stop with. -/
theorem recover_finishes (p : Parser α) : Finishes (recover p) := by
  intro s why s₁ h
  simp only [recover] at h
  split at h
  · cases h
  · exact giveUp_finishes h
  · rename_i s' _
    obtain ⟨_ | ⟨t, rest⟩, n, ds⟩ := s'
    · cases h
      rfl
    · exact giveUp_finishes (α := α) h
  · cases h
    rfl

theorem itemsFrom_finishes {isLast : Token → Bool} {item : Parser (Option α)} (hi : Finishes item)
    (bound : List Token) (found : List α) : Finishes (itemsFrom isLast item bound found) := by
  induction bound generalizing found with
  | nil =>
      intro s why s₁ h
      cases h
      rfl
  | cons t bound ih =>
      intro s why s₁ h
      simp only [itemsFrom] at h
      split at h
      · cases h
        rfl
      · split at h
        · cases h
        · split at h
          · cases h
            exact hi ‹_›
          · exact ih _ h
          · exact ih _ h

/-- So no declaration stops a program. -/
theorem declaration_finishes (inFunction : Bool) (depth : Nat) :
    Finishes (declaration inFunction depth) := by
  rw [declaration_eq_recover]
  exact recover_finishes _

/-- A program stops only where the tokens end. -/
theorem program_finishes (depth : Nat) : Finishes (program depth) :=
  fun h => itemsFrom_finishes (declaration_finishes false depth) _ _ h

/-- Items are read up to a token that ends them. -/
theorem itemsFrom_last {isLast : Token → Bool} {item : Parser (Option α)} {bound : List Token}
    {found as : List α} {s₁ : State} (h : itemsFrom isLast item bound found s = .done as s₁) :
    ∃ t rest, s₁.rest = t :: rest ∧ isLast t = true := by
  induction bound generalizing found s with
  | nil => cases h
  | cons t bound ih =>
      simp only [itemsFrom] at h
      split at h
      · cases h
      · rename_i u rest hr
        split at h
        · cases h
          exact ⟨u, rest, hr, ‹_›⟩
        · split at h
          · cases h
          · exact ih h
          · exact ih h

end Parser

/-- Two lists that are read alike: both are accepted, with trees that match, or both are rejected,
with diagnostics that match, or both have no token for the end; and equally many tokens are taken. -/
inductive Parsed.Matches (L : Token.Likeness) : Parsed → Parsed → Prop where
  | accepted {ss ss' : List Node} (h : List.Forall₂ (Node.Matches L) ss ss') (n : Nat) :
      Matches L ⟨.ok ss, n⟩ ⟨.ok ss', n⟩
  | rejected {d d' : Diagnostic} {ds ds' : List Diagnostic}
      (h : List.Forall₂ (Diagnostic.Matches L) (d :: ds) (d' :: ds')) (n : Nat) :
      Matches L ⟨.error (.rejected (d :: ds)), n⟩ ⟨.error (.rejected (d' :: ds')), n⟩
  | offEnd (n : Nat) : Matches L ⟨.error .offEnd, n⟩ ⟨.error .offEnd, n⟩

open Lox.Parser

/-- **Lists of tokens that are like each other up to the first token for the end are read alike.** -/
theorem parseWithin_matches {L : Token.Likeness} {deep : Prop} {ts ts' : List Token}
    (h : Ahead L ts ts') {d d' : Nat} (hd : Budgets deep (2 * ts.length + 3) d d') :
    (parseWithin d ts).Matches L (parseWithin d' ts') := by
  have hm := program_matches (L := L) hd ⟨ts, 0, []⟩ ⟨ts', 0, []⟩ ⟨h, rfl, .nil⟩ (Nat.le_refl _)
  rw [parseWithin, parseWithin]
  generalize hr : program d ⟨ts, 0, []⟩ = r at hm
  generalize program d' ⟨ts', 0, []⟩ = r' at hm
  cases hm with
  | @done ss ss' s₁ s₁' hv hs _ _ =>
      obtain ⟨rest, n, ds⟩ := s₁
      obtain ⟨rest', n', ds'⟩ := s₁'
      obtain ⟨-, rfl, hds⟩ := hs
      cases hds with
      | nil => exact .accepted hv n
      | cons hd hds => exact .rejected (.cons hd hds) n
  | refused | tooDeep => cases program_finishes d hr
  | @offEnd s₁ s₁' _ hs _ _ =>
      dsimp only
      rw [hs.position]
      exact .offEnd _

end Lox
