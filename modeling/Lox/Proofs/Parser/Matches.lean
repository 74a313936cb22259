import Lox.Proofs.Node.Matches
import Lox.Proofs.Parser.Recovery

/-!
# Two runs of a parser in lockstep

Two lists of tokens that are like each other, one by one up to the first token for the end, are read in
the same way: what stands behind that token is never looked at, and of a token only what a
`Token.Likeness` keeps.

`Parser.Matches L deep b k V p p'`: from states that match and have at most `b` tokens left, `p` and
`p'` end alike, with values in `V` and at least `k` tokens taken.  Where a run goes is part of it
(`State.Leads`): it takes tokens from the front, none of them for the end, and only adds diagnostics.
Only if `deep` holds may the nesting be too deep, so a budget that `b` tokens cannot use up never
shows (`Budgets`).

The property goes through sequencing (`Matches.bind`, `Matches.accept`), through single tokens and
through the loops of the parser: each round takes a token, so neither bound on the rounds is used up.
All expressions have it (`assignment_unary_matches`).
-/

namespace Lox

/-- The same cause at the same place, at tokens that are like each other. -/
structure Diagnostic.Matches (L : Token.Likeness) (d d' : Diagnostic) : Prop where
  cause : d.cause = d'.cause
  token : L.Rel d.token d'.token
  position : d.position = d'.position

namespace Parser

variable {α β : Type} {L : Token.Likeness} {deep : Prop}

/-- Tokens that are like each other up to the first one for the end. -/
inductive Ahead (L : Token.Likeness) : List Token → List Token → Prop where
  | nil : Ahead L [] []
  | ended {e e' : Token} (h : L.Rel e e') (he : e.kind = .eof) (rest rest' : List Token) :
      Ahead L (e :: rest) (e' :: rest')
  | cons {t t' : Token} {rest rest' : List Token} (h : L.Rel t t') (hr : Ahead L rest rest') :
      Ahead L (t :: rest) (t' :: rest')

/-- Lists that are like each other all along are so up to the first token for the end. -/
theorem Ahead.of_forall₂ {ts ts' : List Token} (h : List.Forall₂ L.Rel ts ts') : Ahead L ts ts' := by
  induction h with
  | nil => exact .nil
  | cons h _ ih => exact .cons h ih

theorem Ahead.eq_nil_iff {ts ts' : List Token} (h : Ahead L ts ts') : ts = [] ↔ ts' = [] := by
  cases h with
  | nil => exact Iff.rfl
  | _ => exact ⟨nofun, nofun⟩

/-- Where there is a token on one side there is one like it on the other. -/
theorem Ahead.head {t : Token} {rest ts' : List Token} (h : Ahead L (t :: rest) ts') :
    ∃ t' rest', ts' = t' :: rest' ∧ L.Rel t t' := by
  cases h with
  | ended h => exact ⟨_, _, rfl, h⟩
  | cons h => exact ⟨_, _, rfl, h⟩

/-- States with the same tokens ahead and the same diagnostics, as far as the likeness tells. -/
structure State.Matches (L : Token.Likeness) (s s' : State) : Prop where
  rest : Ahead L s.rest s'.rest
  position : s.position = s'.position
  diagnostics : List.Forall₂ (Diagnostic.Matches L) s.diagnostics s'.diagnostics

/-- From `s` to `s₁`, at least `k` tokens are taken, none of them for the end, and diagnostics are only
added, about the nesting only where it may be too deep. -/
structure State.Leads (deep : Prop) (k : Nat) (s s₁ : State) : Prop where
  takes : ∃ ts, s.rest = ts ++ s₁.rest ∧ s₁.position = s.position + ts.length ∧ k ≤ ts.length ∧
    ∀ t ∈ ts, t.kind ≠ .eof
  reports : ∃ ds, s₁.diagnostics = s.diagnostics ++ ds ∧ ∀ d ∈ ds, d.cause = .nestingTooDeep → deep

namespace State.Leads

variable {s s₁ s₂ : State} {i j k : Nat}

theorem refl (s : State) : s.Leads deep 0 s :=
  ⟨⟨[], rfl, rfl, Nat.le_refl 0, fun _ ht => (nomatch ht)⟩, ⟨[], by simp, fun _ hd => (nomatch hd)⟩⟩

theorem trans (h : s.Leads deep i s₁) (h' : s₁.Leads deep j s₂) (hk : k ≤ i + j) :
    s.Leads deep k s₂ := by
  obtain ⟨⟨ts, hts, hpos, hi, hend⟩, ds, hds, hdeep⟩ := h
  obtain ⟨⟨us, hus, hpos', hj, hend'⟩, es, hes, hdeep'⟩ := h'
  refine ⟨⟨ts ++ us, ?_, ?_, ?_, ?_⟩, ds ++ es, ?_, ?_⟩
  · rw [hts, hus, List.append_assoc]
  · rw [hpos', hpos, List.length_append, Nat.add_assoc]
  · rw [List.length_append]
    omega
  · intro t ht
    exact (List.mem_append.mp ht).elim (hend t) (hend' t)
  · rw [hes, hds, List.append_assoc]
  · intro d hd
    exact (List.mem_append.mp hd).elim (hdeep d) (hdeep' d)

theorem mono (h : s.Leads deep i s₁) (hk : k ≤ i) : s.Leads deep k s₁ :=
  h.trans (refl s₁) hk

/-- What is taken is no longer there. -/
theorem length_le (h : s.Leads deep k s₁) : s₁.rest.length + k ≤ s.rest.length := by
  obtain ⟨⟨ts, hts, -, hk, -⟩, -⟩ := h
  rw [hts, List.length_append]
  omega

/-- One token is taken. -/
theorem token {t : Token} (ht : t.kind ≠ .eof) (rest : List Token) (n : Nat)
    (ds : List Diagnostic) : State.Leads deep 1 ⟨t :: rest, n, ds⟩ ⟨rest, n + 1, ds⟩ :=
  ⟨⟨[t], rfl, rfl, Nat.le_refl 1, by simpa using ht⟩,
    ⟨[], by simp, fun _ hd => (nomatch hd)⟩⟩

/-- One diagnostic is added. -/
theorem diagnostic {d : Diagnostic} (hd : d.cause = .nestingTooDeep → deep) (s : State) :
    s.Leads deep 0 { s with diagnostics := s.diagnostics ++ [d] } :=
  ⟨⟨[], rfl, rfl, Nat.le_refl 0, fun _ ht => (nomatch ht)⟩, ⟨[d], rfl, by simpa using hd⟩⟩

end State.Leads

/-- How two runs end that were started in `s` and `s'`. -/
inductive Outcome.Matches (L : Token.Likeness) (deep : Prop) (k : Nat) (V : α → α → Prop)
    (s s' : State) : Outcome α → Outcome α → Prop where
  | done {a a' : α} {s₁ s₁' : State} (hv : V a a') (hs : s₁.Matches L s₁')
      (hl : s.Leads deep k s₁) (hl' : s'.Leads deep k s₁') :
      Matches L deep k V s s' (.done a s₁) (.done a' s₁')
  | refused {d d' : Diagnostic} {s₁ s₁' : State} (hd : d.Matches L d')
      (hc : d.cause ≠ .nestingTooDeep) (hs : s₁.Matches L s₁') (hl : s.Leads deep 0 s₁)
      (hl' : s'.Leads deep 0 s₁') :
      Matches L deep k V s s' (.stop (.refused d) s₁) (.stop (.refused d') s₁')
  | tooDeep {s₁ s₁' : State} (h : deep) (hs : s₁.Matches L s₁') (hl : s.Leads deep 0 s₁)
      (hl' : s'.Leads deep 0 s₁') :
      Matches L deep k V s s' (.stop .tooDeep s₁) (.stop .tooDeep s₁')
  | offEnd {s₁ s₁' : State} (hr : s₁.rest = []) (hs : s₁.Matches L s₁') (hl : s.Leads deep 0 s₁)
      (hl' : s'.Leads deep 0 s₁') :
      Matches L deep k V s s' (.stop .offEnd s₁) (.stop .offEnd s₁')

/-- From states that match and have at most `b` tokens left, two steps end alike, with values in `V`
and at least `k` tokens taken. -/
def Matches (L : Token.Likeness) (deep : Prop) (b k : Nat) (V : α → α → Prop) (p p' : Parser α) :
    Prop :=
  ∀ s s' : State, s.Matches L s' → s.rest.length ≤ b → (p s).Matches L deep k V s s' (p' s')

variable {V : α → α → Prop} {W : β → β → Prop} {b k i j : Nat} {s s' s₁ s₁' : State}

/-! ### Sequencing -/

namespace Outcome.Matches

/-- What was started later, seen from the start. -/
theorem behind {r r' : Outcome α} (h : r.Matches L deep j V s₁ s₁' r') (hl : s.Leads deep i s₁)
    (hl' : s'.Leads deep i s₁') (hk : k ≤ i + j) : r.Matches L deep k V s s' r' := by
  cases h with
  | done hv hs h h' => exact .done hv hs (hl.trans h hk) (hl'.trans h' hk)
  | refused hd hc hs h h' =>
      exact .refused hd hc hs (hl.trans h (Nat.zero_le _)) (hl'.trans h' (Nat.zero_le _))
  | tooDeep hd hs h h' =>
      exact .tooDeep hd hs (hl.trans h (Nat.zero_le _)) (hl'.trans h' (Nat.zero_le _))
  | offEnd hr hs h h' =>
      exact .offEnd hr hs (hl.trans h (Nat.zero_le _)) (hl'.trans h' (Nat.zero_le _))

theorem mono {V' : α → α → Prop} {r r' : Outcome α} (h : r.Matches L deep k V s s' r')
    (hk : j ≤ k) (hV : ∀ a a', V a a' → V' a a') : r.Matches L deep j V' s s' r' := by
  cases h with
  | done hv hs h h' => exact .done (hV _ _ hv) hs (h.mono hk) (h'.mono hk)
  | refused hd hc hs h h' => exact .refused hd hc hs h h'
  | tooDeep hd hs h h' => exact .tooDeep hd hs h h'
  | offEnd hr hs h h' => exact .offEnd hr hs h h'

/-- Sequencing, from one pair of states: what the first steps take counts towards what is owed. -/
theorem bind {p p' : Parser α} {f f' : α → Parser β} (hp : (p s).Matches L deep i V s s' (p' s'))
    (hf : ∀ a a' s₁ s₁', V a a' → s₁.Matches L s₁' → s.Leads deep i s₁ → s'.Leads deep i s₁' →
      (f a s₁).Matches L deep (k - i) W s₁ s₁' (f' a' s₁')) :
    ((p >>= f) s).Matches L deep k W s s' ((p' >>= f') s') := by
  show (andThen p f s).Matches L deep k W s s' (andThen p' f' s')
  rw [andThen, andThen]
  generalize p s = r at hp ⊢
  generalize p' s' = r' at hp ⊢
  cases hp with
  | done hv hs hl hl' => exact (hf _ _ _ _ hv hs hl hl').behind hl hl' (by omega)
  | refused hd hc hs hl hl' => exact .refused hd hc hs hl hl'
  | tooDeep hd hs hl hl' => exact .tooDeep hd hs hl hl'
  | offEnd hr hs hl hl' => exact .offEnd hr hs hl hl'

/-- Where no token is left there is nothing to do. -/
theorem ended (hs : s.Matches L s') (hr : s.rest = []) :
    (Outcome.stop .offEnd s).Matches L deep k V s s' (.stop .offEnd s') :=
  .offEnd hr hs (.refl s) (.refl s')

/-- A step by whether the next token is of one of some kinds, which is taken then. -/
theorem accept {kinds : List Kind} {f f' : Option Token → Parser α} (hs : s.Matches L s')
    (hnone : (f none s).Matches L deep k V s s' (f' none s'))
    (hsome : ∀ t t' s₁ s₁', L.Rel t t' → t.kind ∈ kinds → s₁.Matches L s₁' → s.Leads deep 1 s₁ →
      s'.Leads deep 1 s₁' → (f (some t) s₁).Matches L deep (k - 1) V s₁ s₁' (f' (some t') s₁')) :
    ((Parser.accept kinds >>= f) s).Matches L deep k V s s' ((Parser.accept kinds >>= f') s') := by
  obtain ⟨rest, n, ds⟩ := s
  obtain ⟨rest', n', ds'⟩ := s'
  obtain ⟨hr, hn, hd⟩ := hs
  obtain rfl : n = n' := hn
  cases hr with
  | nil => exact .ended ⟨.nil, rfl, hd⟩ rfl
  | @ended e e' h he rest rest' =>
      -- the end mark is never accepted, whatever stands behind it
      have hl : Parser.accept kinds ⟨e :: rest, n, ds⟩ = .done none ⟨e :: rest, n, ds⟩ := by
        simp [Parser.accept, he]
      have hr : Parser.accept kinds ⟨e' :: rest', n, ds'⟩ = .done none ⟨e' :: rest', n, ds'⟩ := by
        simp [Parser.accept, ← L.kind h, he]
      rw [bind_of_done hl, bind_of_done hr]
      exact hnone
  | @cons t t' rest rest' h hr =>
      by_cases ht : t.kind ≠ .eof ∧ t.kind ∈ kinds
      · have ht' : t'.kind ≠ .eof ∧ t'.kind ∈ kinds := by rwa [← L.kind h]
        rw [bind_of_done (accept_some ht.2 ht.1 rest n ds),
          bind_of_done (accept_some ht'.2 ht'.1 rest' n ds')]
        have hl : State.Leads deep 1 ⟨t :: rest, n, ds⟩ _ := .token ht.1 rest n ds
        have hl' : State.Leads deep 1 ⟨t' :: rest', n, ds'⟩ _ := .token ht'.1 rest' n ds'
        have hs : State.Matches L ⟨rest, n + 1, ds⟩ ⟨rest', n + 1, ds'⟩ := ⟨hr, rfl, hd⟩
        exact (hsome t t' _ _ h ht.2 hs hl hl').behind hl hl' (by omega)
      · have hl : Parser.accept kinds ⟨t :: rest, n, ds⟩ = .done none ⟨t :: rest, n, ds⟩ := by
          simp_all [Parser.accept]
        have hr : Parser.accept kinds ⟨t' :: rest', n, ds'⟩ = .done none ⟨t' :: rest', n, ds'⟩ := by
          rw [L.kind h] at ht
          simp_all [Parser.accept]
        rw [bind_of_done hl, bind_of_done hr]
        exact hnone

end Outcome.Matches

namespace Matches

variable {p p' : Parser α} {f f' : α → Parser β}

/-- Fewer tokens may be left, fewer are owed, and the values are as good or better. -/
theorem mono {V' : α → α → Prop} (h : Matches L deep b k V p p') (hb : i ≤ b) (hk : j ≤ k)
    (hV : ∀ a a', V a a' → V' a a') : Matches L deep i j V' p p' :=
  fun s s' hs hle => (h s s' hs (Nat.le_trans hle hb)).mono hk hV

/-- The same with fewer tokens left. -/
theorem fewer (h : Matches L deep b k V p p') (hb : i ≤ b) : Matches L deep i k V p p' :=
  h.mono hb (Nat.le_refl k) fun _ _ hv => hv

/-- The same, not saying that a token is taken. -/
theorem relax (h : Matches L deep b k V p p') : Matches L deep b 0 V p p' :=
  h.mono (Nat.le_refl b) (Nat.zero_le k) fun _ _ hv => hv

/-- Steps that match, and what comes after them where at least the tokens taken are fewer. -/
theorem bind (hp : Matches L deep b i V p p')
    (hf : ∀ a a' c, V a a' → c + i ≤ b → Matches L deep c (k - i) W (f a) (f' a')) :
    Matches L deep b k W (p >>= f) (p' >>= f') := by
  intro s s' hs hb
  refine (hp s s' hs hb).bind fun a a' s₁ s₁' hv hs₁ hl _ => ?_
  exact hf a a' s₁.rest.length hv (Nat.le_trans hl.length_le hb) s₁ s₁' hs₁ (Nat.le_refl _)

theorem pure {a a' : α} (hv : V a a') : Matches L deep b 0 V (pure a) (pure a') :=
  fun s s' hs _ => .done hv hs (.refl s) (.refl s')

theorem map {g g' : α → β} (hp : Matches L deep b k V p p') (hg : ∀ a a', V a a' → W (g a) (g' a')) :
    Matches L deep b k W (g <$> p) (g' <$> p') := by
  show Matches L deep b k W (p >>= fun a => Pure.pure (g a)) (p' >>= fun a => Pure.pure (g' a))
  refine hp.bind fun a a' _ hv _ => ?_
  rw [Nat.sub_self]
  exact pure (hg a a' hv)

theorem tooDeep (hd : deep) : Matches L deep b k V (fail .tooDeep) (fail .tooDeep) :=
  fun s s' hs _ => .tooDeep hd hs (.refl s) (.refl s')

theorem report {cause : Cause} (hc : cause ≠ .nestingTooDeep) {t t' : Token} (ht : L.Rel t t') :
    Matches L deep b 0 (fun _ _ => True) (report cause t) (report cause t') := by
  intro s s' hs _
  refine .done trivial ⟨hs.rest, hs.position, ?_⟩ (.diagnostic (fun h => absurd h hc) s)
    (.diagnostic (fun h => absurd h hc) s')
  exact List.rel_append hs.diagnostics (.cons ⟨rfl, ht, hs.position⟩ .nil)

/-- A step by whether the next token is of one of some kinds, which is taken then. -/
theorem accept {kinds : List Kind} {f f' : Option Token → Parser α}
    (hnone : Matches L deep b k V (f none) (f' none))
    (hsome : ∀ t t' c, L.Rel t t' → t.kind ∈ kinds → c + 1 ≤ b →
      Matches L deep c (k - 1) V (f (some t)) (f' (some t'))) :
    Matches L deep b k V (Parser.accept kinds >>= f) (Parser.accept kinds >>= f') := by
  intro s s' hs hb
  refine .accept hs (hnone s s' hs hb) fun t t' s₁ s₁' ht hk hs₁ hl _ => ?_
  exact hsome t t' s₁.rest.length ht hk (Nat.le_trans hl.length_le hb) s₁ s₁' hs₁ (Nat.le_refl _)

end Matches

/-! ### Single tokens -/

/-- What a step does with two tokens that are like each other: it keeps both, or takes both, which
are not for the end, or refuses both. -/
inductive Look.Matches (k : Nat) (V : α → α → Prop) (t : Token) : Look α → Look α → Prop where
  | keep {a a' : α} (hv : V a a') (hk : k = 0) : Matches k V t (.keep a) (.keep a')
  | take {a a' : α} (hv : V a a') (hk : k ≤ 1) (ht : t.kind ≠ .eof) :
      Matches k V t (.take a) (.take a')
  | refuse {cause : Cause} (hc : cause ≠ .nestingTooDeep) : Matches k V t (.refuse cause) (.refuse cause)

/-- A step by the next token matches if it does the same with tokens that are like each other. -/
theorem look_matches {f f' : Token → Look α}
    (hf : ∀ t t', L.Rel t t' → (f t).Matches k V t (f' t')) :
    Matches L deep b k V (look f) (look f') := by
  rintro ⟨rest, n, ds⟩ ⟨rest', n', ds'⟩ hs -
  obtain ⟨hr, rfl, hd⟩ := hs
  cases hr with
  | nil => exact .ended ⟨.nil, rfl, hd⟩ rfl
  | @ended e e' h he rest rest' =>
      have hs : State.Matches L ⟨e :: rest, n, ds⟩ ⟨e' :: rest', n, ds'⟩ :=
        ⟨.ended h he rest rest', rfl, hd⟩
      have hl := hf e e' h
      generalize hft : f e = l at hl
      generalize hft' : f' e' = l' at hl
      cases hl with
      | keep hv hk =>
          rw [look_keep hft, look_keep hft']
          exact .done hv hs (hk ▸ .refl _) (hk ▸ .refl _)
      | take _ _ ht => exact absurd he ht
      | refuse hc =>
          rw [look_refuse hft, look_refuse hft']
          exact .refused ⟨rfl, h, rfl⟩ hc hs (.refl _) (.refl _)
  | @cons t t' rest rest' h hr =>
      have hs : State.Matches L ⟨t :: rest, n, ds⟩ ⟨t' :: rest', n, ds'⟩ := ⟨.cons h hr, rfl, hd⟩
      have hl := hf t t' h
      generalize hft : f t = l at hl
      generalize hft' : f' t' = l' at hl
      cases hl with
      | keep hv hk =>
          rw [look_keep hft, look_keep hft']
          exact .done hv hs (hk ▸ .refl _) (hk ▸ .refl _)
      | take hv hk ht =>
          have ht' : t'.kind ≠ .eof := by rwa [← L.kind h]
          rw [look_take hft, look_take hft']
          exact .done hv ⟨hr, rfl, hd⟩ ((State.Leads.token ht rest n ds).mono hk)
            ((State.Leads.token ht' rest' n ds').mono hk)
      | refuse hc =>
          rw [look_refuse hft, look_refuse hft']
          exact .refused ⟨rfl, h, rfl⟩ hc hs (.refl _) (.refl _)

namespace Matches

theorem peek : Matches L deep b 0 L.Rel peek peek := by
  rw [peek_eq_look]
  exact look_matches fun t t' ht => .keep ht rfl

theorem check (kind : Kind) : Matches L deep b 0 Eq (check kind) (check kind) := by
  rw [check_eq_look]
  refine look_matches fun t t' ht => .keep ?_ rfl
  rw [L.kind ht]

theorem expect {kind : Kind} {cause : Cause} (hc : cause ≠ .nestingTooDeep) :
    Matches L deep b 1 L.Rel (expect kind cause) (expect kind cause) := by
  rw [expect_eq_look]
  refine look_matches fun t t' ht => ?_
  rw [L.kind ht]
  split
  · rename_i hk
    simp only [Bool.and_eq_true, decide_eq_true_eq] at hk
    exact .take ht (Nat.le_refl 1) (L.kind ht ▸ hk.1)
  · exact .refuse hc

end Matches

/-! ### Repetition -/

/-- Bounds as long as the tokens left: no token is left, or neither bound is used up, and behind a
round that takes a token both are long enough again. -/
theorem State.Matches.round (deep : Prop) {bound bound' : List Token} (hs : s.Matches L s')
    (hb : s.rest.length ≤ bound.length) (hb' : s'.rest.length ≤ bound'.length) :
    (s.rest = [] ∧ s'.rest = []) ∨
    ∃ t us t' us', bound = t :: us ∧ bound' = t' :: us' ∧
      ∀ s₁ s₁' : State, s.Leads deep 1 s₁ → s'.Leads deep 1 s₁' →
        s₁.rest.length ≤ us.length ∧ s₁'.rest.length ≤ us'.length := by
  by_cases hr : s.rest = []
  · exact .inl ⟨hr, hs.rest.eq_nil_iff.mp hr⟩
  · have hr' : s'.rest ≠ [] := fun h => hr (hs.rest.eq_nil_iff.mpr h)
    have hpos := List.length_pos_of_ne_nil hr
    have hpos' := List.length_pos_of_ne_nil hr'
    obtain ⟨t, us, rfl⟩ := List.exists_cons_of_length_pos (Nat.lt_of_lt_of_le hpos hb)
    obtain ⟨t', us', rfl⟩ := List.exists_cons_of_length_pos (Nat.lt_of_lt_of_le hpos' hb')
    refine .inr ⟨t, us, t', us', rfl, rfl, fun s₁ s₁' hl hl' => ?_⟩
    have hle := hl.length_le
    have hle' := hl'.length_le
    simp only [List.length_cons] at hb hb'
    exact ⟨by omega, by omega⟩

/-- Operators join operands that match to what matches. -/
def Joins (L : Token.Likeness) (join : Node → Token → Node → Node) : Prop :=
  ∀ {l l' r r' : Node} {o o' : Token}, l.Matches L l' → L.Rel o o' → r.Matches L r' →
    (join l o r).Matches L (join l' o' r')

section Loops

variable {kinds : List Kind} {join : Node → Token → Node → Node} {operand operand' : Parser Node}

/-- Without a token there is no round. -/
theorem joinLeft_nil (h : s.rest = []) (bound : List Token) (left : Node) :
    joinLeft kinds operand join bound left s = .stop .offEnd s := by
  cases bound with
  | nil => rfl
  | cons t bound => simp [joinLeft, accept, h]

/-- The rounds of a chain of operators, by induction on the tokens left.  Each round takes one, so both
bounds last. -/
theorem joinLeft_matches (hj : Joins L join)
    (ho : Matches L deep b k (Node.Matches L) operand operand') {bound bound' : List Token}
    {left left' : Node} (hl : left.Matches L left') (hs : s.Matches L s') (hle : s.rest.length ≤ b)
    (hb : s.rest.length ≤ bound.length) (hb' : s'.rest.length ≤ bound'.length) :
    (joinLeft kinds operand join bound left s).Matches L deep 0 (Node.Matches L) s s'
      (joinLeft kinds operand' join bound' left' s') := by
  induction bound generalizing bound' left left' s s' with
  | nil =>
      have hr : s.rest = [] := List.eq_nil_of_length_eq_zero (Nat.le_zero.mp hb)
      rw [joinLeft_nil hr, joinLeft_nil (hs.rest.eq_nil_iff.mp hr)]
      exact .ended hs hr
  | cons t bound ih =>
      obtain ⟨hr, hr'⟩ | ⟨_, _, t', us', hbound, rfl, hround⟩ := hs.round deep hb hb'
      · rw [joinLeft_nil hr, joinLeft_nil hr']
        exact .ended hs hr
      · cases hbound
        rw [joinLeft_cons, joinLeft_cons]
        refine .accept hs (.done hl hs (.refl s) (.refl s')) fun o o' s₁ s₁' ho' _ hs₁ hl₁ hl₁' => ?_
        have hle₁ := hl₁.length_le
        refine (ho s₁ s₁' hs₁ (by omega)).bind fun r r' s₂ s₂' hr hs₂ hl₂ hl₂' => ?_
        have h₂ := hl₁.trans hl₂ (Nat.le_add_right 1 k)
        have h₂' := hl₁'.trans hl₂' (Nat.le_add_right 1 k)
        have hle₂ := h₂.length_le
        exact (ih (hj hl ho' hr) hs₂ (by omega) (hround _ _ h₂ h₂').1
          (hround _ _ h₂ h₂').2).mono (by omega) fun _ _ hv => hv

/-- A chain is an operand and its rounds. -/
theorem leftAssoc_eq_bind :
    leftAssoc kinds join operand =
      operand >>= fun left s => joinLeft kinds operand join s.rest left s := by
  funext s
  show _ = andThen _ _ s
  simp only [leftAssoc, andThen]
  cases operand s <;> rfl

/-- Chains of operators, if what joins the operands keeps the likeness. -/
theorem leftAssoc_matches (hj : Joins L join)
    (ho : Matches L deep b k (Node.Matches L) operand operand') :
    Matches L deep b k (Node.Matches L) (leftAssoc kinds join operand)
      (leftAssoc kinds join operand') := by
  rw [leftAssoc_eq_bind, leftAssoc_eq_bind]
  refine ho.bind fun left left' c hl hc => ?_
  rw [Nat.sub_self]
  exact fun s s' hs hle =>
    joinLeft_matches hj ho hl hs (by omega) (Nat.le_refl _) (Nat.le_refl _)

variable {entry entry' : Parser α} {tooMany : Cause}

theorem entriesFrom_nil (h : s.rest = []) (bound : List Token) (found : List α) :
    entriesFrom tooMany entry bound found s = .stop .offEnd s := by
  cases bound with
  | nil => rfl
  | cons t bound => simp [entriesFrom, h]

/-- The rounds of a list of entries, in the same way. -/
theorem entriesFrom_matches (hc : tooMany ≠ .nestingTooDeep)
    (he : Matches L deep b k V entry entry') {bound bound' : List Token} {found found' : List α}
    (hf : List.Forall₂ V found found') (hs : s.Matches L s') (hle : s.rest.length ≤ b)
    (hb : s.rest.length ≤ bound.length) (hb' : s'.rest.length ≤ bound'.length) :
    (entriesFrom tooMany entry bound found s).Matches L deep 0 (List.Forall₂ V) s s'
      (entriesFrom tooMany entry' bound' found' s') := by
  induction bound generalizing bound' found found' s s' with
  | nil =>
      have hr : s.rest = [] := List.eq_nil_of_length_eq_zero (Nat.le_zero.mp hb)
      rw [entriesFrom_nil hr, entriesFrom_nil (hs.rest.eq_nil_iff.mp hr)]
      exact .ended hs hr
  | cons t bound ih =>
      obtain ⟨hr, hr'⟩ | ⟨_, _, t', us', hbound, rfl, hround⟩ := hs.round deep hb hb'
      · rw [entriesFrom_nil hr, entriesFrom_nil hr']
        exact .ended hs hr
      · cases hbound
        rw [entriesFrom_cons, entriesFrom_cons, ← hf.length_eq]
        refine (Matches.peek s s' hs hle).bind fun u u' s₁ s₁' hu hs₁ hl₁ hl₁' => ?_
        have hnoted : Matches L deep b 0 (fun _ _ => True)
            (if maxArguments ≤ found.length then report tooMany u else pure ())
            (if maxArguments ≤ found.length then report tooMany u' else pure ()) := by
          split
          · exact Matches.report hc hu
          · exact Matches.pure trivial
        have hle₁ := hl₁.length_le
        refine (hnoted s₁ s₁' hs₁ (by omega)).bind fun _ _ s₂ s₂' _ hs₂ hl₂ hl₂' => ?_
        have hle₂ := hl₂.length_le
        refine ((he s₂ s₂' hs₂ (by omega)).mono (Nat.zero_le k) fun _ _ hv => hv).bind
          fun a a' s₃ s₃' ha hs₃ hl₃ hl₃' => ?_
        have hfound : List.Forall₂ V (a :: found) (a' :: found') := .cons ha hf
        refine .accept hs₃ (.done (List.rel_reverse hfound) hs₃ (.refl _) (.refl _))
          fun _ _ s₄ s₄' _ _ hs₄ hl₄ hl₄' => ?_
        -- the comma has been read, so the rest is shorter
        have h₄ : s.Leads deep 1 s₄ :=
          hl₁.trans (hl₂.trans (hl₃.trans hl₄ (Nat.le_refl _)) (Nat.le_refl _)) (Nat.le_refl _)
        have h₄' : s'.Leads deep 1 s₄' :=
          hl₁'.trans (hl₂'.trans (hl₃'.trans hl₄' (Nat.le_refl _)) (Nat.le_refl _)) (Nat.le_refl _)
        have hle₄ := h₄.length_le
        exact ih hfound hs₄ (by omega) (hround _ _ h₄ h₄').1 (hround _ _ h₄ h₄').2

theorem entries_matches (hc : tooMany ≠ .nestingTooDeep) (he : Matches L deep b k V entry entry') :
    Matches L deep b 0 (List.Forall₂ V) (entries tooMany entry) (entries tooMany entry') := by
  refine (Matches.check .rightParen).bind fun x x' c hx hle => ?_
  subst hx
  cases x with
  | true => exact Matches.pure .nil
  | false =>
      exact fun s s' hs hs' =>
        entriesFrom_matches hc he .nil hs (by omega) (Nat.le_refl _) (Nat.le_refl _)

end Loops

/-! ### Expressions -/

theorem joins_binary : Joins L Node.binary := fun hl ho hr => .binary hl ho hr

theorem joins_logical : Joins L Node.logical := fun hl ho hr => .logical hl ho hr

/-- All levels of operators between the unary ones and an assignment. -/
theorem operatorLevels_matches {operand operand' : Parser Node}
    (ho : Matches L deep b k (Node.Matches L) operand operand') :
    Matches L deep b k (Node.Matches L) (operatorLevels operand) (operatorLevels operand') := by
  refine leftAssoc_matches joins_logical (leftAssoc_matches joins_logical ?_)
  iterate 4 refine leftAssoc_matches joins_binary ?_
  exact ho

section Calls

variable {expression expression' : Parser Node}
  (he : ∀ c, c + 1 ≤ b → Matches L deep c 1 (Node.Matches L) expression expression')

/-- Tokens that are like each other start the same expression. -/
theorem primaryLook_matches {t t' : Token} (ht : L.Rel t t') :
    (primaryLook t).Matches 1 (Option.Rel (Node.Matches L)) t (primaryLook t') := by
  simp only [primaryLook, ← L.kind ht, ← L.literal ht]
  split
  case h_6 h => exact .take (.some (.reference ht)) (Nat.le_refl 1) (by rw [h]; decide)
  case h_7 h => exact .take .none (Nat.le_refl 1) (by rw [h]; decide)
  case h_8 => exact .refuse (by decide)
  all_goals
    rename_i h
    exact .take (.some (.plain rfl)) (Nat.le_refl 1) (by rw [h]; decide)

include he

/-- What expressions start with, and it takes a token. -/
theorem primary_matches :
    Matches L deep b 1 (Node.Matches L) (primary expression) (primary expression') := by
  rw [primary_eq_look, primary_eq_look]
  refine (look_matches fun t t' ht => primaryLook_matches ht).bind fun o o' c ho hc => ?_
  cases ho with
  | some h => exact Matches.pure h
  | none =>
      refine (he c hc).bind fun e e' c' h hc' => ?_
      exact (Matches.expect (by decide)).bind fun _ _ _ _ _ => Matches.pure (.grouping h)

theorem argumentList_matches {c : Nat} (hc : c + 1 ≤ b) :
    Matches L deep c 0 (fun x x' => List.Forall₂ (Node.Matches L) x.1 x'.1 ∧ L.Rel x.2 x'.2)
      (argumentList expression) (argumentList expression') := by
  refine (entries_matches (by decide) (he c hc)).bind fun as as' _ has _ => ?_
  exact (Matches.expect (by decide)).bind fun _ _ _ hp _ => Matches.pure ⟨has, hp⟩

omit he in
theorem callsFrom_nil (h : s.rest = []) (bound : List Token) (callee : Node) :
    callsFrom expression bound callee s = .stop .offEnd s := by
  cases bound with
  | nil => rfl
  | cons t bound => simp [callsFrom, accept, h]

/-- The argument lists behind what is called, in lockstep. -/
theorem callsFrom_matches {bound bound' : List Token} {callee callee' : Node}
    (hc : callee.Matches L callee') (hs : s.Matches L s') (hle : s.rest.length ≤ b)
    (hb : s.rest.length ≤ bound.length) (hb' : s'.rest.length ≤ bound'.length) :
    (callsFrom expression bound callee s).Matches L deep 0 (Node.Matches L) s s'
      (callsFrom expression' bound' callee' s') := by
  induction bound generalizing bound' callee callee' s s' with
  | nil =>
      have hr : s.rest = [] := List.eq_nil_of_length_eq_zero (Nat.le_zero.mp hb)
      rw [callsFrom_nil hr, callsFrom_nil (hs.rest.eq_nil_iff.mp hr)]
      exact .ended hs hr
  | cons t bound ih =>
      obtain ⟨hr, hr'⟩ | ⟨_, _, t', us', hbound, rfl, hround⟩ := hs.round deep hb hb'
      · rw [callsFrom_nil hr, callsFrom_nil hr']
        exact .ended hs hr
      · cases hbound
        rw [callsFrom_cons, callsFrom_cons]
        refine .accept hs (.done hc hs (.refl s) (.refl s')) fun _ _ s₁ s₁' _ _ hs₁ hl₁ hl₁' => ?_
        have hle₁ := hl₁.length_le
        refine (argumentList_matches he (by omega) s₁ s₁' hs₁ (Nat.le_refl _)).bind
          fun x x' s₂ s₂' hx hs₂ hl₂ hl₂' => ?_
        have h₂ : s.Leads deep 1 s₂ := hl₁.trans hl₂ (Nat.le_refl _)
        have h₂' : s'.Leads deep 1 s₂' := hl₁'.trans hl₂' (Nat.le_refl _)
        have hle₂ := h₂.length_le
        exact ih (.call hc hx.2 hx.1) hs₂ (by omega) (hround _ _ h₂ h₂').1 (hround _ _ h₂ h₂').2

omit he in
theorem call_eq_bind :
    call expression = primary expression >>= fun callee s => callsFrom expression s.rest callee s := by
  funext s
  show _ = andThen _ _ s
  simp only [call, andThen]
  cases primary expression s <;> rfl

theorem call_matches :
    Matches L deep b 1 (Node.Matches L) (call expression) (call expression') := by
  rw [call_eq_bind, call_eq_bind]
  refine (primary_matches he).bind fun callee callee' c hc hle => ?_
  exact fun s s' hs hs' =>
    callsFrom_matches he hc hs (by omega) (Nat.le_refl _) (Nat.le_refl _)

end Calls

/-- Targets that match are taken or refused alike. -/
theorem assignTo_matches {target target' value value' : Node} {t t' : Token}
    (h : target.Matches L target') (ht : L.Rel t t') (hv : value.Matches L value') :
    Matches L deep b 0 (Node.Matches L) (assignTo target t value) (assignTo target' t' value') := by
  have hother : Matches L deep b 0 (Node.Matches L)
      (do report .invalidAssignmentTarget t; pure target)
      (do report .invalidAssignmentTarget t'; pure target') :=
    (Matches.report (by decide) ht).bind fun _ _ _ _ _ => Matches.pure h
  cases h with
  | reference hn => exact Matches.pure (.assign hn hv)
  | plain hn =>
      cases target with
      | reference => cases hn
      | _ => exact hother
  | _ => exact hother

/-- Two nesting budgets that come to the same: they are equal, or so many tokens use up neither. -/
def Budgets (deep : Prop) (needed d d' : Nat) : Prop :=
  (deep ∧ d = d') ∨ (needed < d ∧ needed < d')

namespace Budgets

variable {m n d d' : Nat}

/-- Where a budget is used up, so is the other one, and the nesting may be too deep. -/
theorem zero (h : Budgets deep m 0 d') : deep ∧ d' = 0 := by
  obtain ⟨hd, rfl⟩ | ⟨h, -⟩ := h
  · exact ⟨hd, rfl⟩
  · exact absurd h (Nat.not_lt_zero m)

/-- One level further down, what is left of both budgets still comes to the same. -/
theorem succ (h : Budgets deep m (d + 1) d') :
    ∃ n', d' = n' + 1 ∧ ∀ n, n + 1 ≤ m → Budgets deep n d n' := by
  obtain ⟨hd, rfl⟩ | ⟨h, h'⟩ := h
  · exact ⟨d, rfl, fun _ _ => .inl ⟨hd, rfl⟩⟩
  · obtain ⟨n', rfl⟩ := Nat.exists_eq_add_of_lt (Nat.lt_of_le_of_lt (Nat.zero_le m) h')
    exact ⟨n', by omega, fun n hn => .inr ⟨by omega, by omega⟩⟩

end Budgets

/-- Expressions are read in lockstep.  An expression of `b` tokens is nested at most `2 * b + 1` deep:
every second level of nesting takes a token. -/
theorem assignment_unary_matches (d d' : Nat) :
    (∀ b, Budgets deep (2 * b + 1) d d' →
      Matches L deep b 1 (Node.Matches L) (assignment d) (assignment d')) ∧
    ∀ b, Budgets deep (2 * b) d d' →
      Matches L deep b 1 (Node.Matches L) (unary d) (unary d') := by
  induction d generalizing d' with
  | zero =>
      refine ⟨fun b h => ?_, fun b h => ?_⟩
      · obtain ⟨hd, rfl⟩ := h.zero
        exact Matches.tooDeep hd
      · obtain ⟨hd, rfl⟩ := h.zero
        exact Matches.tooDeep hd
  | succ d ih =>
      refine ⟨fun b h => ?_, fun b h => ?_⟩
      · obtain ⟨d', rfl, hd⟩ := h.succ
        rw [assignment, assignment]
        refine (operatorLevels_matches ((ih d').2 b (hd _ (Nat.le_refl _)))).bind
          fun target target' c ht hc => ?_
        refine Matches.accept (Matches.pure ht) fun t t' c' heq _ hc' => ?_
        refine ((ih d').1 c' (hd _ (by omega))).bind fun value value' _ hv _ => ?_
        exact assignTo_matches ht heq hv
      · obtain ⟨d', rfl, hd⟩ := h.succ
        rw [unary, unary]
        refine Matches.accept ?_ fun t t' c ht _ hc => ?_
        · exact call_matches fun c hc => (ih d').1 c (hd _ (by omega))
        · refine ((ih d').2 c (hd _ (by omega))).bind fun e e' _ h _ => ?_
          exact Matches.pure (.unary ht h)

/-- Expressions with two budgets that come to the same. -/
theorem assignment_matches {d d' : Nat} (h : Budgets deep (2 * b + 1) d d') :
    Matches L deep b 1 (Node.Matches L) (assignment d) (assignment d') :=
  (assignment_unary_matches d d').1 b h

end Parser

end Lox
