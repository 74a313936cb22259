import Lox.Proofs.Grammar.Relaxed
import Lox.Proofs.Parser.Ends

/-!
# What may follow

A parser that never goes back has to know at every token whether there is a way to go on.  The ways are
languages over the kinds of tokens: `Exact M K p` says that `p`, run where the tokens ahead should be in
`M`, takes what leads from `M` to `K`, and is refused only at a token with which nothing in `M` goes on
while something did up to there.

* `Exact.bind`: sequencing is transitivity.
* `Outcome.Exact.widen`: of `M`, only the lists that start with the next token matter.
* `Exact.accept`, `Exact.check`, `Exact.expect`: a step by the next token divides `M` by it.
* `ReadsAs kinds X p`: `p` reads a phrase of `X`, whatever follows it, as long as that does not start
  with one of `kinds`, with which the phrase would go on.  This holds of all expressions
  (`assignment_unary_readsAs`).
-/

namespace Lox

/-- The kinds of a list of tokens. -/
def Token.kinds (ts : List Token) : List Kind := ts.map Token.kind

namespace Parser

open Grammar.Relaxed
open Computability

variable {α β : Type} {L M K M' : Language Kind} {s s₁ : State} {r : Outcome α}

/-- Nothing was refused so far: all diagnostics are only reports. -/
def State.Clean (s : State) : Prop := ∀ d ∈ s.diagnostics, d.cause.isReported = true

/-- At the token of `d`, some tokens behind `s`, there is no way to go on in `M`, and up to there one
was. -/
def FailsAt (M : Language Kind) (s : State) (d : Diagnostic) : Prop :=
  ∃ ts rest, s.rest = ts ++ d.token :: rest ∧ d.position = s.position + ts.length ∧
    (∃ u, Token.kinds ts ++ u ∈ M) ∧ ∀ u, Token.kinds ts ++ d.token.kind :: u ∉ M

/-- How a step ends from a state in which nothing was refused, if the tokens ahead should be in `M` and
those behind the step in `K`. -/
inductive Outcome.Verdict (M K : Language Kind) (s : State) : Outcome α → Prop where
  /-- What was taken leads from `M` to `K`: every list of `K` may follow in `M`, and what may follow in
  `M` is in `K` if it starts with the next token. -/
  | done {a : α} {s₁ : State} (ts : List Token) (hc : s₁.Clean) (hr : s.rest = ts ++ s₁.rest)
      (hp : s₁.position = s.position + ts.length)
      (hK : ∀ u ∈ K, Token.kinds ts ++ u ∈ M)
      (hM : ∀ t rest, s₁.rest = t :: rest → ∀ u, Token.kinds ts ++ t.kind :: u ∈ M → t.kind :: u ∈ K) :
      Verdict M K s (.done a s₁)
  /-- The step is refused at a token with which there is no way to go on. -/
  | refused {d : Diagnostic} {s₁ : State} (hc : s₁.Clean) (hd : d.cause.isReported = false)
      (hf : FailsAt M s d) : Verdict M K s (.stop (.refused d) s₁)
  /-- The first refusal is noted already. -/
  | noted {r : Outcome α} {ds : List Diagnostic} {d : Diagnostic}
      (h : ds ++ [d] <+: r.state.diagnostics) (hc : ∀ d ∈ ds, d.cause.isReported = true)
      (hd : d.cause.isReported = false) (hf : d.cause = .nestingTooDeep ∨ FailsAt M s d) :
      Verdict M K s r
  | tooDeep {s₁ : State} (hc : s₁.Clean) : Verdict M K s (.stop .tooDeep s₁)
  | offEnd {s₁ : State} : Verdict M K s (.stop .offEnd s₁)

/-- The end of a step, from any state: diagnostics are only added. -/
structure Outcome.Exact (M K : Language Kind) (s : State) (r : Outcome α) : Prop where
  grows : s.diagnostics <+: r.state.diagnostics
  verdict : s.Clean → r.Verdict M K s

/-- Where the tokens ahead should be in `M`, the step takes what leads to `K`, and is refused at the
first token with which there is no way to go on. -/
def Exact (M K : Language Kind) (p : Parser α) : Prop := ∀ s, (p s).Exact M K s

/-! ### Sequencing -/

/-- What may follow starts with the next token. -/
theorem cons_kinds_append {ts rest rest' : List Token} {t : Token} (h : rest = ts ++ t :: rest')
    (u : List Kind) : ∃ t' rest'' u', rest = t' :: rest'' ∧
      Token.kinds ts ++ t.kind :: u = t'.kind :: u' := by
  cases ts with
  | nil => exact ⟨t, rest', u, h, rfl⟩
  | cons t' ts => exact ⟨t', _, _, h, rfl⟩

/-- A failure behind some tokens that lead from `M` to `L`. -/
theorem FailsAt.behind {ts : List Token} {d : Diagnostic} (h : FailsAt L s₁ d)
    (hr : s.rest = ts ++ s₁.rest) (hp : s₁.position = s.position + ts.length)
    (hL : ∀ u ∈ L, Token.kinds ts ++ u ∈ M)
    (hM : ∀ t rest, s₁.rest = t :: rest → ∀ u, Token.kinds ts ++ t.kind :: u ∈ M → t.kind :: u ∈ L) :
    FailsAt M s d := by
  obtain ⟨us, rest, hus, hpos, ⟨u, hu⟩, hdead⟩ := h
  refine ⟨ts ++ us, rest, ?_, ?_, ⟨u, ?_⟩, fun v hv => ?_⟩
  · rw [hr, hus, List.append_assoc]
  · rw [hpos, hp, List.length_append, Nat.add_assoc]
  · rw [Token.kinds, List.map_append, List.append_assoc]
    exact hL _ hu
  · rw [Token.kinds, List.map_append, List.append_assoc] at hv
    obtain ⟨t', rest', u', hnext, heq⟩ := cons_kinds_append hus v
    refine hdead v ?_
    rw [heq]
    refine hM t' rest' hnext u' ?_
    rw [← heq]
    exact hv

/-- Sequencing, from one state: a way from `M` to `L` and one from `L` to `K` make one. -/
theorem Outcome.Exact.bind {p : Parser α} {f : α → Parser β} (hp : (p s).Exact M L s)
    (hf : ∀ a s₁, p s = .done a s₁ → (f a s₁).Exact L K s₁) : ((p >>= f) s).Exact M K s := by
  show (andThen p f s).Exact M K s
  rw [andThen]
  generalize p s = r at hp hf ⊢
  cases r with
  | stop why s₁ =>
      refine ⟨hp.grows, fun hc => ?_⟩
      cases hp.verdict hc with
      | refused hc hd hfail => exact .refused hc hd hfail
      | noted h hc hd hfail => exact .noted h hc hd hfail
      | tooDeep hc => exact .tooDeep hc
      | offEnd => exact .offEnd
  | done a s₁ =>
      have hf := hf a s₁ rfl
      refine ⟨hp.grows.trans hf.grows, fun hc => ?_⟩
      dsimp only
      cases hp.verdict hc with
      | noted h hc hd hfail => exact .noted (h.trans hf.grows) hc hd hfail
      | done ts hc₁ hr hpos hL hM =>
          -- no error yet, so the second step decides
          have hv := hf.verdict hc₁
          generalize f a s₁ = r at hv ⊢
          cases hv with
          | done us hc₂ hr₂ hpos₂ hK hM₂ =>
              refine .done (ts ++ us) hc₂ ?_ ?_ (fun u hu => ?_) fun t rest hnext u hu => ?_
              · rw [hr, hr₂, List.append_assoc]
              · rw [hpos₂, hpos, List.length_append, Nat.add_assoc]
              · rw [Token.kinds, List.map_append, List.append_assoc]
                exact hL _ (hK u hu)
              · rw [Token.kinds, List.map_append, List.append_assoc] at hu
                rw [hnext] at hr₂
                -- the first step leaves the tokens of the second and what is left behind them
                obtain ⟨t', rest', u', hnext', heq⟩ := cons_kinds_append hr₂ u
                refine hM₂ t rest hnext u ?_
                rw [heq]
                refine hM t' rest' hnext' u' ?_
                rw [← heq]
                exact hu
          | refused hc₂ hd hfail => exact .refused hc₂ hd (hfail.behind hr hpos hL hM)
          | noted h hc₂ hd hfail =>
              exact .noted h hc₂ hd (hfail.imp_right fun h => h.behind hr hpos hL hM)
          | tooDeep hc₂ => exact .tooDeep hc₂
          | offEnd => exact .offEnd

/-- What may be ahead matters only as far as it starts with the next token. -/
theorem Outcome.Exact.widen (h : r.Exact M' K s) (hsub : M' ≤ M)
    (hnext : ∀ t rest, s.rest = t :: rest → ∀ u, t.kind :: u ∈ M → t.kind :: u ∈ M') :
    r.Exact M K s := by
  have hfail : ∀ d, FailsAt M' s d → FailsAt M s d := by
    rintro d ⟨ts, rest, hr, hp, ⟨u, hu⟩, hdead⟩
    refine ⟨ts, rest, hr, hp, ⟨u, hsub hu⟩, fun v hv => hdead v ?_⟩
    obtain ⟨t', rest', u', hnext', heq⟩ := cons_kinds_append hr v
    rw [heq] at hv ⊢
    exact hnext t' rest' hnext' u' hv
  refine ⟨h.grows, fun hc => ?_⟩
  cases h.verdict hc with
  | done ts hc₁ hr hp hK hM =>
      refine .done ts hc₁ hr hp (fun u hu => hsub (hK u hu)) fun t rest hn u hu => ?_
      refine hM t rest hn u ?_
      rw [hn] at hr
      obtain ⟨t', rest', u', hnext', heq⟩ := cons_kinds_append hr u
      rw [heq] at hu ⊢
      exact hnext t' rest' hnext' u' hu
  | refused hc₁ hd hf => exact .refused hc₁ hd (hfail _ hf)
  | noted h hc₁ hd hf => exact .noted h hc₁ hd (hf.imp_right (hfail _))
  | tooDeep hc₁ => exact .tooDeep hc₁
  | offEnd => exact .offEnd

/-- No list of the language starts with one of these kinds. -/
def Avoids (kinds : List Kind) (K : Language Kind) : Prop := ∀ k u, k :: u ∈ K → k ∉ kinds

namespace Exact

/-- Steps are put together like ways from one language to the next. -/
theorem bind {p : Parser α} {f : α → Parser β} (hp : Exact M L p) (hf : ∀ a, Exact L K (f a)) :
    Exact M K (p >>= f) :=
  fun s => (hp s).bind fun a s₁ _ => hf a s₁

/-- A step that takes nothing and adds only reports. -/
theorem stay {p : Parser α}
    (h : ∀ s, ∃ a ds, p s = .done a { s with diagnostics := s.diagnostics ++ ds } ∧
      ∀ d ∈ ds, d.cause.isReported = true) : Exact M M p := by
  intro s
  obtain ⟨a, ds, hp, hds⟩ := h s
  rw [hp]
  refine ⟨List.prefix_append _ _, fun hc => ?_⟩
  refine .done [] (fun d hd => ?_) rfl rfl (fun _ hu => hu) fun _ _ _ _ hu => hu
  exact (List.mem_append.mp hd).elim (hc d) (hds d)

theorem pure (a : α) : Exact M M (pure a) := by
  refine stay fun s => ⟨a, [], ?_, fun _ hd => nomatch hd⟩
  rw [List.append_nil]
  rfl

/-- A report that refuses nothing leaves the ways as they are. -/
theorem report {cause : Cause} (hc : cause.isReported = true) (t : Token) :
    Exact M M (report cause t) :=
  stay fun s => ⟨(), [⟨cause, t, s.position⟩], rfl, by simpa using hc⟩

theorem map {p : Parser α} (f : α → β) (hp : Exact M K p) : Exact M K (f <$> p) :=
  hp.bind fun a => pure (f a)

theorem tooDeep : Exact M K (fail .tooDeep : Parser α) :=
  fun s => ⟨List.prefix_refl s.diagnostics, fun hc => .tooDeep hc⟩

theorem offEnd : Exact M K (fail .offEnd : Parser α) :=
  fun s => ⟨List.prefix_refl s.diagnostics, fun _ => .offEnd⟩

/-! ### Single tokens -/

/-- A step by the next token, and what follows it. -/
theorem look {f : Token → Look α} {g : α → Parser β}
    (htake : ∀ t a, f t = .take a → ∃ Q, (∀ u, t.kind :: u ∈ M ↔ u ∈ Q) ∧ Exact Q K (g a))
    (hkeep : ∀ t a, f t = .keep a → ∃ M' ≤ M, (∀ u, t.kind :: u ∈ M → t.kind :: u ∈ M') ∧
      Exact M' K (g a))
    (hrefuse : ∀ t cause, f t = .refuse cause → cause.isReported = false ∧ Nonvoid M ∧
      ∀ u, t.kind :: u ∉ M) :
    Exact M K (Parser.look f >>= g) := by
  rintro ⟨_ | ⟨t, rest⟩, n, ds⟩
  · exact ⟨List.prefix_refl ds, fun _ => .offEnd⟩
  · cases hft : f t with
    | take a =>
        obtain ⟨Q, hQ, hg⟩ := htake t a hft
        refine Outcome.Exact.bind (L := Q) ?_ fun b s₁ h => ?_
        · rw [look_take hft]
          refine ⟨List.prefix_refl ds, fun hc => .done [t] hc rfl rfl ?_ ?_⟩
          · exact fun u hu => (hQ u).mpr hu
          · exact fun t' _ _ u hu => (hQ _).mp hu
        · rw [look_take hft] at h
          cases h
          exact hg _
    | keep a =>
        obtain ⟨M', hsub, hnext, hg⟩ := hkeep t a hft
        rw [bind_of_done (look_keep hft rest n ds)]
        refine (hg _).widen hsub fun t' rest' hr u hu => ?_
        cases hr
        exact hnext u hu
    | refuse cause =>
        obtain ⟨hc, hM, hdead⟩ := hrefuse t cause hft
        show (andThen (Parser.look f) g _).Exact M K _
        rw [andThen, look_refuse hft]
        exact ⟨List.prefix_refl ds, fun hclean =>
          .refused hclean hc ⟨[], rest, rfl, rfl, hM, hdead⟩⟩

/-- A step that takes the next token if it is of one of some kinds, and what follows it.  What may follow
a token that is taken depends on its kind; a token that is left rules all of `M` out but `M'`. -/
theorem accept {kinds : List Kind} {f : Option Token → Parser β} {Q : Kind → Language Kind}
    (heof : .eof ∉ kinds) (hq : ∀ k ∈ kinds, ∀ u, k :: u ∈ M ↔ u ∈ Q k)
    (hsome : ∀ t : Token, t.kind ∈ kinds → Exact (Q t.kind) K (f (some t)))
    (hsub : M' ≤ M) (hrest : ∀ k ∉ kinds, ∀ u, k :: u ∈ M → k :: u ∈ M')
    (hnone : Exact M' K (f none)) : Exact M K (Parser.accept kinds >>= f) := by
  rw [accept_eq_look]
  refine look (fun t a h => ?_) (fun t a h => ?_) fun t cause h => ?_
  · split at h
    · rename_i ht
      cases h
      simp only [Bool.and_eq_true, decide_eq_true_eq, List.contains_iff_mem] at ht
      exact ⟨Q t.kind, hq _ ht.2, hsome t ht.2⟩
    · cases h
  · split at h
    · cases h
    · rename_i ht
      cases h
      have hk : t.kind ∉ kinds := fun hk => ht (by
        have hne : t.kind ≠ .eof := fun he => heof (he ▸ hk)
        simp [hne, hk])
      exact ⟨M', hsub, hrest _ hk, hnone⟩
  · split at h <;> cases h

/-- What may be ahead starts with a token of some kinds, or it is in a language that avoids them. -/
theorem acceptOr {kinds : List Kind} {f : Option Token → Parser β} {Y : Language Kind}
    (heof : .eof ∉ kinds) (hL : Avoids kinds L) (hnone : Exact L K (f none))
    (hsome : ∀ t : Token, t.kind ∈ kinds → Exact Y K (f (some t))) :
    Exact (L + token kinds * Y) K (Parser.accept kinds >>= f) := by
  refine accept (Q := fun _ => Y) heof (fun k hk u => ?_) hsome le_self_add (fun k hk u hu => ?_) hnone
  · rw [Language.mem_add, cons_mem_token_mul, or_iff_right fun h => hL k u h hk]
    exact and_iff_right hk
  · rw [Language.mem_add, cons_mem_token_mul] at hu
    exact hu.resolve_right fun h => hk h.1

/-- A step by whether the next token is of a kind, and what follows it. -/
theorem check {kind : Kind} {f : Bool → Parser β} {M₁ M₂ : Language Kind} (heof : kind ≠ .eof)
    (hsub₁ : M₁ ≤ M) (hhit : ∀ u, kind :: u ∈ M → kind :: u ∈ M₁) (htrue : Exact M₁ K (f true))
    (hsub₂ : M₂ ≤ M) (hmiss : ∀ k ≠ kind, ∀ u, k :: u ∈ M → k :: u ∈ M₂)
    (hfalse : Exact M₂ K (f false)) : Exact M K (Parser.check kind >>= f) := by
  rw [check_eq_look]
  refine look (fun _ _ h => nomatch h) (fun t a h => ?_) fun _ _ h => nomatch h
  cases h
  by_cases hk : t.kind = kind
  · refine ⟨M₁, hsub₁, hk ▸ hhit, ?_⟩
    simpa [hk, heof] using htrue
  · refine ⟨M₂, hsub₂, hmiss _ hk, ?_⟩
    simpa [hk] using hfalse

/-- Looking at a token takes nothing. -/
theorem peek {f : Token → Parser β} (hf : ∀ t, Exact M K (f t)) :
    Exact M K (Parser.peek >>= f) := by
  rw [peek_eq_look]
  refine look (fun _ _ h => nomatch h) (fun t a h => ?_) fun _ _ h => nomatch h
  exact ⟨M, le_rfl, fun _ hu => hu, hf a⟩

theorem bind_pure (p : Parser α) : (p >>= Pure.pure) = p := by
  funext s
  show andThen p Pure.pure s = p s
  rw [andThen]
  cases p s <;> rfl

/-- A token that has to be there is a division of the language by it. -/
theorem expect {kind : Kind} {cause : Cause} (heof : kind ≠ .eof) (hc : cause.isReported = false)
    (hK : Nonvoid K) :
    Exact (token [kind] * K) K (Parser.expect kind cause) := by
  rw [← bind_pure (Parser.expect kind cause), expect_eq_look]
  refine look (fun t a h => ?_) (fun t a h => ?_) fun t cause' h => ?_
  · split at h
    · rename_i ht
      simp only [Bool.and_eq_true, decide_eq_true_eq] at ht
      refine ⟨K, fun u => ?_, pure a⟩
      simp [cons_mem_token_mul, ht.2]
    · cases h
  · split at h <;> cases h
  · split at h
    · cases h
    · rename_i ht
      cases h
      refine ⟨hc, nonvoid_mul.mpr ⟨nonvoid_token_cons, hK⟩, fun u hu => ht ?_⟩
      have hk : t.kind = kind := by simpa using (cons_mem_token_mul.mp hu).1
      simp [hk, heof]

end Exact

/-! ### Repetition -/

section Loops

variable {kinds kinds' : List Kind} {X Y : Language Kind}

theorem Avoids.mono (h : Avoids kinds K) (hk : kinds' ⊆ kinds) : Avoids kinds' K :=
  fun k u hu h' => h k u hu (hk h')

/-- What starts with other kinds avoids these. -/
theorem avoids_of_le (h : K ≤ startingWith kinds') (hk : ∀ k ∈ kinds', k ∉ kinds) : Avoids kinds K :=
  fun k _ hu => hk k (cons_mem_startingWith.mp (h hu))

theorem avoids_token_mul (h : ∀ k ∈ kinds', k ∉ kinds) : Avoids kinds (token kinds' * K) :=
  fun k _ hu => h k (cons_mem_token_mul.mp hu).1

theorem Avoids.add (hX : Avoids kinds X) (hY : Avoids kinds Y) : Avoids kinds (X + Y) :=
  fun k u hu => ((Language.mem_add X Y _).mp hu).elim (hX k u) (hY k u)

/-- In front of a language, repeated single tokens with phrases behind them. -/
theorem Avoids.repeated (hK : Avoids kinds K) (h : ∀ k ∈ kinds', k ∉ kinds) :
    Avoids kinds ((token kinds' * X)∗ * K) := by
  rw [kstar_mul_eq, mul_assoc]
  exact hK.add (avoids_token_mul h)

/-- A phrase of `X`, whatever follows it: there has to be something, and it must not start with one of
the kinds with which the phrase would go on. -/
def ReadsAs (kinds : List Kind) (X : Language Kind) (p : Parser α) : Prop :=
  ∀ K, Nonvoid K → Avoids kinds K → Exact (X * K) K p

/-- A loop whose rounds start with tokens of some kinds is at its end, or there is a round. -/
theorem repeated_eq (kinds : List Kind) (X K : Language Kind) :
    (token kinds * X)∗ * K = K + token kinds * (X * ((token kinds * X)∗ * K)) := by
  conv_lhs => rw [kstar_mul_eq, mul_assoc]

variable {operand : Parser Node} {join : Node → Token → Node → Node}

/-- The rounds of a chain of operators read the repetition of an operator and an operand. -/
theorem joinLeft_exact (heof : .eof ∉ kinds) (hK : Avoids kinds K)
    (ho : Exact (X * ((token kinds * X)∗ * K)) ((token kinds * X)∗ * K) operand) (bound : List Token)
    (left : Node) :
    Exact ((token kinds * X)∗ * K) K (joinLeft kinds operand join bound left) := by
  induction bound generalizing left with
  | nil => exact Exact.offEnd
  | cons b bound ih =>
      rw [joinLeft_cons, repeated_eq]
      exact Exact.acceptOr heof hK (Exact.pure left) fun t _ => ho.bind fun right => ih _

/-- A loop bounded by the tokens left is a step like any other. -/
theorem Exact.bounded {f : List Token → Parser α} (h : ∀ bound, Exact M K (f bound)) :
    Exact M K fun s => f s.rest s :=
  fun s => h s.rest s

/-- A chain of operators may be followed by anything that would not lengthen it or its last operand. -/
theorem leftAssoc_readsAs (heof : .eof ∉ kinds) (hk : ∀ k ∈ kinds, k ∉ kinds')
    (ho : ReadsAs kinds' X operand) :
    ReadsAs (kinds ++ kinds') (joined kinds X) (leftAssoc kinds join operand) := by
  intro K hK ha
  have hK' : Exact (X * ((token kinds * X)∗ * K)) ((token kinds * X)∗ * K) operand :=
    ho _ (nonvoid_mul.mpr ⟨nonvoid_kstar, hK⟩)
      ((ha.mono (List.subset_append_right _ _)).repeated hk)
  rw [joined, mul_assoc, leftAssoc_eq_bind]
  exact hK'.bind fun left => Exact.bounded fun bound =>
    joinLeft_exact heof (ha.mono (List.subset_append_left _ _)) hK' bound left

variable {entry : Parser α} {tooMany : Cause}

/-- The rounds of a list read the repetition of a comma and an entry. -/
theorem entriesFrom_exact (hc : tooMany.isReported = true) (hK : Avoids [.comma] K)
    (he : Exact (X * ((token [.comma] * X)∗ * K)) ((token [.comma] * X)∗ * K) entry)
    (bound : List Token) (found : List α) :
    Exact (joined [.comma] X * K) K (entriesFrom tooMany entry bound found) := by
  rw [joined, mul_assoc]
  induction bound generalizing found with
  | nil => exact Exact.offEnd
  | cons b bound ih =>
      rw [entriesFrom_cons]
      refine Exact.peek fun t => ?_
      have hnoted : ∀ M, Exact M M
          (if maxArguments ≤ found.length then report tooMany t else pure () : Parser Unit) := by
        intro M
        split
        · exact Exact.report hc t
        · exact Exact.pure ()
      refine (hnoted _).bind fun _ => he.bind fun a => ?_
      rw [repeated_eq]
      exact Exact.acceptOr (by decide) hK (Exact.pure _) fun t _ => ih _

/-- What stands between parentheses, with the closing one behind it. -/
theorem entries_exact (hc : tooMany.isReported = true) (hX : X ≤ startingWith kinds')
    (hright : .rightParen ∉ kinds') (hkinds : .comma ∉ kinds ∧ .rightParen ∉ kinds)
    (he : ReadsAs kinds X entry) (hK : Nonvoid K) :
    Exact ((1 + joined [.comma] X) * (token [.rightParen] * K)) (token [.rightParen] * K)
      (entries tooMany entry) := by
  have hK' : Nonvoid (token [.rightParen] * K) := nonvoid_mul.mpr ⟨nonvoid_token_cons, hK⟩
  have ha : Avoids kinds (token [.rightParen] * K) := avoids_token_mul (by simpa using hkinds.2)
  have hmore : Avoids kinds ((token [.comma] * X)∗ * (token [.rightParen] * K)) :=
    ha.repeated (by simpa using hkinds.1)
  have hentry := he _ (nonvoid_mul.mpr ⟨nonvoid_kstar, hK'⟩) hmore
  have hjoined : joined [.comma] X * (token [.rightParen] * K) ≤ startingWith kinds' :=
    mul_le_startingWith (mul_le_startingWith hX)
  rw [add_mul, one_mul]
  refine Exact.check (by decide) le_self_add (fun u hu => ?_) (Exact.pure []) le_add_self
    (fun k hk u hu => ?_) ?_
  · refine ((Language.mem_add _ _ _).mp hu).resolve_right fun hu => ?_
    exact hright (cons_mem_startingWith.mp (hjoined hu))
  · refine ((Language.mem_add _ _ _).mp hu).resolve_left fun hu => hk ?_
    simpa using (cons_mem_token_mul.mp hu).1
  · exact Exact.bounded (f := fun bound => entriesFrom tooMany entry bound []) fun bound =>
      entriesFrom_exact hc (avoids_token_mul (by decide)) hentry bound []

end Loops

/-! ### Expressions -/

/-- The kinds of tokens that are expressions by themselves. -/
def literalKinds : List Kind := [.falseWord, .trueWord, .nilWord, .number, .string, .identifier]

/-- The next token is an expression by itself, opens one in parentheses, or is refused. -/
theorem primaryLook_cases (t : Token) :
    (t.kind ∈ literalKinds ∧ ∃ e, primaryLook t = .take (some e)) ∨
    (t.kind = .leftParen ∧ primaryLook t = .take none) ∨
    (t.kind ∉ literalKinds ∧ t.kind ≠ .leftParen ∧ primaryLook t = .refuse .expectExpression) := by
  obtain ⟨kind, lexeme, literal, line⟩ := t
  cases kind <;> simp [primaryLook, literalKinds]

/-- What may come behind the first token of a primary expression. -/
theorem cons_mem_primary {k : Kind} {u : List Kind} :
    k :: u ∈ grammar .primary * K ↔ (k ∈ literalKinds ∧ u ∈ K) ∨
      k = .leftParen ∧ u ∈ grammar .expression * (token [.rightParen] * K) := by
  rw [grammar_eq, rule, add_mul, Language.mem_add, mul_assoc, mul_assoc, cons_mem_token_mul,
    cons_mem_token_mul, List.mem_singleton]
  rfl

/-- An argument list with its parentheses. -/
def argumentLists : Language Kind :=
  token [.leftParen] * ((1 + grammar .arguments) * token [.rightParen])

section Calls

variable {expression : Parser Node}
  (he : ReadsAs goesOn (grammar .expression) expression)

include he

theorem primary_exact (hK : Nonvoid K) : Exact (grammar .primary * K) K (primary expression) := by
  have hgroup : Exact (grammar .expression * (token [.rightParen] * K)) K
      (do let inner ← expression
          let _ ← expect .rightParen .expectParenAfterExpression
          pure (.grouping inner) : Parser Node) :=
    (he _ (by simpa using hK) (avoids_token_mul (by decide))).bind fun inner =>
      (Exact.expect (by decide) (by decide) hK).bind fun _ => Exact.pure _
  rw [primary_eq_look]
  refine Exact.look (fun t o h => ?_) (fun t o h => ?_) fun t cause h => ?_
  all_goals
    obtain ⟨hk, e, hl⟩ | ⟨hk, hl⟩ | ⟨hk, hp, hl⟩ := primaryLook_cases t <;> rw [hl] at h <;> cases h
  · have hp : t.kind ≠ .leftParen := fun h => by rw [h] at hk; exact absurd hk (by decide)
    refine ⟨K, fun u => ?_, Exact.pure e⟩
    simp [cons_mem_primary, hk, hp]
  · have hlit : Kind.leftParen ∉ literalKinds := by decide
    exact ⟨_, fun u => by simp [cons_mem_primary, hk, hlit], hgroup⟩
  · refine ⟨rfl, by simp [hK], fun u hu => ?_⟩
    exact (cons_mem_primary.mp hu).elim (fun h => hk h.1) (fun h => hp h.1)

/-- An argument list from behind its opening parenthesis on. -/
theorem argumentList_exact (hK : Nonvoid K) :
    Exact ((1 + grammar .arguments) * (token [.rightParen] * K)) K (argumentList expression) := by
  rw [grammar_eq .arguments, rule]
  have h := entries_exact (by decide : Cause.tooManyArguments.isReported = true)
    (grammar_starts .expression) (by decide) ⟨by decide, by decide⟩ he hK
  exact h.bind fun arguments => (Exact.expect (by decide) (by decide) hK).bind fun _ => Exact.pure _

/-- The rounds of a call read argument lists, as long as what follows does not start one. -/
theorem callsFrom_exact (hK : Nonvoid K) (ha : Avoids [.leftParen] K) (bound : List Token)
    (callee : Node) : Exact (argumentLists∗ * K) K (callsFrom expression bound callee) := by
  induction bound generalizing callee with
  | nil => exact Exact.offEnd
  | cons b bound ih =>
      have hlist := argumentList_exact he (K := argumentLists∗ * K) (by simp [hK])
      rw [callsFrom_cons, argumentLists, repeated_eq, mul_assoc]
      exact Exact.acceptOr (by decide) ha (Exact.pure callee) fun t _ => hlist.bind fun found => ih _

/-- Calls may be followed by anything but an opening parenthesis. -/
theorem call_readsAs : ReadsAs [.leftParen] (grammar .call) (call expression) := by
  intro K hK ha
  rw [grammar_eq, rule, mul_assoc (token _), mul_assoc, call_eq_bind]
  refine (primary_exact he (by simp [hK])).bind fun callee => ?_
  exact Exact.bounded fun bound => callsFrom_exact he hK ha bound callee

end Calls

/-- All levels of operators between the unary ones and an assignment. -/
theorem operatorLevels_readsAs {operand : Parser Node}
    (ho : ReadsAs [.leftParen] (grammar .unary) operand) :
    ReadsAs goesOn.tail (grammar .logicOr) (operatorLevels operand) := by
  have heq : grammar .logicOr = joined [.orWord] (joined [.andWord] (joined [.bangEqual, .equalEqual]
      (joined [.greater, .greaterEqual, .less, .lessEqual] (joined [.minus, .plus]
        (joined [.slash, .star] (grammar .unary)))))) := by
    simp only [grammar_eq .logicOr, grammar_eq .logicAnd, grammar_eq .equality,
      grammar_eq .comparison, grammar_eq .term, grammar_eq .factor, rule]
  have hkinds : goesOn.tail = [Kind.orWord] ++ ([Kind.andWord] ++ ([Kind.bangEqual, .equalEqual] ++
      ([Kind.greater, .greaterEqual, .less, .lessEqual] ++ ([Kind.minus, .plus] ++
        ([Kind.slash, .star] ++ [Kind.leftParen]))))) := rfl
  rw [heq, hkinds]
  iterate 6 refine leftAssoc_readsAs (by decide) (by decide) ?_
  exact ho

/-- Whether the target is one changes nothing in the ways to go on, since it is only reported. -/
theorem assignTo_exact (target : Node) (equals : Token) (value : Node) :
    Exact K K (assignTo target equals value) := by
  unfold assignTo
  split
  · exact Exact.pure _
  · exact (Exact.report rfl _).bind fun _ => Exact.pure _

/-- All expressions, by induction on the nesting budget. -/
theorem assignment_unary_readsAs (depth : Nat) :
    ReadsAs goesOn (grammar .expression) (assignment depth) ∧
    ReadsAs [.leftParen] (grammar .unary) (unary depth) := by
  induction depth with
  | zero => exact ⟨fun _ _ _ => Exact.tooDeep, fun _ _ _ => Exact.tooDeep⟩
  | succ depth ih =>
      obtain ⟨ihe, ihu⟩ := ih
      refine ⟨fun K hK ha => ?_, fun K hK ha => ?_⟩
      · rw [grammar_eq .expression, rule] at ihe ⊢
        rw [grammar_eq .assignment, rule, mul_assoc, add_mul, one_mul, mul_assoc, assignment]
        refine (operatorLevels_readsAs ihu _ ?_ ?_).bind fun target => ?_
        · simp [hK]
        · exact (ha.mono (List.tail_subset _)).add (avoids_token_mul (by decide))
        · exact Exact.acceptOr (by decide) (ha.mono (by decide)) (Exact.pure target) fun t _ =>
            (ihe K hK ha).bind fun value => assignTo_exact target t value
      · rw [grammar_eq .unary, rule, add_mul, mul_assoc, add_comm, unary]
        have hcall : Avoids [.bang, .minus] (grammar .call * K) :=
          avoids_of_le (mul_le_startingWith (grammar_starts .call)) (by decide)
        exact Exact.acceptOr (by decide) hcall (call_readsAs ihe K hK ha) fun t _ =>
          (ihu K hK ha).bind fun right => Exact.pure _

end Parser

end Lox
