import Lox.Proofs.Parser.Ends

/-!
# The order of diagnostics

Diagnostics come in the order in which they are found.  This is the order in which the tokens stand that
they are about, with one exception: the target of an assignment is looked at only behind its value, so
what is wrong inside the value comes first.

* `Finding tokens`: a diagnostic and the place of its token in the list.
* `Finding.Precedes f g`: `f` is found before the token of `g` is taken, or `g` is about the `=` of an
  assignment with `f` in its value.
* `Tracks tokens p`: what the step `p` finds lies between the place where it starts and the place where it
  ends, and is in this order.
* `parseWithin_source_order`: so are the diagnostics of a whole list, with any nesting budget.
-/

namespace Lox

/-! ### Findings -/

/-- The place of the token that a diagnostic is about.  It is the next token for most, the keyword taken
last for a `return`, and an equals sign taken before for an assignment. -/
def Diagnostic.StandsAt (d : Diagnostic) (place : Nat) : Prop :=
  match d.cause with
  | .invalidAssignmentTarget => place < d.position ∧ d.token.kind = .equal
  | .returnAtTopLevel => place + 1 = d.position ∧ d.token.kind = .returnWord
  | _ => place = d.position

/-- Causes that are found in front of their token. -/
def Cause.isAhead : Cause → Bool
  | .invalidAssignmentTarget | .returnAtTopLevel => false
  | _ => true

/-- A diagnostic, and where its token stands in the list. -/
structure Finding (tokens : List Token) where
  diagnostic : Diagnostic
  place : Nat
  token_eq : tokens[place]? = some diagnostic.token
  stands : diagnostic.StandsAt place

namespace Finding

variable {tokens : List Token}

/-- What is found in front of a token. -/
def ahead {cause : Cause} (hc : cause.isAhead = true) {n : Nat} {t : Token}
    (ht : tokens[n]? = some t) : Finding tokens :=
  ⟨⟨cause, t, n⟩, n, ht, by cases cause <;> first | rfl | cases hc⟩

/-- No finding is made before its token is next. -/
theorem place_le (f : Finding tokens) : f.place ≤ f.diagnostic.position := by
  obtain ⟨⟨cause, t, n⟩, i, -, h⟩ := f
  cases cause <;> simp only [Diagnostic.StandsAt] at h ⊢ <;> omega

/-- The first is found before the token of the second is taken, or the second is about an assignment that
has the first in its value. -/
def Precedes (f g : Finding tokens) : Prop :=
  f.diagnostic.position ≤ g.place ∨
    g.diagnostic.cause = .invalidAssignmentTarget ∧ g.place < f.place ∧
      f.diagnostic.position ≤ g.diagnostic.position

/-- Away from assignment targets, an earlier finding is about an earlier token. -/
theorem Precedes.place_le {f g : Finding tokens} (h : f.Precedes g)
    (hc : g.diagnostic.cause ≠ .invalidAssignmentTarget) : f.place ≤ g.place := by
  rcases h with h | ⟨hg, -⟩
  · exact Nat.le_trans f.place_le h
  · exact absurd hg hc

/-- An assignment that is found first is in its place. -/
theorem places_ordered {found : List (Finding tokens)} (h : found.Pairwise Precedes)
    (hc : ∀ g ∈ found.tail, g.diagnostic.cause ≠ .invalidAssignmentTarget) :
    (found.map place).Pairwise (· ≤ ·) := by
  rw [List.pairwise_map]
  cases h with
  | nil => exact .nil
  | cons hf hrest =>
      refine .cons (fun g hg => (hf g hg).place_le (hc g hg)) ?_
      exact hrest.imp_of_mem fun _ hg hfg => hfg.place_le (hc _ hg)

end Finding

variable {tokens : List Token}

/-- Findings between two places, in order. -/
structure Spans (low high : Nat) (found : List (Finding tokens)) : Prop where
  lower : ∀ f ∈ found, low ≤ f.place
  upper : ∀ f ∈ found, f.diagnostic.position ≤ high
  ordered : found.Pairwise Finding.Precedes

namespace Spans

variable {low mid high : Nat} {found found' : List (Finding tokens)}

theorem nil (low high : Nat) : Spans low high ([] : List (Finding tokens)) :=
  ⟨List.forall_mem_nil _, List.forall_mem_nil _, .nil⟩

/-- Two stretches of findings, one behind the other, make one. -/
theorem append (h : Spans low mid found) (h' : Spans mid high found') (hl : low ≤ mid)
    (hm : mid ≤ high) : Spans low high (found ++ found') := by
  refine ⟨fun f hf => ?_, fun f hf => ?_, ?_⟩
  · rcases List.mem_append.mp hf with hf | hf
    · exact h.lower f hf
    · exact Nat.le_trans hl (h'.lower f hf)
  · rcases List.mem_append.mp hf with hf | hf
    · exact Nat.le_trans (h.upper f hf) hm
    · exact h'.upper f hf
  · refine List.pairwise_append.mpr ⟨h.ordered, h'.ordered, fun f hf g hg => .inl ?_⟩
    exact Nat.le_trans (h.upper f hf) (h'.lower g hg)

theorem single {f : Finding tokens} (hl : low ≤ f.place) (hm : f.diagnostic.position ≤ high) :
    Spans low high [f] :=
  ⟨List.forall_mem_singleton.mpr hl, List.forall_mem_singleton.mpr hm, List.pairwise_singleton _ _⟩

/-- An assignment, behind what is found in its value. -/
theorem late {f : Finding tokens} (h : Spans (f.place + 1) high found)
    (hc : f.diagnostic.cause = .invalidAssignmentTarget) (hf : f.diagnostic.position = high) :
    Spans f.place high (found ++ [f]) := by
  refine ⟨fun g hg => ?_, fun g hg => ?_, ?_⟩
  · rcases List.mem_append.mp hg with hg | hg
    · exact Nat.le_of_lt (h.lower g hg)
    · exact Nat.le_of_eq (by rw [List.mem_singleton.mp hg])
  · rcases List.mem_append.mp hg with hg | hg
    · exact h.upper g hg
    · exact Nat.le_of_eq (by rw [List.mem_singleton.mp hg, hf])
  · refine List.pairwise_append.mpr ⟨h.ordered, List.pairwise_singleton _ _, fun g hg f' hf' => ?_⟩
    rw [List.mem_singleton.mp hf', Finding.Precedes, hf]
    -- what was found in the value stands behind the equals sign
    exact .inr ⟨hc, h.lower g hg, h.upper g hg⟩

end Spans

namespace Parser

variable {α β : Type}

/-! ### Steps over a list -/

/-- A list is read from a place on up to the state, and what is found on the way is in order. -/
structure State.Tracked (tokens : List Token) (low : Nat) (old : List Diagnostic) (s : State) :
    Prop where
  rest : s.rest = tokens.drop s.position
  le : low ≤ s.position
  found : ∃ found : List (Finding tokens),
    s.diagnostics = old ++ found.map Finding.diagnostic ∧ Spans low s.position found

namespace State.Tracked

variable {low n : Nat} {old ds : List Diagnostic} {s s₁ : State}

/-- What two steps find, one after the other, is in order. -/
theorem trans (h : s.Tracked tokens low old) (h₁ : s₁.Tracked tokens s.position s.diagnostics) :
    s₁.Tracked tokens low old := by
  obtain ⟨-, hle, found, hd, hf⟩ := h
  obtain ⟨hrest, hle₁, found₁, hd₁, hf₁⟩ := h₁
  refine ⟨hrest, Nat.le_trans hle hle₁, found ++ found₁, ?_, hf.append hf₁ hle hle₁⟩
  rw [hd₁, hd, List.map_append, List.append_assoc]

/-- Tokens are taken, and nothing is noted. -/
theorem taken (hl : low ≤ n) : State.Tracked tokens low ds ⟨tokens.drop n, n, ds⟩ :=
  ⟨rfl, hl, [], (List.append_nil ds).symm, .nil _ _⟩

/-- Something is noted. -/
theorem noted (f : Finding tokens) (hl : low ≤ f.place) (hn : f.diagnostic.position = n) :
    State.Tracked tokens low ds ⟨tokens.drop n, n, ds ++ [f.diagnostic]⟩ :=
  ⟨rfl, Nat.le_trans hl (hn ▸ f.place_le), [f], rfl, .single hl (Nat.le_of_eq hn)⟩

/-- A token in front of everything that was read is noted. -/
theorem late (h : s.Tracked tokens (n + 1) ds) {t : Token} (ht : tokens[n]? = some t)
    (hk : t.kind = .equal) : State.Tracked tokens n ds
      { s with diagnostics := s.diagnostics ++ [⟨.invalidAssignmentTarget, t, s.position⟩] } := by
  obtain ⟨hrest, hle, found, hd, hf⟩ := h
  let f : Finding tokens := ⟨⟨.invalidAssignmentTarget, t, s.position⟩, n, ht, hle, hk⟩
  refine ⟨hrest, Nat.le_of_lt hle, found ++ [f], ?_, Spans.late (f := f) hf rfl rfl⟩
  rw [hd, List.map_append, List.append_assoc]
  rfl

end State.Tracked

/-- How a step ends that was started on a list; a token that it refuses is the next one. -/
inductive Outcome.Tracked (tokens : List Token) (low : Nat) (old : List Diagnostic) :
    Outcome α → Prop where
  | done {a : α} {s : State} (h : s.Tracked tokens low old) : Tracked tokens low old (.done a s)
  | refused {s : State} (f : Finding tokens) (h : s.Tracked tokens low old)
      (hf : f.place = s.position) (hn : f.diagnostic.position = s.position) :
      Tracked tokens low old (.stop (.refused f.diagnostic) s)
  | tooDeep {s : State} (h : s.Tracked tokens low old) : Tracked tokens low old (.stop .tooDeep s)
  | offEnd {s : State} (h : s.Tracked tokens low old) : Tracked tokens low old (.stop .offEnd s)

/-- Wherever the step is started on the list, what it finds is in order. -/
def Tracks (tokens : List Token) (p : Parser α) : Prop :=
  ∀ n ds, (p ⟨tokens.drop n, n, ds⟩).Tracked tokens n ds

/-- The same for a step that is started behind a token and may find something wrong with this one too. -/
def TracksBehind (tokens : List Token) (n : Nat) (p : Parser α) : Prop :=
  ∀ ds, (p ⟨tokens.drop (n + 1), n + 1, ds⟩).Tracked tokens n ds

namespace Outcome.Tracked

variable {low : Nat} {old : List Diagnostic} {s : State}

theorem state {r : Outcome α} (h : r.Tracked tokens low old) : r.state.Tracked tokens low old := by
  cases h <;> assumption

/-- What was started behind a state, seen from in front of it. -/
theorem behind {r : Outcome α} (h : r.Tracked tokens s.position s.diagnostics)
    (hs : s.Tracked tokens low old) : r.Tracked tokens low old := by
  cases h with
  | done h => exact .done (hs.trans h)
  | refused f h hf hn => exact .refused f (hs.trans h) hf hn
  | tooDeep h => exact .tooDeep (hs.trans h)
  | offEnd h => exact .offEnd (hs.trans h)

/-- Sequencing, from one state: the second step starts where the first one ends. -/
theorem bind {p : Parser α} {f : α → Parser β} (hp : (p s).Tracked tokens low old)
    (hf : ∀ a n ds, p s = .done a ⟨tokens.drop n, n, ds⟩ →
      (f a ⟨tokens.drop n, n, ds⟩).Tracked tokens n ds) :
    ((p >>= f) s).Tracked tokens low old := by
  show (andThen p f s).Tracked tokens low old
  rw [andThen]
  generalize p s = r at hp hf ⊢
  cases hp with
  | @done a s₁ h =>
      obtain ⟨rest, n, ds⟩ := s₁
      have hrest : rest = tokens.drop n := h.rest
      subst hrest
      exact (hf a n ds rfl).behind h
  | refused g h hg hn => exact .refused g h hg hn
  | tooDeep h => exact .tooDeep h
  | offEnd h => exact .offEnd h

end Outcome.Tracked

namespace Tracks

/-- A step and what comes after it. -/
theorem bind {p : Parser α} {f : α → Parser β} (hp : Tracks tokens p)
    (hf : ∀ a, Tracks tokens (f a)) : Tracks tokens (p >>= f) :=
  fun n ds => (hp n ds).bind fun a n₁ ds₁ _ => hf a n₁ ds₁

theorem pure (a : α) : Tracks tokens (pure a) :=
  fun n _ => .done (.taken (Nat.le_refl n))

theorem map {p : Parser α} (f : α → β) (hp : Tracks tokens p) : Tracks tokens (f <$> p) :=
  hp.bind fun a => pure (f a)

theorem tooDeep : Tracks tokens (fail .tooDeep : Parser α) :=
  fun n _ => .tooDeep (.taken (Nat.le_refl n))

end Tracks

/-! ### Steps on the next token -/

/-- The next token of a list read from a place on is the token at that place. -/
theorem drop_eq_cons {n : Nat} {t : Token} {rest : List Token} (h : tokens.drop n = t :: rest) :
    tokens[n]? = some t ∧ rest = tokens.drop (n + 1) := by
  rw [← List.head?_drop, ← List.tail_drop, h]
  exact ⟨rfl, rfl⟩

namespace Tracks

/-- A step by the next token finds only what is wrong with that one. -/
theorem look {f : Token → Look α} (hf : ∀ t cause, f t = .refuse cause → cause.isAhead = true) :
    Tracks tokens (look f) := by
  intro n ds
  cases h : tokens.drop n with
  | nil => exact .offEnd (h ▸ .taken (Nat.le_refl n))
  | cons t rest =>
      obtain ⟨ht, hrest⟩ := drop_eq_cons h
      cases hft : f t with
      | keep a =>
          rw [look_keep hft]
          exact .done (h ▸ .taken (Nat.le_refl n))
      | take a =>
          rw [look_take hft, hrest]
          exact .done (.taken (Nat.le_succ n))
      | refuse cause =>
          rw [look_refuse hft]
          exact .refused (.ahead (hf t cause hft) ht) (h ▸ .taken (Nat.le_refl n)) rfl rfl

theorem peek : Tracks tokens peek := by
  rw [peek_eq_look]
  exact look nofun

theorem check (kind : Kind) : Tracks tokens (check kind) := by
  rw [check_eq_look]
  exact look nofun

theorem expect (kind : Kind) {cause : Cause} (hc : cause.isAhead = true) :
    Tracks tokens (expect kind cause) := by
  rw [expect_eq_look]
  refine look fun t cause' h => ?_
  split at h
  · cases h
  · cases h
    exact hc

/-- Behind an operator that may stand there or not, the step may find something wrong with this too. -/
theorem accept {kinds : List Kind} {f : Option Token → Parser α} (hnone : Tracks tokens (f none))
    (hsome : ∀ t n, tokens[n]? = some t → t.kind ∈ kinds → TracksBehind tokens n (f (some t))) :
    Tracks tokens (accept kinds >>= f) := by
  intro n ds
  cases h : tokens.drop n with
  | nil => exact .offEnd (h ▸ .taken (Nat.le_refl n))
  | cons t rest =>
      obtain ⟨ht, rfl⟩ := drop_eq_cons h
      by_cases hk : t.kind ≠ .eof ∧ t.kind ∈ kinds
      · rw [bind_of_done (accept_some hk.2 hk.1 _ n ds)]
        exact hsome t n ht hk.2 ds
      · have hnot : Parser.accept kinds ⟨t :: tokens.drop (n + 1), n, ds⟩ =
            .done none ⟨t :: tokens.drop (n + 1), n, ds⟩ := by
          simp_all [Parser.accept]
        rw [bind_of_done hnot, ← h]
        exact hnone n ds

/-- Nothing more is found wrong with the token. -/
theorem behind {p : Parser α} (hp : Tracks tokens p) (n : Nat) : TracksBehind tokens n p :=
  fun ds => (hp (n + 1) ds).behind (.taken (Nat.le_succ n))

end Tracks

/-- Something is noted at the next token. -/
theorem report_ahead {cause : Cause} (hc : cause.isAhead = true) {t : Token} {n : Nat}
    (ht : tokens[n]? = some t) (ds : List Diagnostic) :
    (report cause t ⟨tokens.drop n, n, ds⟩).Tracked tokens n ds :=
  .done (.noted (.ahead hc ht) (Nat.le_refl n) rfl)

/-- The token looked at is the one where the state stands. -/
theorem peek_token {t : Token} {n n' : Nat} {ds ds' : List Diagnostic}
    (h : peek ⟨tokens.drop n, n, ds⟩ = .done t ⟨tokens.drop n', n', ds'⟩) : tokens[n']? = some t := by
  rw [← List.head?_drop]
  exact peek_head h

/-! ### Repetition -/

/-- Each round goes on behind the operand of the round before. -/
theorem joinLeft_tracks {kinds : List Kind} {operand : Parser Node}
    {join : Node → Token → Node → Node} (ho : Tracks tokens operand) (bound : List Token)
    (left : Node) : Tracks tokens (joinLeft kinds operand join bound left) := by
  induction bound generalizing left with
  | nil => exact fun n _ => .offEnd (.taken (Nat.le_refl n))
  | cons b bound ih =>
      rw [joinLeft_cons]
      exact .accept (.pure left) fun operator n _ _ => (ho.bind fun right => ih _).behind n

theorem leftAssoc_tracks {kinds : List Kind} {join : Node → Token → Node → Node}
    {operand : Parser Node} (ho : Tracks tokens operand) :
    Tracks tokens (leftAssoc kinds join operand) := by
  rw [leftAssoc_eq_bind]
  exact ho.bind fun left n ds => joinLeft_tracks ho _ left n ds

/-- An entry too many is found in front of its own token, so before what is in it. -/
theorem entriesFrom_tracks {tooMany : Cause} (hc : tooMany.isAhead = true) {entry : Parser α}
    (he : Tracks tokens entry) (bound : List Token) (found : List α) :
    Tracks tokens (entriesFrom tooMany entry bound found) := by
  induction bound generalizing found with
  | nil => exact fun n _ => .offEnd (.taken (Nat.le_refl n))
  | cons b bound ih =>
      rw [entriesFrom_cons]
      intro n ds
      refine (Tracks.peek n ds).bind fun t n₁ ds₁ ht => ?_
      have hnoted : ((if maxArguments ≤ found.length then report tooMany t else pure () : Parser Unit)
          ⟨tokens.drop n₁, n₁, ds₁⟩).Tracked tokens n₁ ds₁ := by
        split
        · exact report_ahead hc (peek_token ht) ds₁
        · exact Tracks.pure () n₁ ds₁
      refine hnoted.bind fun _ n₂ ds₂ _ => ?_
      refine (he.bind fun a => Tracks.accept ?_ fun comma n _ _ => ?_) n₂ ds₂
      · exact .pure _
      · exact (ih _).behind n

theorem entries_tracks {tooMany : Cause} (hc : tooMany.isAhead = true) {entry : Parser α}
    (he : Tracks tokens entry) : Tracks tokens (entries tooMany entry) := by
  refine (Tracks.check .rightParen).bind fun b => ?_
  cases b with
  | true => exact .pure []
  | false => exact fun n ds => entriesFrom_tracks hc he _ [] n ds

theorem itemsFrom_tracks {isLast : Token → Bool} {item : Parser (Option α)}
    (hi : Tracks tokens item) (bound : List Token) (found : List α) :
    Tracks tokens (itemsFrom isLast item bound found) := by
  induction bound generalizing found with
  | nil => exact fun n _ => .offEnd (.taken (Nat.le_refl n))
  | cons b bound ih =>
      rw [itemsFrom_cons]
      refine Tracks.peek.bind fun t => ?_
      split
      · exact .pure _
      · refine hi.bind fun o => ?_
        cases o with
        | none => exact ih found
        | some a => exact ih _

theorem itemsUntil_tracks {isLast : Token → Bool} {item : Parser (Option α)}
    (hi : Tracks tokens item) : Tracks tokens (itemsUntil isLast item) :=
  fun n ds => itemsFrom_tracks hi _ [] n ds

/-! ### Expressions -/

section Expressions

variable {expression : Parser Node} (he : Tracks tokens expression)
include he

theorem primary_tracks : Tracks tokens (primary expression) := by
  rw [primary_eq_look]
  refine (Tracks.look fun t cause h => ?_).bind fun o => ?_
  · rw [primaryLook] at h
    split at h <;> cases h
    rfl
  · cases o with
    | some e => exact .pure e
    | none => exact he.bind fun inner => (Tracks.expect _ rfl).bind fun _ => .pure _

theorem argumentList_tracks : Tracks tokens (argumentList expression) :=
  (entries_tracks rfl he).bind fun _ => (Tracks.expect _ rfl).bind fun _ => .pure _

/-- The argument lists behind what is called. -/
theorem callsFrom_tracks (bound : List Token) (callee : Node) :
    Tracks tokens (callsFrom expression bound callee) := by
  induction bound generalizing callee with
  | nil => exact fun n _ => .offEnd (.taken (Nat.le_refl n))
  | cons b bound ih =>
      rw [callsFrom_cons]
      exact .accept (.pure callee) fun _ n _ _ =>
        ((argumentList_tracks he).bind fun found => ih _).behind n

theorem call_tracks : Tracks tokens (call expression) := by
  rw [call_eq_bind]
  exact (primary_tracks he).bind fun callee n ds => callsFrom_tracks he _ callee n ds

end Expressions

/-- All levels of operators between the unary ones and an assignment. -/
theorem operatorLevels_tracks {operand : Parser Node} (ho : Tracks tokens operand) :
    Tracks tokens (operatorLevels operand) := by
  rw [operatorLevels]
  iterate 6 refine leftAssoc_tracks ?_
  exact ho

/-- The value of an assignment, and then its target. -/
theorem assignTo_tracks {value : Parser Node} (hv : Tracks tokens value) (target : Node)
    {equals : Token} {n : Nat} (ht : tokens[n]? = some equals) (hk : equals.kind = .equal) :
    TracksBehind tokens n (do assignTo target equals (← value)) := by
  intro ds
  have h := hv (n + 1) ds
  have hbehind : State.Tracked tokens n ds ⟨tokens.drop (n + 1), n + 1, ds⟩ := .taken (Nat.le_succ n)
  show (andThen value (assignTo target equals) _).Tracked tokens n ds
  rw [andThen]
  generalize value ⟨tokens.drop (n + 1), n + 1, ds⟩ = r at h ⊢
  cases h with
  | @done a s hs =>
      dsimp only [assignTo]
      split
      · exact .done (hbehind.trans hs)
      · exact .done (hs.late ht hk)
  | refused f hs hf hn => exact .refused f (hbehind.trans hs) hf hn
  | tooDeep hs => exact .tooDeep (hbehind.trans hs)
  | offEnd hs => exact .offEnd (hbehind.trans hs)

/-- All expressions.  Only an assignment looks at what stands before, and then nothing in its value is left
to be found. -/
theorem assignment_unary_tracks (depth : Nat) :
    Tracks tokens (assignment depth) ∧ Tracks tokens (unary depth) := by
  induction depth with
  | zero => exact ⟨.tooDeep, .tooDeep⟩
  | succ depth ih =>
      obtain ⟨ihe, ihu⟩ := ih
      constructor
      · rw [assignment]
        refine (operatorLevels_tracks ihu).bind fun target => .accept (.pure target) ?_
        exact fun equals n ht hk => assignTo_tracks ihe target ht (List.mem_singleton.mp hk)
      · rw [unary]
        exact .accept (call_tracks ihe) fun operator n _ _ =>
          (ihu.bind fun right => .pure _).behind n

/-! ### Recovery -/

/-- Skipping tokens finds nothing. -/
theorem skipFrom_tracks (last : Kind) (n : Nat) (ds : List Diagnostic) :
    (skipFrom last (tokens.drop n) n ds).Tracked tokens n ds := by
  generalize h : tokens.drop n = rest
  induction rest generalizing last n with
  | nil => exact .offEnd (h ▸ .taken (Nat.le_refl n))
  | cons t rest ih =>
      rw [skipFrom]
      split
      · exact .done (h ▸ .taken (Nat.le_refl n))
      · obtain ⟨-, hrest⟩ := drop_eq_cons h
        have hs : State.Tracked tokens n ds ⟨rest, n + 1, ds⟩ := hrest ▸ .taken (Nat.le_succ n)
        exact (ih t.kind (n + 1) hrest.symm).behind hs

theorem synchronize_tracks : Tracks tokens synchronize := by
  intro n ds
  cases h : tokens.drop n with
  | nil => exact .offEnd (h ▸ .taken (Nat.le_refl n))
  | cons t rest =>
      rw [synchronize]
      dsimp only
      split
      · exact .done (h ▸ .taken (Nat.le_refl n))
      · obtain ⟨-, rfl⟩ := drop_eq_cons h
        exact (skipFrom_tracks t.kind (n + 1) ds).behind (.taken (Nat.le_succ n))

/-- What refuses a declaration is found at the token where it stops. -/
theorem recover_tracks {p : Parser α} (hp : Tracks tokens p) : Tracks tokens (recover p) := by
  intro n ds
  have hgiveUp : Tracks tokens (giveUp : Parser (Option α)) :=
    synchronize_tracks.bind fun _ => .pure none
  have h := hp n ds
  rw [recover]
  generalize p ⟨tokens.drop n, n, ds⟩ = r at h ⊢
  cases h with
  | done hs => exact .done hs
  | @refused s f hs hf hn =>
      obtain ⟨rest, n', ds'⟩ := s
      obtain rfl : rest = tokens.drop n' := hs.rest
      have hnoted := hs.trans (.noted f (Nat.le_of_eq hf.symm) hn)
      exact (hgiveUp n' _).behind hnoted
  | @tooDeep s hs =>
      obtain ⟨rest, n', ds'⟩ := s
      obtain rfl : rest = tokens.drop n' := hs.rest
      refine Outcome.Tracked.behind ?_ hs
      refine (Tracks.peek n' ds').bind fun t n₁ ds₁ ht => ?_
      exact (report_ahead rfl (peek_token ht) ds₁).bind fun _ n₂ ds₂ _ => hgiveUp n₂ ds₂
  | offEnd hs => exact .offEnd hs

/-! ### Statements -/

section Statements

variable {expression statement : Parser Node} {declaration : Parser (Option Node)}

theorem blockOf_tracks (hd : Tracks tokens declaration) : Tracks tokens (blockOf declaration) :=
  (itemsUntil_tracks hd).bind fun _ => (Tracks.expect _ rfl).bind fun _ => .pure _

theorem functionDeclaration_tracks (hd : Tracks tokens declaration) :
    Tracks tokens (functionDeclaration declaration) := by
  refine (Tracks.expect _ rfl).bind fun name => (Tracks.expect _ rfl).bind fun _ => ?_
  refine (entries_tracks rfl (Tracks.expect _ rfl)).bind fun params => ?_
  refine (Tracks.expect _ rfl).bind fun _ => (Tracks.expect _ rfl).bind fun _ => ?_
  exact (blockOf_tracks hd).bind fun body => .pure _

theorem variableDeclaration_tracks (he : Tracks tokens expression) :
    Tracks tokens (variableDeclaration expression) := by
  refine (Tracks.expect _ rfl).bind fun name => ?_
  have hend : ∀ e : Node, Tracks tokens (do
      let _ ← expect .semicolon .expectSemicolonAfterDeclaration
      pure (Node.declare name e)) :=
    fun _ => (Tracks.expect _ rfl).bind fun _ => .pure _
  exact .accept (hend .null) fun _ n _ _ => (he.bind hend).behind n

theorem expressionStatement_tracks (he : Tracks tokens expression) :
    Tracks tokens (expressionStatement expression) :=
  he.bind fun _ => (Tracks.expect _ rfl).bind fun _ => .pure _

theorem expressionUnless_tracks (he : Tracks tokens expression) (kind : Kind) :
    Tracks tokens (expressionUnless kind expression) := by
  refine (Tracks.check kind).bind fun b => ?_
  cases b with
  | true => exact .pure none
  | false => exact he.map some

theorem loopInitializer_tracks (he : Tracks tokens expression) :
    Tracks tokens (loopInitializer expression) := by
  refine .accept (.accept ((expressionStatement_tracks he).map some) fun _ n _ _ => ?_)
    fun _ n _ _ => (Tracks.pure none).behind n
  exact ((variableDeclaration_tracks he).map some).behind n

theorem forStatement_tracks (he : Tracks tokens expression) (hs : Tracks tokens statement) :
    Tracks tokens (forStatement expression statement) := by
  refine (Tracks.expect _ rfl).bind fun _ => (loopInitializer_tracks he).bind fun initializer => ?_
  refine (expressionUnless_tracks he _).bind fun condition => (Tracks.expect _ rfl).bind fun _ => ?_
  refine (expressionUnless_tracks he _).bind fun increment => (Tracks.expect _ rfl).bind fun _ => ?_
  exact hs.bind fun body => .pure _

theorem ifStatement_tracks (he : Tracks tokens expression) (hs : Tracks tokens statement) :
    Tracks tokens (ifStatement expression statement) := by
  refine (Tracks.expect _ rfl).bind fun _ => he.bind fun condition => ?_
  refine (Tracks.expect _ rfl).bind fun _ => hs.bind fun thenBranch => ?_
  exact .accept (.pure _) fun _ n _ _ => (hs.bind fun elseBranch => .pure _).behind n

theorem printStatement_tracks (he : Tracks tokens expression) :
    Tracks tokens (printStatement expression) :=
  he.bind fun _ => (Tracks.expect _ rfl).bind fun _ => .pure _

theorem whileStatement_tracks (he : Tracks tokens expression) (hs : Tracks tokens statement) :
    Tracks tokens (whileStatement expression statement) := by
  refine (Tracks.expect _ rfl).bind fun _ => he.bind fun condition => ?_
  exact (Tracks.expect _ rfl).bind fun _ => hs.bind fun body => .pure _

/-- A `return` statement behind its keyword, which is noted outside of functions. -/
theorem returnStatement_tracks (he : Tracks tokens expression) (inFunction : Bool) {keyword : Token}
    {n : Nat} (ht : tokens[n]? = some keyword) (hk : keyword.kind = .returnWord) :
    TracksBehind tokens n (returnStatement inFunction keyword expression) := by
  have hvalue : Tracks tokens (do
      let value ← expressionUnless .semicolon expression
      let _ ← expect .semicolon .expectSemicolonAfterReturnValue
      pure (Node.returns keyword (value.getD .null))) :=
    (expressionUnless_tracks he _).bind fun _ => (Tracks.expect _ rfl).bind fun _ => .pure _
  cases inFunction with
  | true => exact hvalue.behind n
  | false =>
      let f : Finding tokens := ⟨⟨.returnAtTopLevel, keyword, n + 1⟩, n, ht, rfl, hk⟩
      exact fun ds => (hvalue (n + 1) _).behind (.noted f (Nat.le_refl n) rfl)

end Statements

/-! ### Programs -/

/-- Statements and declarations, by induction on the nesting budget. -/
theorem statement_attempt_tracks (depth : Nat) :
    (∀ inFunction, Tracks tokens (statement inFunction depth)) ∧
      ∀ inFunction, Tracks tokens (attempt inFunction depth) := by
  induction depth with
  | zero => exact ⟨fun _ => .tooDeep, fun _ => .tooDeep⟩
  | succ depth ih =>
      obtain ⟨ihs, iha⟩ := ih
      have he : Tracks tokens (assignment depth) := (assignment_unary_tracks depth).1
      have hd : ∀ inFunction, Tracks tokens (declaration inFunction depth) := by
        intro inFunction
        rw [declaration_eq_recover]
        exact recover_tracks (iha inFunction)
      refine ⟨fun inFunction => ?_, fun inFunction => ?_⟩
      · rw [statement]
        refine .accept (expressionStatement_tracks he) fun start n ht _ => ?_
        dsimp only
        split
        · exact (forStatement_tracks he (ihs inFunction)).behind n
        · exact (ifStatement_tracks he (ihs inFunction)).behind n
        · exact (printStatement_tracks he).behind n
        · -- only a `return` may be about the token that it starts with
          rename_i hk
          exact returnStatement_tracks he inFunction ht hk
        · exact (whileStatement_tracks he (ihs inFunction)).behind n
        · exact ((blockOf_tracks (hd inFunction)).map Node.block).behind n
      · rw [attempt]
        refine .accept (ihs inFunction) fun start n _ _ => ?_
        dsimp only
        split
        · exact (functionDeclaration_tracks (hd true)).behind n
        · exact (variableDeclaration_tracks he).behind n

/-- Whatever is read, what is found is in order. -/
theorem program_tracks (depth : Nat) : Tracks tokens (program depth) := by
  refine itemsUntil_tracks ?_
  rw [declaration_eq_recover]
  exact recover_tracks ((statement_attempt_tracks depth).2 false)

end Parser

open Lox.Parser

/-- A rejected list is one whose program has these diagnostics. -/
theorem program_of_rejected {depth : Nat} {ds : List Diagnostic}
    (h : (parseWithin depth tokens).result = .error (.rejected ds)) :
    (program depth ⟨tokens, 0, []⟩).state.diagnostics = ds := by
  obtain ⟨ss, s, -, -, hp, -, -⟩ | ⟨s, hp, -⟩ := program_cases depth ⟨tokens, 0, []⟩
  · obtain ⟨-, hd, -⟩ := parseWithin_of_program hp
    rw [hp, Outcome.state, ← hd, Parsed.diagnostics, h]
  · rw [parseWithin, hp] at h
    cases h

/-- **Diagnostics come in source order**, but for assignments.  Each is about a token of the list, and of
two diagnostics the first is found before the token of the second is taken, unless the second is about an
assignment with the first in its value.  If only the first diagnostic is about an assignment, the tokens
stand in the order of the diagnostics. -/
theorem parseWithin_source_order (depth : Nat) (tokens : List Token) {ds : List Diagnostic}
    (h : (parseWithin depth tokens).result = .error (.rejected ds)) :
    ∃ found : List (Finding tokens), found.map Finding.diagnostic = ds ∧
      found.Pairwise Finding.Precedes ∧
      ((∀ d ∈ ds.tail, d.cause ≠ .invalidAssignmentTarget) →
        (found.map Finding.place).Pairwise (· ≤ ·)) := by
  have htracked : Outcome.Tracked tokens 0 [] (program depth ⟨tokens.drop 0, 0, []⟩) :=
    program_tracks depth 0 []
  obtain ⟨-, -, found, hd, -, -, hordered⟩ := htracked.state
  rw [List.drop_zero, program_of_rejected h, List.nil_append] at hd
  refine ⟨found, hd.symm, hordered, fun hc => Finding.places_ordered hordered fun g hg => ?_⟩
  refine hc _ ?_
  rw [hd, ← List.map_tail]
  exact List.mem_map_of_mem hg

/-- In `1 = 2 return x` the assignment is found first, and then the missing semicolon. -/
theorem parseWithin_source_order_two :
    let token kind text := Token.ofText kind text .null 1
    let equals := token .equal "="
    let keyword := token .returnWord "return"
    let tokens := [token .number "1", equals, token .number "2", keyword, token .identifier "x",
      token .eof ""]
    let ds := [⟨.invalidAssignmentTarget, equals, 3⟩, ⟨.expectSemicolonAfterExpression, keyword, 3⟩]
    (parse tokens).result = .error (.rejected ds) ∧
      (∀ d ∈ ds.tail, d.cause ≠ .invalidAssignmentTarget) ∧
      ∃ found : List (Finding tokens), found.map Finding.diagnostic = ds ∧
        found.Pairwise Finding.Precedes ∧ (found.map Finding.place).Pairwise (· ≤ ·) := by
  intro token equals keyword tokens ds
  have hparse : (parse tokens).result = .error (.rejected ds) := by cbv
  have hc : ∀ d ∈ ds.tail, d.cause ≠ .invalidAssignmentTarget := by decide
  obtain ⟨found, hd, hordered, hplaces⟩ := parseWithin_source_order nestingLimit tokens hparse
  exact ⟨hparse, hc, found, hd, hordered, hplaces hc⟩

/-- Of the two assignments in `1 =⏎2 = 3;` the second is found first: there are no places of the two tokens
in the order of the diagnostics. -/
theorem parse_inner_assignment_first :
    let token kind text line := Token.ofText kind text .null line
    let outer := token .equal "=" 1
    let inner := token .equal "=" 2
    let tokens := [token .number "1" 1, outer, token .number "2" 2, inner, token .number "3" 2,
      token .semicolon ";" 2, token .eof "" 2]
    let ds := [⟨.invalidAssignmentTarget, inner, 5⟩, ⟨.invalidAssignmentTarget, outer, 5⟩]
    (parse tokens).result = .error (.rejected ds) ∧
      ¬ ∃ places : List Nat, List.Forall₂ (fun d i => tokens[i]? = some d.token) ds places ∧
        places.Pairwise (· ≤ ·) := by
  intro token outer inner tokens ds
  refine ⟨by cbv, ?_⟩
  rintro ⟨places, hplaces, hordered⟩
  have hinner : ∀ i < tokens.length, tokens[i]? = some inner → i = 3 := by decide
  have houter : ∀ i < tokens.length, tokens[i]? = some outer → i = 1 := by decide
  obtain ⟨i, rest, hi, hrest, rfl⟩ := List.forall₂_cons_left_iff.mp hplaces
  obtain ⟨j, rest, hj, -, rfl⟩ := List.forall₂_cons_left_iff.mp hrest
  obtain ⟨hi', -⟩ := List.getElem?_eq_some_iff.mp hi
  obtain ⟨hj', -⟩ := List.getElem?_eq_some_iff.mp hj
  have hij : i ≤ j := List.rel_of_pairwise_cons hordered List.mem_cons_self
  rw [hinner i hi' hi, houter j hj' hj] at hij
  exact absurd hij (by decide)

end Lox
