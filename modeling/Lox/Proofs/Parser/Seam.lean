import Lox.Proofs.Parser.Expression

/-!
# Two runs of a parser up to a seam

A list of tokens goes on in two ways: `us ++ S.first` and `us ++ S.second`.  The first goes on with a
token for the end, and in the second run some tokens have been taken and some diagnostics reported
before.  The seam `S` holds all this.

`Crosses S p`: the run of `p` on the first list takes only tokens of `us`.  If it leaves one of them,
or if both lists go on in the same way, the second run does the same, its positions moved on.  A
parser that looks at the token behind `us` and goes on without it stops there sooner or later, so
nothing has to be said of the second run once all tokens of `us` are taken.

Crossing goes through sequencing (`Crosses.bind`), through steps on the next token (`look_crosses`)
and through the loops of the parser, so all expressions cross a seam (`assignment_unary_crosses`).
-/

namespace Lox

/-- The same diagnostic, found so many tokens later. -/
def Diagnostic.moved (k : Nat) (d : Diagnostic) : Diagnostic := { d with position := k + d.position }

namespace Parser

variable {α β : Type}

/-- The same reason, so many tokens later. -/
def Stop.moved (k : Nat) : Stop → Stop
  | .refused d => .refused (d.moved k)
  | .tooDeep => .tooDeep
  | .offEnd => .offEnd

/-- The place where a step stops: the token it refuses is the next one, and there is one. -/
def Stop.StandsAt (rest : List Token) : Stop → Prop
  | .refused d => rest.head? = some d.token
  | .tooDeep => True
  | .offEnd => False

/-- Two ways to go on behind a list of tokens. -/
structure Seam where
  /-- How the list goes on in the first run. -/
  first : List Token
  /-- How it goes on in the second run. -/
  second : List Token
  /-- How many tokens more are taken already in the second run. -/
  taken : Nat
  /-- What is reported already in the second run. -/
  reported : List Diagnostic
  /-- The first list ends here. -/
  ended : ∃ t rest, first = t :: rest ∧ t.kind = .eof
  /-- The second list goes on, and not with an `else`. -/
  goesOn : ∃ t rest, second = t :: rest ∧ t.kind ≠ .elseWord

namespace Seam

/-- The state of the first run with some tokens left in front of the seam. -/
def left (S : Seam) (us : List Token) (n : Nat) (ds : List Diagnostic) : State :=
  ⟨us ++ S.first, n, ds⟩

/-- The state of the second run with the same tokens left. -/
def right (S : Seam) (us : List Token) (n : Nat) (ds : List Diagnostic) : State :=
  ⟨us ++ S.second, S.taken + n, S.reported ++ ds.map (·.moved S.taken)⟩

/-- Behind the tokens `us`, the second run is to do what the first one does. -/
def Binds (S : Seam) (us : List Token) : Prop := us ≠ [] ∨ S.first = S.second

/-- The longer the tokens in front, the more is bound. -/
theorem Binds.of_suffix {S : Seam} {us vs : List Token} (h : S.Binds vs) (hv : vs <:+ us) :
    S.Binds us := by
  rcases h with hne | he
  · refine .inl fun hu => hne ?_
    rw [hu] at hv
    exact List.suffix_nil.mp hv
  · exact .inr he

/-- Two states on the left side are the same if the tokens in front of the seam are. -/
theorem left_inj {S : Seam} {us vs : List Token} {n n' : Nat} {ds ds' : List Diagnostic} :
    S.left us n ds = S.left vs n' ds' ↔ us = vs ∧ n = n' ∧ ds = ds' := by
  simp [left]

/-- A token in front that is not for the end stands in front of the seam. -/
theorem left_head {S : Seam} {us : List Token} {n : Nat} {ds : List Diagnostic} {t : Token}
    (h : (S.left us n ds).rest.head? = some t) (ht : t.kind ≠ .eof) : ∃ vs, us = t :: vs := by
  cases us with
  | nil =>
      obtain ⟨e, rest, hfirst, he⟩ := S.ended
      simp only [left, hfirst, List.nil_append, List.head?_cons, Option.some.injEq] at h
      exact absurd (h ▸ he) ht
  | cons u us =>
      cases h
      exact ⟨us, rfl⟩

/-- There is a next token, the same one in both runs where they are to do the same. -/
theorem next (S : Seam) (us : List Token) :
    ∃ t rest, us ++ S.first = t :: rest ∧ (S.Binds us → ∃ rest', us ++ S.second = t :: rest') := by
  cases us with
  | nil =>
      obtain ⟨t, rest, hfirst, -⟩ := S.ended
      refine ⟨t, rest, hfirst, fun hb => ⟨rest, ?_⟩⟩
      rw [List.nil_append, ← hb.resolve_left fun h => h rfl, hfirst]
  | cons t us => exact ⟨t, us ++ S.first, rfl, fun _ => ⟨us ++ S.second, rfl⟩⟩

end Seam

/-- How two runs end that were started with the tokens `us` in front of the seam, at position `n` of
the first run. -/
inductive Outcome.Crosses (S : Seam) (us : List Token) (n : Nat) :
    Outcome α → Outcome α → Prop where
  | done {a : α} {vs : List Token} {n' : Nat} {ds : List Diagnostic} {r : Outcome α}
      (hv : vs <:+ us) (hn : n' + vs.length = n + us.length)
      (h : S.Binds vs → r = .done a (S.right vs n' ds)) :
      Crosses S us n (.done a (S.left vs n' ds)) r
  | stop {why : Stop} {vs : List Token} {n' : Nat} {ds : List Diagnostic} {r : Outcome α}
      (hv : vs <:+ us) (hn : n' + vs.length = n + us.length) (hw : why.StandsAt (vs ++ S.first))
      (h : S.Binds vs → r = .stop (why.moved S.taken) (S.right vs n' ds)) :
      Crosses S us n (.stop why (S.left vs n' ds)) r

/-- Both runs of a step do the same up to the seam. -/
def Crosses (S : Seam) (p : Parser α) : Prop :=
  ∀ us n ds, (p (S.left us n ds)).Crosses S us n (p (S.right us n ds))

variable {S : Seam}

/-! ### Sequencing -/

/-- Sequencing at one place, where the second run may be that of another parser. -/
theorem Outcome.Crosses.bind {p p' : Parser α} {f f' : α → Parser β} {us : List Token} {n : Nat}
    {ds : List Diagnostic} (hp : (p (S.left us n ds)).Crosses S us n (p' (S.right us n ds)))
    (hf : ∀ a vs n' ds', vs <:+ us → p (S.left us n ds) = .done a (S.left vs n' ds') →
      (f a (S.left vs n' ds')).Crosses S vs n' (f' a (S.right vs n' ds'))) :
    ((p >>= f) (S.left us n ds)).Crosses S us n ((p' >>= f') (S.right us n ds)) := by
  show (andThen p f _).Crosses S us n (andThen p' f' _)
  rw [andThen, andThen]
  generalize p (S.left us n ds) = r at hp hf ⊢
  generalize p' (S.right us n ds) = r' at hp ⊢
  cases hp with
  | @done a vs n' ds' _ hv hn h =>
      have hf := hf a vs n' ds' hv rfl
      dsimp only
      generalize f a (S.left vs n' ds') = q at hf ⊢
      cases hf with
      | done hv' hn' h' =>
          refine .done (hv'.trans hv) (by omega) fun hb => ?_
          rw [h (hb.of_suffix hv')]
          exact h' hb
      | stop hv' hn' hw h' =>
          refine .stop (hv'.trans hv) (by omega) hw fun hb => ?_
          rw [h (hb.of_suffix hv')]
          exact h' hb
  | stop hv hn hw h =>
      refine .stop hv hn hw fun hb => ?_
      rw [h hb]

namespace Outcome.Crosses

variable {us vs : List Token} {n n' : Nat} {r r' r'' : Outcome α}

/-- What was started behind some tokens, seen from in front of them. -/
theorem widen (h : r.Crosses S vs n' r') (hv : vs <:+ us) (hn : n' + vs.length = n + us.length) :
    r.Crosses S us n r' := by
  cases h with
  | done hv' hn' h => exact .done (hv'.trans hv) (by omega) h
  | stop hv' hn' hw h => exact .stop (hv'.trans hv) (by omega) hw h

/-- Where a run that gives a value ends. -/
theorem of_done {a : α} {s : State} (h : (Outcome.done a s).Crosses S us n r) :
    ∃ vs n' ds, s = S.left vs n' ds ∧ vs <:+ us ∧ n' + vs.length = n + us.length ∧
      (S.Binds vs → r = .done a (S.right vs n' ds)) := by
  cases h with
  | done hv hn h => exact ⟨_, _, _, rfl, hv, hn, h⟩

/-- The second run matters only where it is to do what the first one does. -/
theorem congr (h : r.Crosses S us n r') (hr : S.Binds us → r'' = r') : r.Crosses S us n r'' := by
  cases h with
  | done hv hn h => exact .done hv hn fun hb => (hr (hb.of_suffix hv)).trans (h hb)
  | stop hv hn hw h => exact .stop hv hn hw fun hb => (hr (hb.of_suffix hv)).trans (h hb)

end Outcome.Crosses

namespace Crosses

/-- Sequencing. -/
theorem bind {p : Parser α} {f : α → Parser β} (hp : Crosses S p) (hf : ∀ a, Crosses S (f a)) :
    Crosses S (p >>= f) :=
  fun us n ds => (hp us n ds).bind fun a vs n' ds' _ _ => hf a vs n' ds'

theorem pure (a : α) : Crosses S (pure a) :=
  fun us _ _ => .done (List.suffix_refl us) rfl fun _ => rfl

/-- What a reader gives may be changed. -/
theorem map {p : Parser α} (f : α → β) (hp : Crosses S p) : Crosses S (f <$> p) :=
  hp.bind fun a => pure (f a)

/-- The bound on nesting is reached on both sides. -/
theorem tooDeep : Crosses S (fail .tooDeep : Parser α) :=
  fun us _ _ => .stop (List.suffix_refl us) rfl trivial fun _ => rfl

/-- Both sides note the same, at the places that correspond. -/
theorem report (cause : Cause) (t : Token) : Crosses S (report cause t) := by
  intro us n ds
  show (Outcome.done () (S.left us n (ds ++ [⟨cause, t, n⟩]))).Crosses S us n _
  refine .done (List.suffix_refl us) rfl fun _ => ?_
  simp [Parser.report, Seam.right, Diagnostic.moved]

end Crosses

/-! ### Steps on the next token -/

/-- What a step does with the next token. -/
inductive Look (α : Type) where
  | keep (a : α)
  | take (a : α)
  | refuse (cause : Cause)

/-- A step that goes by the next token. -/
def look (f : Token → Look α) : Parser α := fun s =>
  match s.rest with
  | [] => .stop .offEnd s
  | t :: rest =>
    match f t with
    | .keep a => .done a s
    | .take a => .done a ⟨rest, s.position + 1, s.diagnostics⟩
    | .refuse cause => .stop (.refused ⟨cause, t, s.position⟩) s

section Look

variable {f : Token → Look α} {t : Token} {a : α} {cause : Cause}

/-- The token is seen and stays. -/
theorem look_keep (h : f t = .keep a) (rest : List Token) (n : Nat) (ds : List Diagnostic) :
    look f ⟨t :: rest, n, ds⟩ = .done a ⟨t :: rest, n, ds⟩ := by
  simp only [look, h]

/-- The token is taken. -/
theorem look_take (h : f t = .take a) (rest : List Token) (n : Nat) (ds : List Diagnostic) :
    look f ⟨t :: rest, n, ds⟩ = .done a ⟨rest, n + 1, ds⟩ := by
  simp only [look, h]

/-- The token is refused, and stays. -/
theorem look_refuse (h : f t = .refuse cause) (rest : List Token) (n : Nat)
    (ds : List Diagnostic) :
    look f ⟨t :: rest, n, ds⟩ = .stop (.refused ⟨cause, t, n⟩) ⟨t :: rest, n, ds⟩ := by
  simp only [look, h]

/-- A step that takes no token for the end crosses every seam. -/
theorem look_crosses (hf : ∀ t a, f t = .take a → t.kind ≠ .eof) : Crosses S (look f) := by
  intro us n ds
  cases us with
  | cons t us =>
      rw [Seam.left, Seam.right, List.cons_append, List.cons_append]
      cases hft : f t with
      | keep a =>
          rw [look_keep hft, look_keep hft]
          exact .done (List.suffix_refl (t :: us)) rfl fun _ => rfl
      | take a =>
          rw [look_take hft, look_take hft]
          refine .done (List.suffix_cons t us) ?_ fun _ => rfl
          rw [List.length_cons]
          omega
      | refuse cause =>
          rw [look_refuse hft, look_refuse hft]
          exact .stop (List.suffix_refl (t :: us)) rfl rfl fun _ => rfl
  | nil =>
      -- the first run takes nothing here, and the second one does the same where the lists go on in
      -- the same way
      obtain ⟨t, rest, hfirst, ht⟩ := S.ended
      have hleft : S.left [] n ds = ⟨t :: rest, n, ds⟩ := by
        rw [Seam.left, hfirst, List.nil_append]
      have hright : S.Binds [] → S.right [] n ds =
          ⟨t :: rest, S.taken + n, S.reported ++ ds.map (·.moved S.taken)⟩ := by
        intro hb
        rw [Seam.right, ← hb.resolve_left fun h => h rfl, hfirst, List.nil_append]
      cases hft : f t with
      | keep a =>
          have hl : look f (S.left [] n ds) = .done a (S.left [] n ds) := by
            rw [hleft, look_keep hft]
          rw [hl]
          refine .done (List.suffix_refl []) rfl fun hb => ?_
          rw [hright hb, look_keep hft]
      | take a => exact absurd ht (hf t a hft)
      | refuse cause =>
          have hl : look f (S.left [] n ds) = .stop (.refused ⟨cause, t, n⟩) (S.left [] n ds) := by
            rw [hleft, look_refuse hft]
          rw [hl]
          refine .stop (List.suffix_refl []) rfl ?_ fun hb => ?_
          · rw [hfirst]
            rfl
          · rw [hright hb, look_refuse hft]
            rfl

end Look

/-- To look at the next token is to keep it. -/
theorem peek_eq_look : peek = look .keep := rfl

theorem check_eq_look (kind : Kind) :
    check kind = look fun t => .keep (t.kind ≠ .eof && t.kind = kind) := rfl

/-- To accept a token is to take it or to keep it. -/
theorem accept_eq_look (kinds : List Kind) :
    accept kinds = look fun t =>
      if t.kind ≠ .eof && kinds.contains t.kind then .take (some t) else .keep none := by
  funext ⟨rest, n, ds⟩
  cases rest with
  | nil => rfl
  | cons t rest =>
      simp only [accept, look]
      split
      · rfl
      · rfl

/-- To expect a token is to take it or to refuse it. -/
theorem expect_eq_look (kind : Kind) (cause : Cause) :
    expect kind cause = look fun t =>
      if t.kind ≠ .eof && t.kind = kind then .take t else .refuse cause := by
  funext ⟨rest, n, ds⟩
  cases rest with
  | nil => rfl
  | cons t rest =>
      simp only [expect, look]
      split
      · rfl
      · rfl

namespace Crosses

theorem peek : Crosses S peek := by
  rw [peek_eq_look]
  exact look_crosses fun _ _ h => (nomatch h)

theorem check (kind : Kind) : Crosses S (check kind) := by
  rw [check_eq_look]
  exact look_crosses fun _ _ h => (nomatch h)

theorem accept (kinds : List Kind) : Crosses S (accept kinds) := by
  rw [accept_eq_look]
  refine look_crosses fun t a h => ?_
  split at h
  · rename_i ht
    simp only [Bool.and_eq_true, decide_eq_true_eq] at ht
    exact ht.1
  · cases h

theorem expect (kind : Kind) (cause : Cause) : Crosses S (expect kind cause) := by
  rw [expect_eq_look]
  refine look_crosses fun t a h => ?_
  split at h
  · rename_i ht
    simp only [Bool.and_eq_true, decide_eq_true_eq] at ht
    exact ht.1
  · cases h

end Crosses

/-! ### Repetition

A loop is bounded by the tokens that are left, so the two runs have different bounds.  Every round
takes a token, and neither bound is used up. -/

/-- A token that is accepted is taken off. -/
theorem accept_length {kinds : List Kind} {t : Token} {s s' : State}
    (h : accept kinds s = .done (some t) s') : s'.rest.length < s.rest.length := by
  obtain ⟨_ | ⟨t', rest⟩, n, ds⟩ := s
  · cases h
  · simp only [accept] at h
    split at h
    · cases h
      exact Nat.lt_succ_self _
    · cases h

theorem peek_head {t : Token} {s s' : State} (h : peek s = .done t s') :
    s'.rest.head? = some t := by
  obtain ⟨_ | ⟨t', rest⟩, n, ds⟩ := s
  · cases h
  · cases h
    rfl

/-- The bounds on the rounds of a loop in both runs are as long as the tokens left. -/
def Seam.Bounds (S : Seam) (us bound bound' : List Token) : Prop :=
  us.length + S.first.length ≤ bound.length ∧ us.length + S.second.length ≤ bound'.length

theorem Seam.bounds_self (S : Seam) (us : List Token) :
    S.Bounds us (us ++ S.first) (us ++ S.second) := by
  rw [Seam.Bounds, List.length_append, List.length_append]
  exact ⟨Nat.le_refl _, Nat.le_refl _⟩

/-- Neither bound is used up, and behind a round both are long enough again. -/
theorem Seam.Bounds.round {us bound bound' : List Token} (h : S.Bounds us bound bound') :
    ∃ b rest b' rest', bound = b :: rest ∧ bound' = b' :: rest' ∧
      ∀ vs, vs.length < us.length → S.Bounds vs rest rest' := by
  obtain ⟨t, after, hfirst, -⟩ := S.ended
  obtain ⟨t', after', hsecond, -⟩ := S.goesOn
  simp only [Seam.Bounds, hfirst, hsecond, List.length_cons] at h ⊢
  obtain ⟨h₁, h₂⟩ := h
  match bound, bound', h₁, h₂ with
  | [], _, h₁, _ => simp at h₁
  | _ :: _, [], _, h₂ => simp at h₂
  | b :: rest, b' :: rest', h₁, h₂ =>
      simp only [List.length_cons] at h₁ h₂
      exact ⟨b, rest, b', rest', rfl, rfl, fun vs hv => by omega⟩

/-- Operands are joined in the same way on both sides, with bounds that suffice on both. -/
theorem joinLeft_crosses {kinds : List Kind} {operand : Parser Node}
    {join : Node → Token → Node → Node} (ho : Crosses S operand) (bound bound' : List Token)
    (left : Node) {us : List Token} (n : Nat) (ds : List Diagnostic)
    (hb : S.Bounds us bound bound') :
    (joinLeft kinds operand join bound left (S.left us n ds)).Crosses S us n
      (joinLeft kinds operand join bound' left (S.right us n ds)) := by
  induction bound generalizing bound' left us n ds with
  | nil =>
      obtain ⟨_, _, _, _, h, -⟩ := hb.round
      cases h
  | cons b bound ih =>
      obtain ⟨_, _, b', rest', h, rfl, hround⟩ := hb.round
      cases h
      rw [joinLeft_cons, joinLeft_cons]
      refine (Crosses.accept kinds us n ds).bind fun o vs n' ds' hv ha => ?_
      cases o with
      | none => exact Crosses.pure left vs n' ds'
      | some operator =>
          refine (ho vs n' ds').bind fun right ws n'' ds'' hw _ => ih _ _ _ _ (hround ws ?_)
          have hlt := accept_length ha
          have hle := hw.length_le
          simp only [Seam.left, List.length_append] at hlt
          omega

/-- So a chain of operands is read alike. -/
theorem leftAssoc_crosses {kinds : List Kind} {join : Node → Token → Node → Node}
    {operand : Parser Node} (ho : Crosses S operand) : Crosses S (leftAssoc kinds join operand) := by
  have heq : leftAssoc kinds join operand =
      operand >>= fun left s => joinLeft kinds operand join s.rest left s := by
    funext s
    show _ = andThen _ _ s
    simp only [leftAssoc, andThen]
    cases operand s <;> rfl
  rw [heq]
  refine ho.bind fun left us n ds => ?_
  exact joinLeft_crosses ho _ _ left n ds (S.bounds_self us)

/-- Entries are counted alike on both sides. -/
theorem entriesFrom_crosses {tooMany : Cause} {entry : Parser α} (he : Crosses S entry)
    (bound bound' : List Token) (found : List α) {us : List Token} (n : Nat)
    (ds : List Diagnostic) (hb : S.Bounds us bound bound') :
    (entriesFrom tooMany entry bound found (S.left us n ds)).Crosses S us n
      (entriesFrom tooMany entry bound' found (S.right us n ds)) := by
  induction bound generalizing bound' found us n ds with
  | nil =>
      obtain ⟨_, _, _, _, h, -⟩ := hb.round
      cases h
  | cons b bound ih =>
      obtain ⟨_, _, b', rest', h, rfl, hround⟩ := hb.round
      cases h
      rw [entriesFrom_cons, entriesFrom_cons]
      refine (Crosses.peek us n ds).bind fun t vs n₁ ds₁ hv _ => ?_
      have hnoted :
          Crosses S (if maxArguments ≤ found.length then report tooMany t else pure ()) := by
        split
        · exact Crosses.report tooMany t
        · exact Crosses.pure ()
      refine (hnoted vs n₁ ds₁).bind fun _ vs₁ n₂ ds₂ hv₁ _ => ?_
      refine (he vs₁ n₂ ds₂).bind fun a vs₂ n₃ ds₃ hv₂ _ => ?_
      refine (Crosses.accept [.comma] vs₂ n₃ ds₃).bind fun o vs₃ n₄ ds₄ hv₃ ha => ?_
      cases o with
      | none => exact Crosses.pure _ vs₃ n₄ ds₄
      | some comma =>
          refine ih _ _ _ _ (hround vs₃ ?_)
          have hlt := accept_length ha
          have hle := ((hv₂.trans hv₁).trans hv).length_le
          simp only [Seam.left, List.length_append] at hlt
          omega

/-- So a list in parentheses is read alike. -/
theorem entries_crosses {tooMany : Cause} {entry : Parser α} (he : Crosses S entry) :
    Crosses S (entries tooMany entry) := by
  refine (Crosses.check .rightParen).bind fun b => ?_
  cases b with
  | true => exact Crosses.pure []
  | false => exact fun us n ds => entriesFrom_crosses he _ _ [] n ds (S.bounds_self us)

/-- In front of a token that is not for the end, a run that gives a value takes that token. -/
def Takes (S : Seam) (p : Parser α) : Prop :=
  ∀ t us n ds a vs n' ds', t.kind ≠ .eof → p (S.left (t :: us) n ds) = .done a (S.left vs n' ds') →
    vs.length < (t :: us).length

/-- Items are read alike as long as each takes a token, up to the seam. -/
theorem itemsFrom_crosses {isLast : Token → Bool} {item : Parser (Option α)}
    (hl : ∀ t : Token, t.kind = .eof → isLast t = true) (hi : Crosses S item) (ht : Takes S item)
    (bound bound' : List Token) (found : List α) {us : List Token} (n : Nat)
    (ds : List Diagnostic) (hb : S.Bounds us bound bound') :
    (itemsFrom isLast item bound found (S.left us n ds)).Crosses S us n
      (itemsFrom isLast item bound' found (S.right us n ds)) := by
  induction bound generalizing bound' found us n ds with
  | nil =>
      obtain ⟨_, _, _, _, h, -⟩ := hb.round
      cases h
  | cons b bound ih =>
      obtain ⟨_, _, b', rest', h, rfl, hround⟩ := hb.round
      cases h
      rw [itemsFrom_cons, itemsFrom_cons]
      refine (Crosses.peek us n ds).bind fun t vs n₁ ds₁ hv hp => ?_
      cases hlast : isLast t with
      | true => exact Crosses.pure _ vs n₁ ds₁
      | false =>
          have hne : t.kind ≠ .eof := fun h => by rw [hl t h] at hlast; cases hlast
          obtain ⟨vs, rfl⟩ := Seam.left_head (peek_head hp) hne
          have hround' : ∀ ws n₂ ds₂ o, item (S.left (t :: vs) n₁ ds₁) = .done o (S.left ws n₂ ds₂) →
              S.Bounds ws bound rest' := by
            intro ws n₂ ds₂ o h
            refine hround ws ?_
            have hlt := ht t vs n₁ ds₁ o ws n₂ ds₂ hne h
            have hle := hv.length_le
            omega
          refine (hi (t :: vs) n₁ ds₁).bind fun o ws n₂ ds₂ hw h => ?_
          cases o with
          | none => exact ih _ _ _ _ (hround' ws n₂ ds₂ _ h)
          | some a => exact ih _ _ _ _ (hround' ws n₂ ds₂ _ h)

theorem itemsUntil_crosses {isLast : Token → Bool} {item : Parser (Option α)}
    (hl : ∀ t : Token, t.kind = .eof → isLast t = true) (hi : Crosses S item)
    (ht : Takes S item) : Crosses S (itemsUntil isLast item) :=
  fun us n ds => itemsFrom_crosses hl hi ht _ _ [] n ds (S.bounds_self us)

/-! ### Expressions -/

/-- The tree of a token that stands by itself; none for an opening parenthesis. -/
def primaryLook (t : Token) : Look (Option Node) :=
  match t.kind with
  | .falseWord => .take (some (.literal (.bool false)))
  | .trueWord => .take (some (.literal (.bool true)))
  | .nilWord => .take (some (.literal .nil))
  | .number => .take (some (.literal (Node.ofLiteral t.literal)))
  | .string => .take (some (.literal (Node.ofLiteral t.literal)))
  | .identifier => .take (some (.reference t))
  | .leftParen => .take none
  | _ => .refuse .expectExpression

/-- A primary expression is told by its first token. -/
theorem primary_eq_look (expression : Parser Node) :
    primary expression = (do
      match ← look primaryLook with
      | some e => pure e
      | none => do
        let inner ← expression
        let _ ← expect .rightParen .expectParenAfterExpression
        pure (.grouping inner) : Parser Node) := by
  funext ⟨rest, n, ds⟩
  cases rest with
  | nil => rfl
  | cons t rest =>
      obtain ⟨kind, lexeme, literal, line⟩ := t
      cases kind <;> rfl

/-- What is in parentheses is all that a primary expression reads on. -/
theorem primary_crosses {expression : Parser Node} (he : Crosses S expression) :
    Crosses S (primary expression) := by
  rw [primary_eq_look]
  refine (look_crosses fun t a h heof => ?_).bind fun o => ?_
  · simp only [primaryLook, heof] at h
    cases h
  · cases o with
    | some e => exact Crosses.pure e
    | none => exact he.bind fun inner => (Crosses.expect _ _).bind fun _ => Crosses.pure _

theorem argumentList_crosses {expression : Parser Node} (he : Crosses S expression) :
    Crosses S (argumentList expression) :=
  (entries_crosses he).bind fun _ => (Crosses.expect _ _).bind fun _ => Crosses.pure _

/-- Calls behind a callee are read alike. -/
theorem callsFrom_crosses {expression : Parser Node} (he : Crosses S expression)
    (bound bound' : List Token) (callee : Node) {us : List Token} (n : Nat)
    (ds : List Diagnostic) (hb : S.Bounds us bound bound') :
    (callsFrom expression bound callee (S.left us n ds)).Crosses S us n
      (callsFrom expression bound' callee (S.right us n ds)) := by
  induction bound generalizing bound' callee us n ds with
  | nil =>
      obtain ⟨_, _, _, _, h, -⟩ := hb.round
      cases h
  | cons b bound ih =>
      obtain ⟨_, _, b', rest', h, rfl, hround⟩ := hb.round
      cases h
      rw [callsFrom_cons, callsFrom_cons]
      refine (Crosses.accept [.leftParen] us n ds).bind fun o vs n₁ ds₁ hv ha => ?_
      cases o with
      | none => exact Crosses.pure callee vs n₁ ds₁
      | some left =>
          refine (argumentList_crosses he vs n₁ ds₁).bind fun found ws n₂ ds₂ hw _ =>
            ih _ _ _ _ (hround ws ?_)
          have hlt := accept_length ha
          have hle := hw.length_le
          simp only [Seam.left, List.length_append] at hlt
          omega

theorem call_crosses {expression : Parser Node} (he : Crosses S expression) :
    Crosses S (call expression) := by
  have heq : call expression =
      primary expression >>= fun callee s => callsFrom expression s.rest callee s := by
    funext s
    show _ = andThen _ _ s
    simp only [call, andThen]
    cases primary expression s <;> rfl
  rw [heq]
  refine (primary_crosses he).bind fun callee us n ds => ?_
  exact callsFrom_crosses he _ _ callee n ds (S.bounds_self us)

/-- All levels of operators between an operand and an assignment. -/
theorem operatorLevels_crosses {operand : Parser Node} (ho : Crosses S operand) :
    Crosses S (operatorLevels operand) := by
  rw [operatorLevels]
  iterate 6 refine leftAssoc_crosses ?_
  exact ho

/-- Whether something can be assigned to is told by its tree and not by the tokens ahead. -/
theorem assignTo_crosses (target : Node) (equals : Token) (value : Node) :
    Crosses S (assignTo target equals value) := by
  unfold assignTo
  split
  · exact Crosses.pure _
  · exact (Crosses.report _ _).bind fun _ => Crosses.pure _

/-- Expressions are read alike on both sides, by induction on the bound on nesting. -/
theorem assignment_unary_crosses (depth : Nat) :
    Crosses S (assignment depth) ∧ Crosses S (unary depth) := by
  induction depth with
  | zero => exact ⟨Crosses.tooDeep, Crosses.tooDeep⟩
  | succ depth ih =>
      obtain ⟨ihe, ihu⟩ := ih
      constructor
      · rw [assignment]
        refine (operatorLevels_crosses ihu).bind fun target => (Crosses.accept _).bind fun o => ?_
        cases o with
        | none => exact Crosses.pure target
        | some equals => exact ihe.bind fun value => assignTo_crosses target equals value
      · rw [unary]
        refine (Crosses.accept _).bind fun o => ?_
        cases o with
        | none => exact call_crosses ihe
        | some operator => exact ihu.bind fun right => Crosses.pure _

end Parser

end Lox
