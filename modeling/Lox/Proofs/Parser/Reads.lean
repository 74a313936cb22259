import Lox.Parser

/-!
# What a step of a parser reads

Two properties relate a parser to phrases.

* `Reads p ts a rest`: in front of `rest`, the parser `p` takes exactly `ts`, gives `a` and reports
  nothing.
* `Gives p P`: whenever `p` ends with a value and nothing was reported so far, the tokens it took,
  its value and the tokens it left are in `P`.

Both go through the sequencing of steps (`Reads.bind`, `Gives.bind`), single tokens and
recovery.  What a parser takes depends on one token of `rest`; `Clear kinds rest` says that it is there and of
none of the given kinds.
-/

namespace Lox.Parser

variable {α β : Type}

/-- In front of `rest`, `p` takes exactly `ts`, gives `a` and reports nothing. -/
def Reads (p : Parser α) (ts : List Token) (a : α) (rest : List Token) : Prop :=
  ∀ n ds, p ⟨ts ++ rest, n, ds⟩ = .done a ⟨rest, n + ts.length, ds⟩

/-- Whenever `p` ends with a value and nothing was reported, the tokens taken, the value and the
tokens left are in `P`. -/
def Gives (p : Parser α) (P : List Token → α → List Token → Prop) : Prop :=
  ∀ s a s', p s = .done a s' → s'.diagnostics = [] →
    s.diagnostics = [] ∧ ∃ ts, s.rest = ts ++ s'.rest ∧ P ts a s'.rest

/-- There is a next token, and it is of none of these kinds. -/
def Clear (kinds : List Kind) (rest : List Token) : Prop :=
  ∃ t us, rest = t :: us ∧ t.kind ∉ kinds

/-- There is a first token, and it is of one of these kinds. -/
def StartsWith (kinds : List Kind) (ts : List Token) : Prop :=
  ∃ t us, ts = t :: us ∧ t.kind ∈ kinds

/-- What comes next is told by the first token. -/
theorem clear_cons {kinds : List Kind} {t : Token} (h : t.kind ∉ kinds) (us : List Token) :
    Clear kinds (t :: us) :=
  ⟨t, us, rfl, h⟩

/-- Fewer kinds are more easily kept clear of. -/
theorem Clear.mono {kinds kinds' : List Kind} {rest : List Token} (h : Clear kinds rest)
    (hk : kinds' ⊆ kinds) : Clear kinds' rest := by
  obtain ⟨t, us, rfl, ht⟩ := h
  exact clear_cons (fun h' => ht (hk h')) us

/-- What stands behind does not matter for the start. -/
theorem StartsWith.append {kinds : List Kind} {ts : List Token} (h : StartsWith kinds ts)
    (us : List Token) : StartsWith kinds (ts ++ us) := by
  obtain ⟨t, ts, rfl, ht⟩ := h
  exact ⟨t, ts ++ us, rfl, ht⟩

/-- What starts with tokens of some kinds is clear of all others. -/
theorem StartsWith.clear {kinds kinds' : List Kind} {ts : List Token} (h : StartsWith kinds ts)
    (hd : ∀ k ∈ kinds, k ∉ kinds') : Clear kinds' ts := by
  obtain ⟨t, us, rfl, ht⟩ := h
  exact clear_cons (hd _ ht) us

/-! ### Sequencing -/

theorem Reads.pure (a : α) (rest : List Token) : Reads (pure a) [] a rest := fun _ _ => rfl

/-- Sequencing: the second reader goes on where the first has stopped. -/
theorem Reads.bind {p : Parser α} {f : α → Parser β} {ts us rest : List Token} {a : α} {b : β}
    (hp : Reads p ts a (us ++ rest)) (hf : Reads (f a) us b rest) :
    Reads (p >>= f) (ts ++ us) b rest := by
  intro n ds
  show andThen p f _ = _
  rw [andThen, List.append_assoc, hp n ds]
  show f a _ = _
  rw [hf, List.length_append, Nat.add_assoc]

/-- A step and one behind it that takes nothing. -/
theorem Reads.last {p : Parser α} {f : α → Parser β} {ts rest : List Token} {a : α} {b : β}
    (hp : Reads p ts a rest) (hf : Reads (f a) [] b rest) : Reads (p >>= f) ts b rest := by
  have hp' : Reads p ts a ([] ++ rest) := hp
  have h := Reads.bind hp' hf
  rwa [List.append_nil] at h

/-- A step that takes nothing and one behind it. -/
theorem Reads.first {p : Parser α} {f : α → Parser β} {ts rest : List Token} {a : α} {b : β}
    (hp : Reads p [] a (ts ++ rest)) (hf : Reads (f a) ts b rest) : Reads (p >>= f) ts b rest := by
  have h := Reads.bind hp hf
  rwa [List.nil_append] at h

/-- A step that takes one token and one behind it. -/
theorem Reads.token {p : Parser α} {f : α → Parser β} {t : Token} {us rest : List Token} {a : α}
    {b : β} (hp : Reads p [t] a (us ++ rest)) (hf : Reads (f a) us b rest) :
    Reads (p >>= f) (t :: us) b rest := by
  have h := Reads.bind hp hf
  rwa [List.singleton_append] at h

/-- What a reader gives may be changed. -/
theorem Reads.map {p : Parser α} (f : α → β) {ts rest : List Token} {a : α}
    (hp : Reads p ts a rest) : Reads (f <$> p) ts (f a) rest :=
  Reads.last (f := fun a => Pure.pure (f a)) hp (Reads.pure (f a) rest)

/-- A sequence that is done has done both of its parts. -/
theorem bind_eq_done {p : Parser α} {f : α → Parser β} {s s'' : State} {b : β}
    (h : (p >>= f) s = .done b s'') : ∃ a s', p s = .done a s' ∧ f a s' = .done b s'' := by
  have h' : andThen p f s = .done b s'' := h
  rw [andThen] at h'
  cases hp : p s with
  | done a s' =>
      rw [hp] at h'
      exact ⟨a, s', rfl, h'⟩
  | stop why s' =>
      rw [hp] at h'
      cases h'

/-- What is said of a reader may be weakened. -/
theorem Gives.mono {p : Parser α} {P Q : List Token → α → List Token → Prop} (h : Gives p P)
    (hPQ : ∀ ts a rest, P ts a rest → Q ts a rest) : Gives p Q := by
  intro s a s' hp hd
  obtain ⟨h₀, ts, hts, hP⟩ := h s a s' hp hd
  exact ⟨h₀, ts, hts, hPQ _ _ _ hP⟩

theorem Gives.pure {Q : List Token → α → List Token → Prop} {a : α} (h : ∀ rest, Q [] a rest) :
    Gives (pure a) Q := by
  intro s b s' hp hd
  cases (show Outcome.done a s = .done b s' from hp)
  exact ⟨hd, [], rfl, h _⟩

/-- A step and what follows it.  What is known of the first step is handed on to the second as a
premise, with the tokens that the second one takes and leaves as those left by the first. -/
theorem Gives.bind {p : Parser α} {f : α → Parser β} {P : List Token → α → List Token → Prop}
    {Q : List Token → β → List Token → Prop} (hp : Gives p P)
    (hf : ∀ us a, Gives (f a) fun vs b rest => P us a (vs ++ rest) → Q (us ++ vs) b rest) :
    Gives (p >>= f) Q := by
  intro s b s'' h hd
  obtain ⟨a, s', h₁, h₂⟩ := bind_eq_done h
  -- that nothing was reported between the two steps does not depend on what the first one took
  obtain ⟨hd', -⟩ := hf [] a s' b s'' h₂ hd
  obtain ⟨hd₀, us, hus, hP⟩ := hp s a s' h₁ hd'
  obtain ⟨-, vs, hvs, hQ⟩ := hf us a s' b s'' h₂ hd
  refine ⟨hd₀, us ++ vs, ?_, hQ (hvs ▸ hP)⟩
  rw [hus, hvs, List.append_assoc]

/-- A step whose value is only put into a form. -/
theorem Gives.map {p : Parser α} {P : List Token → α → List Token → Prop} (f : α → β)
    {Q : List Token → β → List Token → Prop} (hp : Gives p P)
    (h : ∀ ts a rest, P ts a rest → Q ts (f a) rest) : Gives (f <$> p) Q := by
  show Gives (p >>= fun a => Pure.pure (f a)) Q
  refine Gives.bind hp fun us a => Gives.pure fun rest hP => ?_
  rw [List.append_nil]
  exact h us a rest hP

/-- A step that stops gives nothing. -/
theorem Gives.fail (why : Stop) (P : List Token → α → List Token → Prop) :
    Gives (fail why) P := by
  intro s a s' h _
  cases (show Outcome.stop why s = .done a s' from h)

/-! ### Single tokens -/

/-- A token of a wanted kind is accepted. -/
theorem accept_some {kinds : List Kind} {t : Token} (ht : t.kind ∈ kinds) (he : t.kind ≠ .eof)
    (rest : List Token) (n : Nat) (ds : List Diagnostic) :
    accept kinds ⟨t :: rest, n, ds⟩ = .done (some t) ⟨rest, n + 1, ds⟩ := by
  simp [accept, he, ht]

/-- Any other token is left where it is. -/
theorem accept_clear {kinds : List Kind} {rest : List Token} (h : Clear kinds rest) (n : Nat)
    (ds : List Diagnostic) : accept kinds ⟨rest, n, ds⟩ = .done none ⟨rest, n, ds⟩ := by
  obtain ⟨t, us, rfl, ht⟩ := h
  simp [accept, ht]

/-- A token of another kind is noticed. -/
theorem check_clear {kind : Kind} {rest : List Token} (h : Clear [kind] rest) (n : Nat)
    (ds : List Diagnostic) : check kind ⟨rest, n, ds⟩ = .done false ⟨rest, n, ds⟩ := by
  obtain ⟨t, us, rfl, ht⟩ := h
  have hne : t.kind ≠ kind := fun e => ht (by simp [e])
  simp [check, hne]

/-- And so is one of the kind. -/
theorem check_hit {t : Token} (he : t.kind ≠ .eof) (us : List Token) (n : Nat)
    (ds : List Diagnostic) :
    check t.kind ⟨t :: us, n, ds⟩ = .done true ⟨t :: us, n, ds⟩ := by
  simp [check, he]

/-- A token that is expected is read. -/
theorem expect_reads {kind : Kind} {cause : Cause} {t : Token} (ht : t.kind = kind)
    (he : kind ≠ .eof) (rest : List Token) : Reads (expect kind cause) [t] t rest := by
  intro n ds
  subst ht
  simp [expect, he]

/-- A token of the kind that is expected, and what follows it. -/
theorem Reads.expect {f : Token → Parser β} {kind : Kind} {cause : Cause} {t : Token}
    {us rest : List Token} {b : β} (ht : t.kind = kind) (he : kind ≠ .eof)
    (hf : Reads (f t) us b rest) : Reads (expect kind cause >>= f) (t :: us) b rest :=
  Reads.token (expect_reads ht he (us ++ rest)) hf

/-- A token of one of the kinds that are taken, and what follows it. -/
theorem Reads.accept {f : Option Token → Parser β} {kinds : List Kind} {t : Token}
    {us rest : List Token} {b : β} (ht : t.kind ∈ kinds) (he : t.kind ≠ .eof)
    (hf : Reads (f (some t)) us b rest) : Reads (Parser.accept kinds >>= f) (t :: us) b rest :=
  Reads.token (fun n ds => accept_some ht he (us ++ rest) n ds) hf

/-- A token of none of the kinds that are taken is left. -/
theorem Reads.decline {f : Option Token → Parser β} {kinds : List Kind} {ts rest : List Token}
    {b : β} (hc : Clear kinds (ts ++ rest)) (hf : Reads (f none) ts b rest) :
    Reads (Parser.accept kinds >>= f) ts b rest :=
  Reads.first (fun n ds => accept_clear hc n ds) hf

/-- Reading goes on without the part that the token would start. -/
theorem Reads.checkClear {f : Bool → Parser β} {kind : Kind} {ts rest : List Token} {b : β}
    (hc : Clear [kind] (ts ++ rest)) (hf : Reads (f false) ts b rest) :
    Reads (check kind >>= f) ts b rest :=
  Reads.first (fun n ds => check_clear hc n ds) hf

/-- Reading goes on with the part that the token starts. -/
theorem Reads.checkHit {f : Bool → Parser β} {kind : Kind} {ts rest us : List Token} {t : Token}
    {b : β} (hr : ts ++ rest = t :: us) (ht : t.kind = kind) (he : kind ≠ .eof)
    (hf : Reads (f true) ts b rest) : Reads (check kind >>= f) ts b rest := by
  refine Reads.first (fun n ds => ?_) hf
  subst ht
  rw [hr]
  exact check_hit he us n ds

/-- What was expected is what was read. -/
theorem expect_gives (kind : Kind) (cause : Cause) :
    Gives (expect kind cause) fun ts t _ => ts = [t] ∧ t.kind = kind := by
  rintro ⟨_ | ⟨t, rest⟩, n, ds⟩ a s' h hd
  · cases h
  · by_cases ht : t.kind ≠ .eof && t.kind = kind
    · simp only [Parser.expect, if_pos ht] at h
      cases h
      simp only [Bool.and_eq_true, decide_eq_true_eq] at ht
      exact ⟨hd, [t], rfl, rfl, ht.2⟩
    · simp only [Parser.expect, if_neg ht] at h
      cases h

/-- A token of the kind that is expected, and what follows it. -/
theorem Gives.expect {kind : Kind} {cause : Cause} {f : Token → Parser β}
    {Q : List Token → β → List Token → Prop}
    (hf : ∀ t, Gives (f t) fun vs b rest => t.kind = kind → Q (t :: vs) b rest) :
    Gives (expect kind cause >>= f) Q := by
  refine (expect_gives kind cause).bind fun us t => (hf t).mono ?_
  rintro vs b rest hQ ⟨rfl, ht⟩
  exact hQ ht

/-- A look at the next token takes nothing. -/
theorem check_gives (kind : Kind) : Gives (check kind) fun ts _ _ => ts = [] := by
  rintro ⟨_ | ⟨t, rest⟩, n, ds⟩ a s' h hd
  · cases h
  · cases h
    exact ⟨hd, [], rfl, rfl⟩

/-- A token of one of some kinds or no token, and what follows. -/
theorem Gives.accept {kinds : List Kind} {f : Option Token → Parser β}
    {Q : List Token → β → List Token → Prop} (he : Kind.eof ∉ kinds)
    (hn : Gives (f none) fun vs b rest => Clear kinds (vs ++ rest) → Q vs b rest)
    (hs : ∀ t, Gives (f (some t)) fun vs b rest => t.kind ∈ kinds → Q (t :: vs) b rest) :
    Gives (accept kinds >>= f) Q := by
  have taken : Gives (Parser.accept kinds) fun ts o rest =>
      (o = none ∧ ts = [] ∧ Clear kinds rest) ∨ ∃ t, o = some t ∧ ts = [t] ∧ t.kind ∈ kinds := by
    rintro ⟨_ | ⟨t, rest⟩, n, ds⟩ a s' h hd
    · cases h
    · by_cases ht : t.kind ≠ .eof && kinds.contains t.kind
      · simp only [Parser.accept, if_pos ht] at h
        cases h
        simp only [Bool.and_eq_true, List.contains_iff_mem] at ht
        exact ⟨hd, [t], rfl, .inr ⟨t, rfl, rfl, ht.2⟩⟩
      · simp only [Parser.accept, if_neg ht] at h
        cases h
        refine ⟨hd, [], rfl, .inl ⟨rfl, rfl, clear_cons (fun hk => ht ?_) rest⟩⟩
        simpa [hk] using fun e : t.kind = .eof => he (e ▸ hk)
  refine taken.bind fun us o => ?_
  cases o with
  | none =>
      refine hn.mono ?_
      rintro vs b rest hQ (⟨-, rfl, hc⟩ | ⟨t, h, -⟩)
      · exact hQ hc
      · cases h
  | some t =>
      refine (hs t).mono ?_
      rintro vs b rest hQ (⟨h, -⟩ | ⟨t', h, rfl, ht⟩)
      · cases h
      · cases h
        exact hQ ht

/-- Once something is reported, nothing follows. -/
theorem Gives.report (cause : Cause) (t : Token) (P : List Token → Unit → List Token → Prop) :
    Gives (report cause t) P := by
  intro s a s' h hd
  cases (show Outcome.done () _ = .done a s' from h)
  simp at hd

theorem Gives.peek : Gives peek fun ts t rest => ts = [] ∧ ∃ us, rest = t :: us := by
  rintro ⟨_ | ⟨t, rest⟩, n, ds⟩ a s' h hd
  · cases h
  · cases h
    exact ⟨hd, [], rfl, rfl, rest, rfl⟩

/-- To look ahead reads nothing. -/
theorem Reads.peek {f : Token → Parser β} {t : Token} {ts rest us : List Token} {b : β}
    (hr : ts ++ rest = t :: us) (hf : Reads (f t) ts b rest) : Reads (peek >>= f) ts b rest := by
  refine Reads.first (fun n ds => ?_) hf
  rw [hr]
  rfl

/-! ### Recovery -/

/-- To skip notes nothing. -/
theorem skipFrom_diagnostics {last : Kind} {rest : List Token} {n : Nat} {ds : List Diagnostic}
    {u : Unit} {s : State} (h : skipFrom last rest n ds = .done u s) : s.diagnostics = ds := by
  induction rest generalizing last n with
  | nil => cases h
  | cons t rest ih =>
      rw [skipFrom] at h
      split at h
      · cases h
        rfl
      · exact ih h

/-- And neither does giving up. -/
theorem synchronize_diagnostics {s s' : State} {u : Unit} (h : synchronize s = .done u s') :
    s'.diagnostics = s.diagnostics := by
  obtain ⟨_ | ⟨t, rest⟩, n, ds⟩ := s
  · cases h
  · simp only [synchronize] at h
    split at h
    · cases h
      rfl
    · exact skipFrom_diagnostics h

/-- Where nothing is refused, nothing is given up. -/
theorem Reads.recover {p : Parser α} {ts rest : List Token} {a : α} (h : Reads p ts a rest) :
    Reads (recover p) ts (some a) rest := by
  intro n ds
  rw [Parser.recover, h n ds]

/-- A statement that is given up leaves a diagnostic, so nothing follows from it. -/
theorem Gives.recover {p : Parser α} {P : List Token → α → List Token → Prop} (h : Gives p P) :
    Gives (recover p) fun ts o rest => ∃ a, o = some a ∧ P ts a rest := by
  intro s o s'' hr hd
  rw [Parser.recover] at hr
  cases hp : p s with
  | done a s' =>
      rw [hp] at hr
      cases hr
      obtain ⟨hd₀, ts, hts, hP⟩ := h s a s'' hp hd
      exact ⟨hd₀, ts, hts, a, rfl, hP⟩
  | stop why s' =>
      rw [hp] at hr
      cases why with
      | refused d =>
          obtain ⟨u, s₁, h₁, h₂⟩ := bind_eq_done hr
          cases (show Outcome.done none s₁ = .done o s'' from h₂)
          simp [synchronize_diagnostics h₁] at hd
      | tooDeep =>
          obtain ⟨t, s₁, -, h₂⟩ := bind_eq_done hr
          obtain ⟨_, s₂, h₃, h₄⟩ := bind_eq_done h₂
          cases (show Outcome.done () _ = .done _ s₂ from h₃)
          obtain ⟨u, s₃, h₅, h₆⟩ := bind_eq_done h₄
          cases (show Outcome.done none s₃ = .done o s'' from h₆)
          simp [synchronize_diagnostics h₅] at hd
      | offEnd => cases hr

end Lox.Parser
