import Lox.Proofs.Grammar
import Lox.Proofs.Parser.Reads

/-!
# Repetition in the parser and in the grammar

The three loops of the parser are joined with the repetitions of the grammar, each in both
directions.

* `leftAssoc_gives`, `leftAssoc_reads`: operators between operands, with `JoinedLeft`.
* `entries_gives`, `entries_reads`: entries between parentheses, with `Entries`.
* `itemsUntil_gives`, `itemsUntil_reads`: items up to a token that ends them, with `Sequence`.

A loop is bounded by the tokens that were left when it started.  A round takes a token at least, so
the bound stays as long as the tokens that are left, and it never ends a loop.
-/

namespace Lox.Parser

open Grammar (Phrase)

variable {α : Type}

/-! ### Operators between operands -/

/-- One round of `joinLeft`. -/
theorem joinLeft_cons (kinds : List Kind) (operand : Parser Node)
    (join : Node → Token → Node → Node) (t : Token) (bound : List Token) (left : Node) :
    joinLeft kinds operand join (t :: bound) left = (do
      match ← accept kinds with
      | none => pure left
      | some operator => do
        let right ← operand
        joinLeft kinds operand join bound (join left operator right) : Parser Node) := by
  funext s
  show _ = andThen _ _ s
  simp only [joinLeft, andThen]
  cases accept kinds s with
  | stop why s' => rfl
  | done o s' =>
      cases o with
      | none => rfl
      | some operator =>
          show _ = andThen operand _ s'
          simp only [andThen]
          cases operand s' <;> rfl

section Joined

variable {kinds tight : List Kind} {join : Node → Token → Node → Node} {operand : Parser Node}
  {Operand : Phrase Node}

/-- Joined operands are a chain behind any chain in front of them. -/
theorem joinLeft_gives (he : Kind.eof ∉ kinds) (ho : Gives operand fun ts e _ => Operand ts e)
    (bound : List Token) (left : Node) :
    Gives (joinLeft kinds operand join bound left) fun ts e _ =>
      ∀ us, Grammar.JoinedLeft kinds join Operand us left →
        Grammar.JoinedLeft kinds join Operand (us ++ ts) e := by
  induction bound generalizing left with
  | nil => exact Gives.fail .offEnd _
  | cons t bound ih =>
      rw [joinLeft_cons]
      refine Gives.accept he (Gives.pure fun rest _ us hl => ?_) fun operator => ?_
      · rwa [List.append_nil]
      · refine ho.bind fun ws right => (ih (join left operator right)).mono ?_
        intro ts e rest hj hr ht us hl
        have h := hj (us ++ operator :: ws) (.operator hl ht hr)
        rwa [List.append_assoc] at h

/-- Everything that `leftAssoc` gives is joined to the left. -/
theorem leftAssoc_gives (he : Kind.eof ∉ kinds) (ho : Gives operand fun ts e _ => Operand ts e) :
    Gives (leftAssoc kinds join operand) fun ts e _ =>
      Grammar.JoinedLeft kinds join Operand ts e := by
  intro s e s'' h hd
  rw [leftAssoc] at h
  cases hs : operand s with
  | stop why s' =>
      rw [hs] at h
      cases h
  | done left s' =>
      rw [hs] at h
      obtain ⟨hd', vs, hvs, hj⟩ := joinLeft_gives he ho s'.rest left s' e s'' h hd
      obtain ⟨hd₀, us, hus, hl⟩ := ho s left s' hs hd'
      refine ⟨hd₀, us ++ vs, ?_, hj us (.operand hl)⟩
      rw [hus, hvs, List.append_assoc]

/-- Behind the operands and operators of `ts`, `leftAssoc` is in its loop with their tree at hand.
The bound on the rounds is as long as the tokens left, at least. -/
theorem leftAssoc_reaches (hk : ∀ k ∈ kinds, k ∉ Kind.eof :: tight)
    (ho : ∀ {ts e rest}, Operand ts e → Clear tight rest → Reads operand ts e rest)
    {ts : List Token} {e : Node} (h : Grammar.JoinedLeft kinds join Operand ts e) :
    ∀ rest n ds, Clear tight rest → ∃ bound, rest.length ≤ bound.length ∧
      leftAssoc kinds join operand ⟨ts ++ rest, n, ds⟩ =
        joinLeft kinds operand join bound e ⟨rest, n + ts.length, ds⟩ := by
  induction h with
  | operand h =>
      intro rest n ds hc
      refine ⟨rest, Nat.le_refl _, ?_⟩
      rw [leftAssoc, ho h hc n ds]
  | @operator ts us t l r hl ht hr ih =>
      intro rest n ds hc
      have hkt := hk t.kind ht
      simp only [List.mem_cons, not_or] at hkt
      obtain ⟨bound, hb, hj⟩ := ih (t :: us ++ rest) n ds (clear_cons hkt.2 _)
      match bound, hb with
      | [], hb => simp at hb
      | b :: bound, hb =>
          refine ⟨bound, ?_, ?_⟩
          · simp only [List.cons_append, List.length_cons, List.length_append] at hb
            omega
          · rw [List.append_assoc, hj, joinLeft, List.cons_append, accept_some ht hkt.1]
            dsimp only
            rw [ho hr hc, List.length_append, List.length_cons]
            dsimp only
            congr 2
            omega

/-- What is joined to the left is read by `leftAssoc`, in front of a token that neither goes on
with it nor with an operand. -/
theorem leftAssoc_reads (tight : List Kind) (hk : ∀ k ∈ kinds, k ∉ Kind.eof :: tight)
    (ho : ∀ {ts e rest}, Operand ts e → Clear tight rest → Reads operand ts e rest)
    {ts rest : List Token} {e : Node} (h : Grammar.JoinedLeft kinds join Operand ts e)
    (hc : Clear (kinds ++ tight) rest) : Reads (leftAssoc kinds join operand) ts e rest := by
  intro n ds
  obtain ⟨bound, hb, hj⟩ := leftAssoc_reaches hk ho h rest n ds
    (hc.mono (List.subset_append_right _ _))
  rw [hj]
  match bound, hb with
  | [], hb =>
      obtain ⟨t, us, rfl, -⟩ := hc
      simp at hb
  | b :: bound, hb => rw [joinLeft, accept_clear (hc.mono (List.subset_append_left _ _))]

end Joined

/-! ### Entries between parentheses -/

/-- One round of `entriesFrom`. -/
theorem entriesFrom_cons (tooMany : Cause) (entry : Parser α) (b : Token) (bound : List Token)
    (found : List α) :
    entriesFrom tooMany entry (b :: bound) found = (do
      let t ← peek
      let _ ← (if maxArguments ≤ found.length then report tooMany t else pure () : Parser Unit)
      let a ← entry
      match ← accept [.comma] with
      | none => pure (a :: found).reverse
      | some _ => entriesFrom tooMany entry bound (a :: found) : Parser (List α)) := by
  funext s
  show _ = andThen _ _ s
  simp only [entriesFrom, andThen]
  obtain ⟨_ | ⟨t, rest⟩, n, ds⟩ := s
  · rfl
  · -- the diagnostic for one entry too many does not move the parser
    have noted : (if maxArguments ≤ found.length then report tooMany t else pure () : Parser Unit)
        ⟨t :: rest, n, ds⟩ = .done () (if maxArguments ≤ found.length
          then ⟨t :: rest, n, ds ++ [⟨tooMany, t, n⟩]⟩ else ⟨t :: rest, n, ds⟩) := by
      by_cases hm : maxArguments ≤ found.length
      · simp only [if_pos hm]
        rfl
      · simp only [if_neg hm]
        rfl
    dsimp only [peek]
    show _ = andThen _ _ _
    rw [andThen, noted]
    show _ = andThen _ _ _
    simp only [andThen]
    cases entry (if maxArguments ≤ found.length
      then ⟨t :: rest, n, ds ++ [⟨tooMany, t, n⟩]⟩ else ⟨t :: rest, n, ds⟩) with
    | stop why s' => rfl
    | done a s' =>
        show _ = andThen _ _ s'
        simp only [andThen]
        cases accept [.comma] s' with
        | stop why s'' => rfl
        | done o s'' => cases o <;> rfl

section Entries

variable {tooMany : Cause} {entry : Parser α} {Entry : Phrase α}

/-- The entries found are listed behind those before, and there are not too many. -/
theorem entriesFrom_gives (ho : Gives entry fun ts a _ => Entry ts a) (bound : List Token)
    (found : List α) :
    Gives (entriesFrom tooMany entry bound found) fun ts as _ =>
      ∃ more, as = found.reverse ++ more ∧ Grammar.Listed Entry ts more ∧
        as.length ≤ maxArguments := by
  induction bound generalizing found with
  | nil => exact Gives.fail .offEnd _
  | cons b bound ih =>
      rw [entriesFrom_cons]
      refine Gives.peek.bind fun _ t => ?_
      by_cases hm : maxArguments ≤ found.length
      · rw [if_pos hm]
        refine (Gives.report tooMany t fun _ _ _ => False).bind fun _ _ => ho.bind fun _ a => ?_
        refine Gives.accept (by decide) (Gives.pure fun _ _ _ h => h.elim) fun c => ?_
        exact (ih (a :: found)).mono fun _ _ _ _ _ _ h => h.elim
      · rw [if_neg hm]
        refine (Gives.pure (Q := fun ts _ _ => ts = []) fun _ => rfl).bind fun _ _ =>
          ho.bind fun us a => Gives.accept (by decide) (Gives.pure ?_) fun c => ?_
        · rintro rest - ha rfl ⟨rfl, -⟩
          refine ⟨[a], by simp, by simpa using Grammar.Listed.one ha, ?_⟩
          simp only [List.length_reverse, List.length_cons]
          omega
        · refine (ih (a :: found)).mono ?_
          rintro vs as rest ⟨more, rfl, hl, hn⟩ hc ha rfl ⟨rfl, -⟩
          refine ⟨a :: more, by simp, .more ha ?_ hl, by simpa using hn⟩
          simpa using hc

/-- Everything that `entries` gives is a list that is not too long, or nothing. -/
theorem entries_gives (ho : Gives entry fun ts a _ => Entry ts a) :
    Gives (entries tooMany entry) fun ts as _ => Grammar.Entries Entry ts as := by
  rw [entries]
  refine (check_gives .rightParen).bind fun _ b => ?_
  cases b with
  | true =>
      refine Gives.pure ?_
      rintro rest rfl
      exact .none
  | false =>
      intro s as s' h hd
      obtain ⟨hd₀, ts, hts, more, rfl, hl, hn⟩ := entriesFrom_gives ho s.rest [] s as s' h hd
      refine ⟨hd₀, ts, hts, ?_⟩
      rintro rfl
      exact .some hl hn

variable {tight starts : List Kind}

/-- A list is read up to its end, with what was found before in front. -/
theorem entriesFrom_reads (ht : Kind.comma ∉ tight)
    (ho : ∀ {ts a rest}, Entry ts a → Clear tight rest → Reads entry ts a rest)
    {ts rest : List Token} {as : List α} (h : Grammar.Listed Entry ts as)
    (hc : Clear (.comma :: tight) rest) :
    ∀ (bound : List Token) (found : List α), (ts ++ rest).length ≤ bound.length →
      found.length + as.length ≤ maxArguments →
      Reads (entriesFrom tooMany entry bound found) ts (found.reverse ++ as) rest := by
  -- a token is always left, so the bound on the list is never used up
  have hne : ∀ ts : List Token, ∃ t us, ts ++ rest = t :: us := fun ts => by
    obtain ⟨t, us, rfl, -⟩ := hc
    cases ts with
    | nil => exact ⟨t, us, rfl⟩
    | cons t' ts => exact ⟨t', _, rfl⟩
  induction h with
  | @one ts a h =>
      intro bound found hb hn
      obtain ⟨t, us, htu⟩ := hne ts
      match bound, hb with
      | [], hb => rw [htu] at hb; simp at hb
      | b :: bound, hb =>
          simp only [List.length_singleton] at hn
          rw [entriesFrom_cons]
          refine Reads.peek htu ?_
          rw [if_neg (by omega)]
          refine Reads.first (Reads.pure () _) ?_
          refine Reads.last (ho h (hc.mono (List.subset_cons_self _ _))) ?_
          refine Reads.decline (hc.mono (by simp)) ?_
          rw [← List.reverse_cons]
          exact Reads.pure _ rest
  | @more ts us a as comma h hcomma hs ih =>
      intro bound found hb hn
      obtain ⟨t, vs, htv⟩ := hne (ts ++ comma :: us)
      match bound, hb with
      | [], hb => rw [htv] at hb; simp at hb
      | b :: bound, hb =>
          simp only [List.length_cons, List.length_append] at hb hn
          rw [entriesFrom_cons]
          refine Reads.peek htv ?_
          rw [if_neg (by omega)]
          refine Reads.first (Reads.pure () _) ?_
          refine Reads.bind (ho h (clear_cons (by rwa [hcomma]) _)) ?_
          refine Reads.accept (by simp [hcomma]) (by simp [hcomma]) ?_
          have hr := ih bound (a :: found) (by simp only [List.length_append]; omega)
            (by simp only [List.length_cons]; omega)
          simpa using hr

/-- A list that is not too long is read by `entries`, in front of a closing parenthesis. -/
theorem entries_reads (tight starts : List Kind) (ht : Kind.comma ∉ tight)
    (hr : Kind.rightParen ∉ tight ++ starts)
    (hs : ∀ {ts a}, Entry ts a → StartsWith starts ts)
    (ho : ∀ {ts a rest}, Entry ts a → Clear tight rest → Reads entry ts a rest)
    {ts rest : List Token} {as : List α} {right : Token} (h : Grammar.Entries Entry ts as)
    (hright : right.kind = .rightParen) :
    Reads (entries tooMany entry) ts as (right :: rest) := by
  simp only [List.mem_append, not_or] at hr
  rw [entries]
  cases h with
  | none => exact Reads.checkHit rfl hright (by decide) (Reads.pure [] _)
  | some h hn =>
      have hstart : StartsWith starts ts := by
        cases h with
        | one h => exact hs h
        | more h _ _ => exact (hs h).append _
      refine Reads.checkClear ((hstart.append _).clear fun k hk => ?_) ?_
      · rintro hk'
        rw [List.mem_singleton] at hk'
        exact hr.2 (hk' ▸ hk)
      · intro n ds
        exact entriesFrom_reads ht ho h (clear_cons (by simp [hright, hr.1]) rest) _ [] (by simp)
          (by simpa using hn) n ds

end Entries

/-! ### Items -/

/-- One round of `itemsFrom`. -/
theorem itemsFrom_cons (isLast : Token → Bool) (item : Parser (Option α)) (b : Token)
    (bound : List Token) (found : List α) :
    itemsFrom isLast item (b :: bound) found = (do
      let t ← peek
      if isLast t then pure found.reverse
      else
        match ← item with
        | none => itemsFrom isLast item bound found
        | some a => itemsFrom isLast item bound (a :: found) : Parser (List α)) := by
  funext s
  show _ = andThen _ _ s
  simp only [itemsFrom, andThen]
  obtain ⟨_ | ⟨t, rest⟩, n, ds⟩ := s
  · rfl
  · dsimp only [peek]
    cases isLast t with
    | true => rfl
    | false =>
        show _ = andThen _ _ _
        simp only [andThen]
        cases item ⟨t :: rest, n, ds⟩ with
        | stop why s' => rfl
        | done o s' => cases o <;> rfl

section Items

variable {isLast : Token → Bool} {item : Parser (Option α)} {Item : Phrase α}

/-- The items found stand one behind another, up to a token that is last. -/
theorem itemsFrom_gives (ho : Gives item fun ts o _ => ∃ a, o = some a ∧ Item ts a)
    (bound : List Token) (found : List α) :
    Gives (itemsFrom isLast item bound found) fun ts as rest =>
      (∃ more, as = found.reverse ++ more ∧ Grammar.Sequence Item ts more) ∧
        ∃ t us, rest = t :: us ∧ isLast t = true := by
  induction bound generalizing found with
  | nil => exact Gives.fail .offEnd _
  | cons b bound ih =>
      rw [itemsFrom_cons]
      refine Gives.peek.bind fun _ t => ?_
      cases hlast : isLast t with
      | true =>
          refine Gives.pure ?_
          rintro rest ⟨rfl, us, hrest⟩
          exact ⟨⟨[], by simp, .nil⟩, t, us, hrest, hlast⟩
      | false =>
          refine ho.bind fun us o => ?_
          cases o with
          | none =>
              refine (ih found).mono ?_
              rintro _ _ _ - ⟨a, h, -⟩
              cases h
          | some a =>
              refine (ih (a :: found)).mono ?_
              rintro vs as rest ⟨⟨more, rfl, hs⟩, hl⟩ ⟨a', h, ha⟩ ⟨rfl, -⟩
              cases h
              exact ⟨⟨a :: more, by simp, (Grammar.Sequence.cons ha hs :)⟩, hl⟩

/-- Everything that `itemsUntil` gives is a sequence of items, up to a token that ends them. -/
theorem itemsUntil_gives (ho : Gives item fun ts o _ => ∃ a, o = some a ∧ Item ts a) :
    Gives (itemsUntil isLast item) fun ts as rest =>
      Grammar.Sequence Item ts as ∧ ∃ t us, rest = t :: us ∧ isLast t = true := by
  intro s as s' h hd
  obtain ⟨hd₀, ts, hts, ⟨more, rfl, hs⟩, hl⟩ := itemsFrom_gives ho s.rest [] s as s' h hd
  exact ⟨hd₀, ts, hts, hs, hl⟩

variable {tight starts : List Kind}

/-- Behind an item stands the next one or the token that ends them, so it is clear of what neither is. -/
theorem clear_sequence (hst : ∀ k ∈ starts, k ∉ tight) (hs : ∀ {ts a}, Item ts a → StartsWith starts ts)
    {ts rest : List Token} {as : List α} {t : Token} (h : Grammar.Sequence Item ts as)
    (htt : t.kind ∉ tight) : Clear tight (ts ++ t :: rest) := by
  cases h with
  | nil => exact clear_cons htt rest
  | cons h _ => exact (((hs h).append _).append _).clear hst

/-- Items are read one after another up to the last token, with what was found before in front. -/
theorem itemsFrom_reads (hst : ∀ k ∈ starts, k ∉ tight)
    (hlast : ∀ t : Token, t.kind ∈ starts → isLast t = false)
    (hs : ∀ {ts a}, Item ts a → StartsWith starts ts)
    (ho : ∀ {ts a rest}, Item ts a → Clear tight rest → Reads item ts (some a) rest)
    {ts rest : List Token} {as : List α} {t : Token} (h : Grammar.Sequence Item ts as)
    (ht : isLast t = true) (htt : t.kind ∉ tight) :
    ∀ (bound : List Token) (found : List α), (ts ++ t :: rest).length ≤ bound.length →
      Reads (itemsFrom isLast item bound found) ts (found.reverse ++ as) (t :: rest) := by
  induction h with
  | nil =>
      intro bound found hb
      match bound, hb with
      | [], hb => simp at hb
      | b :: bound, hb =>
          rw [itemsFrom_cons, List.append_nil]
          refine Reads.peek rfl ?_
          rw [if_pos ht]
          exact Reads.pure _ _
  | @cons ts us a as h hseq ih =>
      intro bound found hb
      obtain ⟨t', ts', rfl, ht'⟩ := hs h
      match bound, hb with
      | [], hb => simp at hb
      | b :: bound, hb =>
          simp only [List.length_append, List.length_cons] at hb
          rw [itemsFrom_cons]
          refine Reads.peek rfl ?_
          rw [if_neg (by simp [hlast t' ht'])]
          refine Reads.bind (ho h (clear_sequence hst hs hseq htt)) ?_
          have hr := ih bound (a :: found) (by
            simp only [List.length_append, List.length_cons]
            omega)
          simpa using hr

/-- A sequence of items is read by `itemsUntil`, in front of a token that ends them. -/
theorem itemsUntil_reads (tight : List Kind) (hst : ∀ k ∈ starts, k ∉ tight)
    (hlast : ∀ t : Token, t.kind ∈ starts → isLast t = false)
    (hs : ∀ {ts a}, Item ts a → StartsWith starts ts)
    (ho : ∀ {ts a rest}, Item ts a → Clear tight rest → Reads item ts (some a) rest)
    {ts rest : List Token} {as : List α} {t : Token} (h : Grammar.Sequence Item ts as)
    (ht : isLast t = true) (htt : t.kind ∉ tight) :
    Reads (itemsUntil isLast item) ts as (t :: rest) := fun n ds =>
  itemsFrom_reads hst hlast hs ho h ht htt (ts ++ t :: rest) [] (Nat.le_refl _) n ds

end Items

end Lox.Parser
