import Lox.Proofs.Grammar.LongLists

/-!
# Long lists are read to their end

The parser of expressions reads every expression with lists of any length, and notes what is surplus in
it.

* `Notes p ts a rest`: in front of `rest`, the parser `p` takes exactly `ts`, gives `a` and reports the
  surplus tokens of `ts`, all but the first: that one is reported before `p` is run, if it is surplus.
* `entries_notes`: a list in parentheses is read, and each entry beyond the largest number is reported.
* `assignment_notes`: so it is of every expression.
-/

namespace Lox.Parser

open Grammar (Phrase)

variable {α β : Type} {behind ts us rest : List Token} {a : α} {b : β}

/-! ### What is noted behind the first token -/

/-- The diagnostics at the surplus ones of some tokens behind others, but for the first. -/
def noted (behind : List Token) : List Token → List Diagnostic
  | [] => []
  | t :: ts => surplusFrom (t :: behind) ts

/-- Behind anything but a comma, the first token is not surplus. -/
theorem surplusFrom_eq_noted (h : NotBehind [.comma] behind) (ts : List Token) :
    surplusFrom behind ts = noted behind ts := by
  cases ts with
  | nil => rfl
  | cons t ts =>
      rw [surplusFrom, note_eq_nil h]
      rfl

/-- What is noted in two stretches is what is noted in each, if the first does not end with a comma. -/
theorem noted_append (h : NotBehind [.comma] ts.reverse) :
    noted behind (ts ++ us) = noted behind ts ++ noted (ts.reverse ++ behind) us := by
  cases ts with
  | nil => rfl
  | cons t ts =>
      rw [← surplusFrom_eq_noted (h.append_of_ne_nil (by simp) behind), List.cons_append, noted,
        surplusFrom_append]
      simp [noted]

theorem noted_cons {t : Token} (ht : t.kind ≠ .comma) :
    noted behind (t :: ts) = noted (t :: behind) ts :=
  surplusFrom_eq_noted (by simpa [NotBehind] using ht) ts

/-! ### Sequencing -/

/-- In front of `rest` and behind the given tokens, `p` takes exactly `ts`, gives `a` and reports the
surplus tokens of `ts` but for the first. -/
def NotesFrom (behind : List Token) (p : Parser α) (ts : List Token) (a : α) (rest : List Token) : Prop :=
  ∀ ds, p ⟨ts ++ rest, behind.length, ds⟩ =
    .done a ⟨rest, (ts.reverse ++ behind).length, ds ++ noted behind ts⟩

/-- The same behind any tokens but `fun`.  The tokens taken do not end with a comma or `fun`, so whatever
comes next starts without a report. -/
def Notes (p : Parser α) (ts : List Token) (a : α) (rest : List Token) : Prop :=
  NotBehind [.comma, .funWord] ts.reverse ∧
    ∀ behind, NotBehind [.funWord] behind → NotesFrom behind p ts a rest

/-- A step that only takes tokens notes nothing where nothing is surplus. -/
theorem Reads.notesFrom {p : Parser α} (h : Reads p ts a rest) (hts : noted behind ts = []) :
    NotesFrom behind p ts a rest := by
  intro ds
  rw [h, hts, List.append_nil, List.length_append, List.length_reverse, Nat.add_comm]

/-- Sequencing behind given tokens. -/
theorem NotesFrom.bind {p : Parser α} {f : α → Parser β} (hts : NotBehind [.comma] ts.reverse)
    (hp : NotesFrom behind p ts a (us ++ rest))
    (hf : NotesFrom (ts.reverse ++ behind) (f a) us b rest) :
    NotesFrom behind (p >>= f) (ts ++ us) b rest := by
  intro ds
  show andThen p f _ = _
  rw [andThen, List.append_assoc, hp ds]
  show f a _ = _
  rw [hf, noted_append hts, List.reverse_append, List.append_assoc, List.append_assoc]

/-- A step that takes one token and one behind it. -/
theorem NotesFrom.token {p : Parser α} {f : α → Parser β} {t : Token} (ht : t.kind ≠ .comma)
    (hp : Reads p [t] a (us ++ rest)) (hf : NotesFrom (t :: behind) (f a) us b rest) :
    NotesFrom behind (p >>= f) (t :: us) b rest :=
  NotesFrom.bind (by simpa [NotBehind] using ht) (hp.notesFrom rfl) hf

/-- Sequencing: the first stretch ends so that the second starts without a report. -/
theorem Notes.bind {p : Parser α} {f : α → Parser β} (hp : Notes p ts a (us ++ rest))
    (hf : Notes (f a) us b rest) : Notes (p >>= f) (ts ++ us) b rest := by
  refine ⟨?_, fun behind hb => ?_⟩
  · rw [List.reverse_append]
    exact hf.1.append hp.1
  · refine NotesFrom.bind (hp.1.mono (by simp)) (hp.2 behind hb) (hf.2 _ ?_)
    exact (hp.1.mono (by simp)).append hb

theorem Notes.pure (a : α) (rest : List Token) : Notes (pure a) [] a rest :=
  ⟨nofun, fun _ _ => (Reads.pure a rest).notesFrom rfl⟩

/-- A step that takes nothing and one behind it. -/
theorem Notes.first {p : Parser α} {f : α → Parser β} (hp : Reads p [] a (ts ++ rest))
    (hf : Notes (f a) ts b rest) : Notes (p >>= f) ts b rest := by
  have hp' : Notes p [] a (ts ++ rest) := ⟨nofun, fun _ _ => hp.notesFrom rfl⟩
  exact Notes.bind hp' hf

/-- A step and one behind it that takes nothing. -/
theorem Notes.last {p : Parser α} {f : α → Parser β} (hp : Notes p ts a rest)
    (hf : Notes (f a) [] b rest) : Notes (p >>= f) ts b rest := by
  have hp' : Notes p ts a ([] ++ rest) := hp
  have h := Notes.bind hp' hf
  rwa [List.append_nil] at h

theorem Notes.map {p : Parser α} (f : α → β) (hp : Notes p ts a rest) :
    Notes (f <$> p) ts (f a) rest :=
  Notes.last (f := fun a => Pure.pure (f a)) hp (Notes.pure (f a) rest)

theorem Notes.recover {p : Parser α} (h : Notes p ts a rest) : Notes (recover p) ts (some a) rest := by
  refine ⟨h.1, fun behind hb ds => ?_⟩
  rw [Parser.recover, h.2 behind hb ds]

/-! ### Single tokens -/

/-- One token, neither a comma nor `fun`. -/
theorem Reads.notes_token {p : Parser α} {t : Token} (ht : t.kind ∉ [Kind.comma, Kind.funWord])
    (h : Reads p [t] a rest) : Notes p [t] a rest := by
  refine ⟨?_, fun _ _ => h.notesFrom rfl⟩
  rintro u ⟨⟩
  exact ht

/-- A token that has to be there, and is. -/
theorem Notes.expect {f : Token → Parser β} {kind : Kind} {cause : Cause} {t : Token}
    (ht : t.kind = kind) (hk : kind ∉ [Kind.eof, Kind.comma, Kind.funWord])
    (hf : Notes (f t) us b rest) : Notes (expect kind cause >>= f) (t :: us) b rest := by
  simp only [List.mem_cons, not_or] at hk
  have hread := @expect_reads kind cause t ht hk.1 (us ++ rest)
  exact Notes.bind (hread.notes_token (by simp [ht, hk])) hf

/-- A token that may be there, and is. -/
theorem Notes.accept {f : Option Token → Parser β} {kinds : List Kind} {t : Token}
    (ht : t.kind ∈ kinds) (hk : t.kind ∉ [Kind.eof, Kind.comma, Kind.funWord])
    (hf : Notes (f (some t)) us b rest) : Notes (Parser.accept kinds >>= f) (t :: us) b rest := by
  simp only [List.mem_cons, not_or] at hk
  have hread : Reads (Parser.accept kinds) [t] (some t) (us ++ rest) :=
    fun n ds => accept_some ht hk.1 (us ++ rest) n ds
  exact Notes.bind (hread.notes_token (by simp [hk])) hf

/-- A token that may be there, and is not. -/
theorem Notes.decline {f : Option Token → Parser β} {kinds : List Kind} (hc : Clear kinds (ts ++ rest))
    (hf : Notes (f none) ts b rest) : Notes (Parser.accept kinds >>= f) ts b rest :=
  Notes.first (fun n ds => accept_clear hc n ds) hf

theorem Notes.checkClear {f : Bool → Parser β} {kind : Kind} (hc : Clear [kind] (ts ++ rest))
    (hf : Notes (f false) ts b rest) : Notes (check kind >>= f) ts b rest :=
  Notes.first (fun n ds => check_clear hc n ds) hf

theorem Notes.peek {f : Token → Parser β} {t : Token} (hr : ts ++ rest = t :: us)
    (hf : Notes (f t) ts b rest) : Notes (peek >>= f) ts b rest := by
  refine Notes.first (fun n ds => ?_) hf
  rw [hr]
  rfl

theorem Notes.checkHit {f : Bool → Parser β} {t : Token} (hr : ts ++ rest = t :: us)
    (he : t.kind ≠ .eof) (hf : Notes (f true) ts b rest) : Notes (check t.kind >>= f) ts b rest := by
  refine Notes.first (fun n ds => ?_) hf
  rw [hr]
  exact check_hit he us n ds

/-! ### Operators between operands -/

section Joined

variable {kinds tight : List Kind} {join : Node → Token → Node → Node} {operand : Parser Node}
  {Operand : Phrase Node}

/-- Behind the operands and operators of `ts`, `leftAssoc` is in its loop with their tree at hand, and the
surplus tokens of `ts` are noted. -/
theorem leftAssoc_reaches_noting
    (hk : ∀ k ∈ kinds, k ∉ Kind.eof :: Kind.comma :: Kind.funWord :: tight)
    (ho : ∀ {ts e rest}, Operand ts e → Clear tight rest → Notes operand ts e rest)
    {ts : List Token} {e : Node} (h : Grammar.JoinedLeft kinds join Operand ts e) :
    ∀ rest, Clear tight rest → NotBehind [.comma, .funWord] ts.reverse ∧
      ∀ behind ds, NotBehind [.funWord] behind → ∃ bound, rest.length ≤ bound.length ∧
        leftAssoc kinds join operand ⟨ts ++ rest, behind.length, ds⟩ =
          joinLeft kinds operand join bound e
            ⟨rest, (ts.reverse ++ behind).length, ds ++ noted behind ts⟩ := by
  induction h with
  | operand h =>
      intro rest hc
      refine ⟨(ho h hc).1, fun behind ds hb => ⟨rest, Nat.le_refl _, ?_⟩⟩
      rw [leftAssoc, (ho h hc).2 behind hb ds]
  | @operator ts us t l r hl ht hr ih =>
      intro rest hc
      have hkt := hk t.kind ht
      simp only [List.mem_cons, not_or] at hkt
      -- the left operand, with the operator and the right one behind it
      obtain ⟨hlast, hreach⟩ := ih (t :: us ++ rest) (clear_cons hkt.2.2.2 _)
      have hright := ho hr hc
      refine ⟨?_, fun behind ds hb => ?_⟩
      · rw [List.reverse_append, List.reverse_cons, List.append_assoc]
        exact hright.1.append (by simp [NotBehind, hkt])
      · obtain ⟨bound, hbound, hj⟩ := hreach behind ds hb
        cases bound with
        | nil => simp at hbound
        | cons b bound =>
            refine ⟨bound, ?_, ?_⟩
            · simp only [List.cons_append, List.length_cons, List.length_append] at hbound
              omega
            · have hnext := hright.2 (t :: (ts.reverse ++ behind)) (by simp [NotBehind, hkt])
                (ds ++ noted behind ts)
              rw [List.append_assoc, hj, joinLeft, List.cons_append, accept_some ht hkt.1]
              dsimp only
              rw [← List.length_cons (a := t), hnext, noted_append (hlast.mono (by simp)),
                noted_cons hkt.2.1]
              simp

/-- A chain of operators notes what its operands note. -/
theorem leftAssoc_notes (tight : List Kind)
    (hk : ∀ k ∈ kinds, k ∉ Kind.eof :: Kind.comma :: Kind.funWord :: tight)
    (ho : ∀ {ts e rest}, Operand ts e → Clear tight rest → Notes operand ts e rest)
    {ts rest : List Token} {e : Node} (h : Grammar.JoinedLeft kinds join Operand ts e)
    (hc : Clear (kinds ++ tight) rest) : Notes (leftAssoc kinds join operand) ts e rest := by
  obtain ⟨hlast, hreach⟩ := leftAssoc_reaches_noting hk ho h rest
    (hc.mono (List.subset_append_right _ _))
  refine ⟨hlast, fun behind hb ds => ?_⟩
  obtain ⟨bound, hbound, hj⟩ := hreach behind ds hb
  rw [hj]
  cases bound with
  | nil =>
      obtain ⟨t, us, rfl, -⟩ := hc
      simp at hbound
  | cons b bound => rw [joinLeft, accept_clear (hc.mono (List.subset_append_left _ _))]

end Joined

/-! ### Entries in parentheses -/

section Entries

variable {tooMany : Cause} {entry : Parser α} {Entry : Phrase α} {tight starts : List Kind}
  {outer : List Token}

theorem StartsWith.ne_nil (h : StartsWith starts ts) : ts ≠ [] := by
  obtain ⟨t, us, rfl, -⟩ := h
  exact List.cons_ne_nil t us

/-- One round of `entriesFrom` at an entry: the entry is reported if it is one too many, and it is read
whether it is or not. -/
theorem entriesFrom_step (hcause : causeBehind outer = tooMany) {found : List α} {ts rest : List Token}
    {a : α} (hne : ts ≠ []) (h : Notes entry ts a rest) (hat : AtEntry outer found.length behind)
    (b : Token) (bound : List Token) (ds : List Diagnostic) :
    entriesFrom tooMany entry (b :: bound) found ⟨ts ++ rest, behind.length, ds⟩ =
      (match accept [.comma] ⟨rest, (ts.reverse ++ behind).length, ds ++ surplusFrom behind ts⟩ with
        | .stop why s => .stop why s
        | .done none s => .done (a :: found).reverse s
        | .done (some _) s => entriesFrom tooMany entry bound (a :: found) s) := by
  obtain ⟨t, ts, rfl⟩ := List.exists_cons_of_ne_nil hne
  have hnote : (if maxArguments ≤ found.length
      then (⟨t :: ts ++ rest, behind.length, ds ++ [⟨tooMany, t, behind.length⟩]⟩ : State)
      else ⟨t :: ts ++ rest, behind.length, ds⟩) =
        ⟨t :: ts ++ rest, behind.length, ds ++ note behind t⟩ := by
    rw [hat.note_eq, hcause]
    split
    · rfl
    · rw [List.append_nil]
  have hentry := h.2 behind hat.word (ds ++ note behind t)
  rw [List.append_assoc] at hentry
  rw [entriesFrom]
  simp only [List.cons_append] at hnote hentry ⊢
  rw [hnote, hentry]
  rfl

/-- A list starts as its first entry does. -/
theorem listed_startsWith (hs : ∀ {ts a}, Entry ts a → StartsWith starts ts) {ts : List Token}
    {as : List α} (h : Grammar.Listed Entry ts as) : StartsWith starts ts := by
  cases h with
  | one h => exact hs h
  | more h _ _ => exact (hs h).append _

/-- Entries from one of them on, with those in front of it at hand. -/
theorem entriesFrom_notes (hcause : causeBehind outer = tooMany) (ht : Kind.comma ∉ tight)
    (hs : ∀ {ts a}, Entry ts a → StartsWith starts ts) (hl : ∀ {ts a}, Entry ts a → Level 0 ts)
    (ho : ∀ {ts a rest}, Entry ts a → Clear tight rest → Notes entry ts a rest)
    {ts rest : List Token} {as : List α} (h : Grammar.Listed Entry ts as)
    (hc : Clear (.comma :: tight) rest) :
    NotBehind [.comma, .funWord] ts.reverse ∧
      ∀ (bound : List Token) (found : List α) (behind : List Token) (ds : List Diagnostic),
        (ts ++ rest).length ≤ bound.length → AtEntry outer found.length behind →
        entriesFrom tooMany entry bound found ⟨ts ++ rest, behind.length, ds⟩ =
          .done (found.reverse ++ as)
            ⟨rest, (ts.reverse ++ behind).length, ds ++ surplusFrom behind ts⟩ := by
  induction h with
  | @one ts a h =>
      have hentry := ho h (hc.mono (List.subset_cons_self _ _))
      refine ⟨hentry.1, fun bound found behind ds hb hat => ?_⟩
      cases bound with
      | nil => simp [(hs h).ne_nil] at hb
      | cons b bound =>
          rw [entriesFrom_step hcause (hs h).ne_nil hentry hat, accept_clear (hc.mono (by simp))]
          simp
  | @more ts us a as comma h hcomma hmore ih =>
      have hentry : Notes entry ts a (comma :: (us ++ rest)) := ho h (clear_cons (by rwa [hcomma]) _)
      obtain ⟨hlast, hrest⟩ := ih
      refine ⟨?_, fun bound found behind ds hb hat => ?_⟩
      · have hne : us.reverse ≠ [] := by simpa using (listed_startsWith hs hmore).ne_nil
        rw [List.reverse_append, List.reverse_cons, List.append_assoc]
        exact hlast.append_of_ne_nil hne _
      · cases bound with
        | nil => simp [(hs h).ne_nil] at hb
        | cons b bound =>
            rw [List.append_assoc, List.cons_append, entriesFrom_step hcause (hs h).ne_nil hentry hat,
              accept_some (by simp [hcomma]) (by simp [hcomma])]
            have hnext := hrest bound (a :: found) (comma :: (ts.reverse ++ behind))
              (ds ++ surplusFrom behind ts) (by simp at hb ⊢; omega) (hat.next (hl h) hcomma)
            have hne : ts.reverse ≠ [] := by simpa using (hs h).ne_nil
            have hnote : note (ts.reverse ++ behind) comma = [] :=
              note_eq_nil ((hentry.1.mono (by simp)).append_of_ne_nil hne behind) comma
            dsimp only
            rw [← List.length_cons (a := comma), hnext, surplusFrom_append, surplusFrom, hnote]
            simp

/-- A list of any length is read by `entries` behind its opening parenthesis, in front of the closing
one. -/
theorem entries_notes (hcause : causeBehind outer = tooMany) (tight starts : List Kind)
    (ht : Kind.comma ∉ tight) (hr : Kind.rightParen ∉ tight ++ starts)
    (hs : ∀ {ts a}, Entry ts a → StartsWith starts ts) (hl : ∀ {ts a}, Entry ts a → Level 0 ts)
    (ho : ∀ {ts a rest}, Entry ts a → Clear tight rest → Notes entry ts a rest)
    {left right : Token} (hleft : left.kind = .leftParen) (hright : right.kind = .rightParen)
    {ts : List Token} {as : List α} (h : Grammar.Long.Entries Entry ts as) (rest : List Token) :
    NotBehind [.comma, .funWord] ts.reverse ∧
      NotesFrom (left :: outer) (entries tooMany entry) ts as (right :: rest) := by
  simp only [List.mem_append, not_or] at hr
  cases h with
  | none =>
      refine ⟨nofun, Reads.notesFrom ?_ rfl⟩
      rw [entries]
      exact Reads.checkHit rfl hright (by decide) (Reads.pure [] _)
  | some h =>
      have hclear : Clear (.comma :: tight) (right :: rest) := clear_cons (by simp [hright, hr.1]) rest
      have hstart : Clear [.rightParen] (ts ++ right :: rest) := by
        refine ((listed_startsWith hs h).append _).clear fun k hk hk' => hr.2 ?_
        exact List.mem_singleton.mp hk' ▸ hk
      obtain ⟨hlast, hlist⟩ := entriesFrom_notes hcause ht hs hl ho h hclear
      refine ⟨hlast, fun ds => ?_⟩
      rw [entries]
      show andThen _ _ _ = _
      rw [andThen, check_clear hstart, ← surplusFrom_eq_noted (by simp [NotBehind, hleft])]
      exact hlist _ [] _ ds (Nat.le_refl _) (.first hleft)

end Entries

/-! ### Expressions -/

section Expressions

variable {expression : Parser Node} {Expr : Phrase Node}

theorem primary_notes
    (he : ∀ {ts e rest}, Expr ts e → Clear goesOn rest → Notes expression ts e rest)
    {ts : List Token} {e : Node} (h : Grammar.Primary Expr ts e) (rest : List Token) :
    Notes (primary expression) ts e rest := by
  cases h with
  | falseWord h | trueWord h | nilWord h | number h | string h | identifier h =>
      refine Reads.notes_token (by simp [h]) fun n ds => ?_
      simp [primary, h]
  | @grouping left right us e hl h hr =>
      have hinner : Notes (do
          let inner ← expression
          let _ ← expect .rightParen .expectParenAfterExpression
          pure (.grouping inner) : Parser Node) (us ++ [right]) (.grouping e) rest := by
        refine Notes.bind (he h (clear_cons ?_ _)) ?_
        · rw [hr]
          decide
        · exact Notes.expect hr (by decide) (Notes.pure _ rest)
      refine ⟨?_, fun behind hb ds => ?_⟩
      · simp [NotBehind, hr]
      · have hread := hinner.2 (left :: behind) (by simp [NotBehind, hl]) ds
        rw [noted_cons (by simp [hl])]
        simp only [primary, List.cons_append, hl]
        simpa using hread

variable (hs : ∀ {ts e}, Expr ts e → StartsWith expressionStarts ts)
  (hl : ∀ {ts e}, Expr ts e → Level 0 ts)
  (he : ∀ {ts e rest}, Expr ts e → Clear goesOn rest → Notes expression ts e rest)

include hs hl he

/-- An argument list behind its opening parenthesis, which tells that the surplus are arguments. -/
theorem argumentList_notes {ts rest outer : List Token} {arguments : List Node} {left right : Token}
    (houter : causeBehind outer = .tooManyArguments) (hleft : left.kind = .leftParen)
    (h : Grammar.Long.Entries Expr ts arguments) (hright : right.kind = .rightParen) :
    NotesFrom (left :: outer) (argumentList expression) (ts ++ [right]) (arguments, right) rest := by
  obtain ⟨hlast, hlist⟩ := entries_notes houter goesOn expressionStarts (by decide) (by decide) hs hl he
    hleft hright h ([] ++ rest)
  refine NotesFrom.bind (hlast.mono (by simp)) hlist (Reads.notesFrom ?_ rfl)
  exact Reads.expect hright (by decide) (Reads.pure _ rest)

/-- Behind the argument lists of `ts`, `call` is in its loop with the callee at hand, and the surplus tokens
of `ts` are noted. -/
theorem call_reaches_noting {ts : List Token} {e : Node} (h : Grammar.Long.Call Expr ts e) :
    NotBehind [.comma, .funWord] ts.reverse ∧
      ∀ rest behind ds, NotBehind [.funWord] behind → ∃ bound, rest.length ≤ bound.length ∧
        call expression ⟨ts ++ rest, behind.length, ds⟩ =
          callsFrom expression bound e
            ⟨rest, (ts.reverse ++ behind).length, ds ++ noted behind ts⟩ := by
  induction h with
  | primary h =>
      refine ⟨(primary_notes he h []).1, fun rest behind ds hb => ⟨rest, Nat.le_refl _, ?_⟩⟩
      rw [call, (primary_notes he h rest).2 behind hb ds]
  | @call ts us left right callee arguments hc hleft ha hright ih =>
      obtain ⟨hlast, hreach⟩ := ih
      refine ⟨by simp [NotBehind, hright], fun rest behind ds hb => ?_⟩
      obtain ⟨bound, hbound, hj⟩ := hreach (left :: (us ++ [right]) ++ rest) behind ds hb
      have houter : causeBehind (ts.reverse ++ behind) = .tooManyArguments :=
        causeBehind_callee (Grammar.Long.call_startsWith hc).ne_nil
          (Grammar.Long.call_level hl hc).words hb
      have hlist := @argumentList_notes _ _ hs hl he _ rest _ _ _ _ houter hleft ha hright
        (ds ++ noted behind ts)
      cases bound with
      | nil => simp at hbound
      | cons b bound =>
          refine ⟨bound, ?_, ?_⟩
          · simp only [List.cons_append, List.length_cons, List.length_append] at hbound
            omega
          · rw [List.append_assoc, hj, callsFrom, List.cons_append,
              accept_some (by simp [hleft]) (by simp [hleft])]
            dsimp only
            rw [← List.length_cons (a := left), hlist, noted_append (hlast.mono (by simp)),
              noted_cons (by simp [hleft])]
            simp

/-- A call is read in front of anything but another argument list. -/
theorem call_notes {ts rest : List Token} {e : Node} (h : Grammar.Long.Call Expr ts e)
    (hc : Clear [.leftParen] rest) : Notes (call expression) ts e rest := by
  obtain ⟨hlast, hreach⟩ := call_reaches_noting hs hl he h
  refine ⟨hlast, fun behind hb ds => ?_⟩
  obtain ⟨bound, hbound, hj⟩ := hreach rest behind ds hb
  rw [hj]
  cases bound with
  | nil =>
      obtain ⟨t, us, rfl, -⟩ := hc
      simp at hbound
  | cons b bound => rw [callsFrom, accept_clear hc]

end Expressions

/-- All levels of operators between the unary ones and an assignment. -/
theorem operatorLevels_notes {operand : Parser Node} {Operand : Phrase Node}
    (ho : ∀ {ts e rest}, Operand ts e → Clear [.leftParen] rest → Notes operand ts e rest)
    {ts rest : List Token} {e : Node} (h : Grammar.LogicOr Operand ts e)
    (hc : Clear goesOn.tail rest) : Notes (operatorLevels operand) ts e rest := by
  refine leftAssoc_notes goesOn.tail.tail (by decide) ?_ h hc
  refine leftAssoc_notes (goesOn.drop 3) (by decide) ?_
  refine leftAssoc_notes (goesOn.drop 5) (by decide) ?_
  refine leftAssoc_notes (goesOn.drop 9) (by decide) ?_
  refine leftAssoc_notes (goesOn.drop 11) (by decide) ?_
  exact leftAssoc_notes (goesOn.drop 13) (by decide) ho

/-- All expressions, by induction on the nesting budget. -/
theorem assignment_unary_notes (n : Nat) :
    (∀ {ts e rest}, Grammar.Long.Expression n ts e → Clear goesOn rest →
      Notes (assignment n) ts e rest) ∧
    (∀ {ts e rest}, Grammar.Long.Unary n ts e → Clear [.leftParen] rest →
      Notes (unary n) ts e rest) := by
  induction n with
  | zero => exact ⟨fun h _ => h.elim, fun h _ => h.elim⟩
  | succ n ih =>
      obtain ⟨ihe, ihu⟩ := ih
      refine ⟨fun {ts e rest} h hc => ?_, fun {ts e rest} h hc => ?_⟩
      · rw [Grammar.Long.Expression] at h
        rw [assignment]
        cases h with
        | plain h =>
            refine Notes.last (operatorLevels_notes ihu h (hc.mono (List.subset_cons_self _ _))) ?_
            exact Notes.decline (hc.mono (by simp [goesOn])) (Notes.pure e rest)
        | @assign name equals us v hn he h =>
            -- the target is read as an operand first, through all levels of operators
            have htarget : Grammar.LogicOr (Grammar.Long.Unary n) [name] (.reference name) := by
              cases n with
              | zero => exact h.elim
              | succ n =>
                  rw [Grammar.Long.Unary]
                  exact .of_operand (.call (.primary (.identifier hn)))
            have hclear : Clear goesOn.tail (equals :: us ++ rest) :=
              clear_cons (by rw [he]; decide) _
            refine Notes.bind (operatorLevels_notes ihu htarget hclear) ?_
            refine Notes.accept (by simp [he]) (by simp [he]) ?_
            exact Notes.last (ihe h hc) (Notes.pure _ rest)
      · rw [Grammar.Long.Unary] at h
        rw [unary]
        cases h with
        | @operator t us e ht h =>
            have hk : ∀ k ∈ [Kind.bang, Kind.minus], k ∉ [Kind.eof, Kind.comma, Kind.funWord] := by
              decide
            exact Notes.accept ht (hk _ ht) (Notes.last (ihu h hc) (Notes.pure _ rest))
        | call h =>
            refine Notes.decline ?_ (call_notes Grammar.Long.expression_startsWith
              Grammar.Long.expression_level ihe h hc)
            exact ((Grammar.Long.call_startsWith h).append rest).clear (by decide)

/-- Every expression is read in front of a token that does not go on with it, and what is surplus in it is
noted. -/
theorem assignment_notes {n : Nat} {ts rest : List Token} {e : Node}
    (h : Grammar.Long.Expression n ts e) (hc : Clear goesOn rest) : Notes (assignment n) ts e rest :=
  (assignment_unary_notes n).1 h hc

end Lox.Parser
