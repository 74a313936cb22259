import Lox.Program
import Lox.Proofs.Parser.LongLists

/-!
# What is reported of long lists

A program that is well-formed but for the length of its lists is read to its end, and its diagnostics are
those at the surplus tokens.

* `statement_declaration_notes`, `program_notes`: statements and declarations with lists of any length are
  read, and what is surplus in them is noted.
* `surplusFrom_listed`: of a list of well-formed entries, the entries behind the first `maxArguments` are
  reported, each once and at its first token.
* `program_surplus`: so it is of every list of a program.
* `parse_surplus_twice`: a list with two entries too many is reported twice.
-/

namespace Lox.Parser

open Grammar (Phrase)

variable {α : Type}

/-! ### Items -/

section Items

variable {isLast : Token → Bool} {item : Parser (Option α)} {Item : Phrase α} {tight starts : List Kind}

/-- The rounds over items note what is surplus in each of them. -/
theorem itemsFrom_notes (hst : ∀ k ∈ starts, k ∉ tight)
    (hlast : ∀ t : Token, t.kind ∈ starts → isLast t = false)
    (hs : ∀ {ts a}, Item ts a → StartsWith starts ts)
    (ho : ∀ {ts a rest}, Item ts a → Clear tight rest → Notes item ts (some a) rest)
    {ts rest : List Token} {as : List α} {t : Token} (h : Grammar.Sequence Item ts as)
    (ht : isLast t = true) (htt : t.kind ∉ tight) :
    ∀ (bound : List Token) (found : List α), (ts ++ t :: rest).length ≤ bound.length →
      Notes (itemsFrom isLast item bound found) ts (found.reverse ++ as) (t :: rest) := by
  induction h with
  | nil =>
      intro bound found hb
      cases bound with
      | nil => simp at hb
      | cons b bound =>
          rw [itemsFrom_cons, List.append_nil]
          refine Notes.peek rfl ?_
          rw [if_pos ht]
          exact Notes.pure _ _
  | @cons ts us a as h hseq ih =>
      intro bound found hb
      obtain ⟨t', ts', rfl, ht'⟩ := hs h
      cases bound with
      | nil => simp at hb
      | cons b bound =>
          simp only [List.length_append, List.length_cons] at hb
          rw [itemsFrom_cons]
          refine Notes.peek rfl ?_
          rw [if_neg (by simp [hlast t' ht'])]
          refine Notes.bind (ho h (clear_sequence hst hs hseq htt)) ?_
          have hr := ih bound (a :: found) (by
            simp only [List.length_append, List.length_cons]
            omega)
          simpa using hr

/-- Items up to a token that ends them. -/
theorem itemsUntil_notes (tight : List Kind) (hst : ∀ k ∈ starts, k ∉ tight)
    (hlast : ∀ t : Token, t.kind ∈ starts → isLast t = false)
    (hs : ∀ {ts a}, Item ts a → StartsWith starts ts)
    (ho : ∀ {ts a rest}, Item ts a → Clear tight rest → Notes item ts (some a) rest)
    {ts rest : List Token} {as : List α} {t : Token} (h : Grammar.Sequence Item ts as)
    (ht : isLast t = true) (htt : t.kind ∉ tight) :
    Notes (itemsUntil isLast item) ts as (t :: rest) := by
  have hitems := itemsFrom_notes hst hlast hs ho h ht htt (ts ++ t :: rest) [] (Nat.le_refl _)
  exact ⟨hitems.1, fun behind hb ds => hitems.2 behind hb ds⟩

end Items

/-! ### The forms of statements -/

section Forms

variable {expression : Parser Node} {declaration : Parser (Option Node)} {Expr Item : Phrase Node}

/-- Blocks with long lists in them are read to their brace. -/
theorem blockOf_notes (hs : ∀ {ts d}, Item ts d → StartsWith declarationStarts ts)
    (hd : ∀ {ts d rest}, Item ts d → Clear [.elseWord] rest →
      Notes declaration ts (some d) rest)
    {ts rest : List Token} {body : List Node} {right : Token}
    (h : Grammar.Sequence Item ts body) (hr : right.kind = .rightBrace) :
    Notes (blockOf declaration) (ts ++ [right]) body rest := by
  refine Notes.bind (itemsUntil_notes [.elseWord] (by decide) ?_ hs hd h (by simp [hr])
    (by simp [hr])) ?_
  · have hk : ∀ k ∈ declarationStarts, k ≠ .rightBrace ∧ k ≠ .eof := by decide
    intro t ht
    simpa using hk _ ht
  · exact Notes.expect hr (by decide) (Notes.pure _ rest)

/-- The parameters of a function stand behind `fun` and its name, and are reported as parameters. -/
theorem functionDeclaration_notes (hs : ∀ {ts d}, Item ts d → StartsWith declarationStarts ts)
    (hd : ∀ {ts d rest}, Item ts d → Clear [.elseWord] rest →
      Notes declaration ts (some d) rest)
    {keyword name left right open' close : Token} {ts us rest behind : List Token}
    {params : List Token} {body : List Node} (hk : keyword.kind = .funWord)
    (hn : name.kind = .identifier) (hl : left.kind = .leftParen)
    (hp : Grammar.Long.Entries Grammar.Parameter ts params) (hr : right.kind = .rightParen)
    (ho : open'.kind = .leftBrace) (hb : Grammar.Sequence Item us body)
    (hc : close.kind = .rightBrace) :
    NotesFrom (keyword :: behind) (functionDeclaration declaration)
      (name :: left :: (ts ++ right :: open' :: (us ++ [close]))) (.function name params body) rest := by
  have hcause : causeBehind (name :: keyword :: behind) = .tooManyParameters := by
    simp [causeBehind, hk]
  have hstart : ∀ {ts t}, Grammar.Parameter ts t → StartsWith [.identifier] ts := by
    rintro _ t ⟨h⟩
    exact ⟨t, [], rfl, by simp [h]⟩
  have hlevel : ∀ {ts t}, Grammar.Parameter ts t → Level 0 ts := by
    rintro _ t ⟨h⟩
    exact .token (by simp [h])
  have hparam : ∀ {ts t rest}, Grammar.Parameter ts t → Clear [] rest →
      Notes (expect .identifier .expectParameterName) ts t rest := by
    rintro _ t us ⟨h⟩ -
    exact (expect_reads h (by decide) us).notes_token (by simp [h])
  obtain ⟨hlast, hlist⟩ := entries_notes hcause [] [.identifier] (by decide) (by decide) hstart hlevel
    hparam hl hr hp (open' :: (us ++ [close]) ++ rest)
  have hbody : Notes (do
      let _ ← expect .rightParen .expectParenAfterParameters
      let _ ← expect .leftBrace .expectBraceBeforeBody
      let body ← blockOf declaration
      pure (.function name params body) : Parser Node) (right :: open' :: (us ++ [close]))
        (.function name params body) rest :=
    Notes.expect hr (by decide) (Notes.expect ho (by decide)
      (Notes.last (blockOf_notes hs hd hb hc) (Notes.pure _ rest)))
  refine NotesFrom.token (by simp [hn]) (expect_reads hn (by decide) _) ?_
  refine NotesFrom.token (by simp [hl]) (expect_reads hl (by decide) _) ?_
  refine NotesFrom.bind (hlast.mono (by simp)) hlist (hbody.2 _ ?_)
  exact (hlast.mono (by simp)).append (by simp [NotBehind, hl])

variable (he : ∀ {ts e rest}, Expr ts e → Clear goesOn rest → Notes expression ts e rest)

include he

theorem variableDeclaration_notes {var : Token} {ts rest : List Token} {d : Node}
    (h : Grammar.VariableDeclaration Expr (var :: ts) d) :
    Notes (variableDeclaration expression) ts d rest := by
  cases h with
  | plain _ hn hs =>
      refine Notes.expect hn (by decide) (Notes.decline (clear_cons (by simp [hs]) _) ?_)
      refine Notes.first (Reads.pure Node.null _) ?_
      exact Notes.expect hs (by decide) (Notes.pure _ rest)
  | initialized _ hn heq h hs =>
      refine Notes.expect hn (by decide) (Notes.accept (by simp [heq]) (by simp [heq]) ?_)
      refine Notes.bind (he h (clear_closing (by simp [hs]) _)) ?_
      exact Notes.expect hs (by decide) (Notes.pure _ rest)

theorem expressionStatement_notes {ts rest : List Token} {semicolon : Token} {e : Node}
    (h : Expr ts e) (hs : semicolon.kind = .semicolon) :
    Notes (expressionStatement expression) (ts ++ [semicolon]) (.expression e) rest := by
  refine Notes.bind (he h (clear_closing (by simp [hs]) _)) ?_
  exact Notes.expect hs (by decide) (Notes.pure _ rest)

variable (hst : ∀ {ts e}, Expr ts e → StartsWith expressionStarts ts)

include hst

/-- A clause of a `for` loop that may be left out. -/
theorem expressionUnless_notes {ts : List Token} {o : Option Node} {t : Token}
    (ht : t.kind ∈ [Kind.semicolon, Kind.rightParen]) (h : Grammar.Optional Expr ts o)
    (rest : List Token) :
    Notes (expressionUnless t.kind expression) ts o (t :: rest) := by
  have hne : ∀ k ∈ [Kind.semicolon, Kind.rightParen], k ≠ .eof ∧ k ∉ expressionStarts := by decide
  cases h with
  | none => exact Notes.checkHit rfl (hne _ ht).1 (Notes.pure none _)
  | some h =>
      refine Notes.checkClear (((hst h).append _).clear fun k hk => ?_) ?_
      · rw [List.mem_singleton]
        rintro rfl
        exact (hne _ ht).2 hk
      · exact (he h (clear_closing ht rest)).map some

/-- The clause in front of a loop. -/
theorem loopInitializer_notes {ts : List Token} {around : Node → Node}
    (h : Grammar.Initializer Expr ts around) (rest : List Token) :
    ∃ o, (∀ c n body, forLoop o c n body = around (forLoop none c n body)) ∧
      Notes (loopInitializer expression) ts o rest := by
  cases h with
  | none hs =>
      refine ⟨none, fun _ _ _ => rfl, ?_⟩
      exact Notes.accept (by simp [hs]) (by simp [hs]) (Notes.pure none rest)
  | @«variable» _ d h =>
      refine ⟨some d, fun _ _ _ => rfl, ?_⟩
      obtain ⟨var, us, rfl, hv⟩ := variableDeclaration_startsWith h
      rw [List.mem_singleton] at hv
      refine Notes.decline (clear_cons (by simp [hv]) _) ?_
      refine Notes.accept (by simp [hv]) (by simp [hv]) ?_
      exact (variableDeclaration_notes he h).map some
  | @expression us semicolon e h hs =>
      refine ⟨some (.expression e), fun _ _ _ => rfl, ?_⟩
      have hstart := ((hst h).append [semicolon]).append rest
      refine Notes.decline (hstart.clear (by decide)) ?_
      refine Notes.decline (hstart.clear (by decide)) ?_
      exact (expressionStatement_notes he h hs).map some

theorem condition_notes {ts : List Token} {c : Node} {semicolon : Token}
    (h : Grammar.Condition Expr ts c) (hs : semicolon.kind = .semicolon) (rest : List Token) :
    ∃ o, o.getD (.literal (.bool true)) = c ∧
      Notes (expressionUnless .semicolon expression) ts o (semicolon :: rest) := by
  rw [← hs]
  cases h with
  | none => exact ⟨none, rfl, expressionUnless_notes he hst (by simp [hs]) .none rest⟩
  | some h => exact ⟨some c, rfl, expressionUnless_notes he hst (by simp [hs]) (.some h) rest⟩

theorem increment_notes {ts : List Token} {behind : Node → Node} {right : Token}
    (h : Grammar.Increment Expr ts behind) (hr : right.kind = .rightParen) (rest : List Token) :
    ∃ o, (∀ c body, forLoop none c o body =
        .loop (c.getD (.literal (.bool true))) (behind body)) ∧
      Notes (expressionUnless .rightParen expression) ts o (right :: rest) := by
  rw [← hr]
  cases h with
  | none => exact ⟨none, fun _ _ => rfl, expressionUnless_notes he hst (by simp [hr]) .none rest⟩
  | @some _ e h =>
      exact ⟨some e, fun _ _ => rfl, expressionUnless_notes he hst (by simp [hr]) (.some h) rest⟩

end Forms

/-- Statements and declarations are read in front of anything that does not go on with them, and what is
surplus in them is noted. -/
theorem statement_declaration_notes (n : Nat) :
    (∀ {inFunction dangling ts s rest}, Grammar.Long.Statement inFunction n dangling ts s →
      (dangling = true → Clear [.elseWord] rest) → Notes (statement inFunction n) ts s rest) ∧
    (∀ {inFunction ts d rest}, Grammar.Long.Declaration inFunction n ts d → Clear [.elseWord] rest →
      Notes (declaration inFunction n) ts (some d) rest) := by
  induction n with
  | zero => exact ⟨fun h _ => h.elim, fun h _ => h.elim⟩
  | succ n ih =>
      obtain ⟨ihs, ihd⟩ := ih
      have he := @assignment_notes n
      have hst := @Grammar.Long.expression_startsWith n
      refine ⟨fun {inFunction dangling ts s rest} h hel => ?_, fun {inFunction ts d rest} h hel => ?_⟩
      · rw [Grammar.Long.Statement] at h
        rw [statement]
        cases h with
        | expression h hs =>
            refine Notes.decline ?_ (expressionStatement_notes he h hs)
            exact (((hst h).append _).append _).clear (by decide)
        | print hk h hs =>
            refine Notes.accept (by simp [statementStarts, hk]) (by simp [hk]) ?_
            simp only [hk]
            refine Notes.bind (he h (clear_closing (by simp [hs]) _)) ?_
            exact Notes.expect hs (by decide) (Notes.pure _ rest)
        | returns hf hk h hs =>
            refine Notes.accept (by simp [statementStarts, hk]) (by simp [hk]) ?_
            simp only [hk, returnStatement, hf]
            have hu := hs ▸ expressionUnless_notes he hst (by simp [hs]) h rest
            exact Notes.bind hu (Notes.expect hs (by decide) (Notes.pure _ rest))
        | block hl h hr =>
            refine Notes.accept (by simp [statementStarts, hl]) (by simp [hl]) ?_
            simp only [hl]
            exact (blockOf_notes Grammar.Long.declaration_startsWith ihd h hr).map Node.block
        | branch hk hl hc hr hs =>
            have hclear := hel rfl
            refine Notes.accept (by simp [statementStarts, hk]) (by simp [hk]) ?_
            simp only [hk]
            refine Notes.expect hl (by decide) (Notes.bind (he hc (clear_closing (by simp [hr]) _)) ?_)
            refine Notes.expect hr (by decide) (Notes.last (ihs hs fun _ => hclear) ?_)
            exact Notes.decline hclear (Notes.first (Reads.pure Node.null _)
              (Notes.pure _ rest))
        | branchElse hk hl hc hr hs ho hs' =>
            refine Notes.accept (by simp [statementStarts, hk]) (by simp [hk]) ?_
            simp only [hk]
            refine Notes.expect hl (by decide) (Notes.bind (he hc (clear_closing (by simp [hr]) _)) ?_)
            -- in front of `else` the first branch may not leave one open, so it reads to its own end
            refine Notes.expect hr (by decide) (Notes.bind (ihs hs fun hf => by cases hf) ?_)
            refine Notes.accept (by simp [ho]) (by simp [ho]) ?_
            exact Notes.last (ihs hs' hel) (Notes.pure _ rest)
        | loop hk hl hc hr hs =>
            refine Notes.accept (by simp [statementStarts, hk]) (by simp [hk]) ?_
            simp only [hk]
            refine Notes.expect hl (by decide) (Notes.bind (he hc (clear_closing (by simp [hr]) _)) ?_)
            exact Notes.expect hr (by decide) (Notes.last (ihs hs hel) (Notes.pure _ rest))
        | @forLoop keyword left semicolon right ts us vs ws c s around behind _ hk hl hi hc hsc hn hr
            hs =>
            -- each of the three clauses is read in front of the token that ends it
            obtain ⟨i, haround, hri⟩ := loopInitializer_notes he hst hi
              (us ++ semicolon :: (vs ++ right :: ws) ++ rest)
            obtain ⟨oc, rfl, hrc⟩ := condition_notes he hst hc hsc
              (vs ++ right :: ws ++ rest)
            obtain ⟨on, hbehind, hrn⟩ := increment_notes he hst hn hr (ws ++ rest)
            rw [← hbehind, ← haround]
            refine Notes.accept (by simp [statementStarts, hk]) (by simp [hk]) ?_
            simp only [hk]
            refine Notes.expect hl (by decide) (Notes.bind hri ?_)
            refine Notes.bind (by simpa using hrc) (Notes.expect hsc (by decide) ?_)
            refine Notes.bind (by simpa using hrn) (Notes.expect hr (by decide) ?_)
            exact Notes.last (ihs hs hel) (Notes.pure _ rest)
      · rw [Grammar.Long.Declaration] at h
        rw [declaration]
        -- nothing is given up on the way, so there is nothing to recover from
        refine Notes.recover ?_
        cases h with
        | @function keyword _ _ _ _ close _ _ _ _ hk hn hl hp hr ho hb hc =>
            refine ⟨by simp [NotBehind, hc], fun behind _ => ?_⟩
            refine NotesFrom.token (by simp [hk])
              (fun m ds => accept_some (by simp [hk]) (by simp [hk]) _ m ds) ?_
            simp only [hk]
            exact functionDeclaration_notes Grammar.Long.declaration_startsWith ihd hk hn hl hp hr ho hb
              hc
        | «variable» h =>
            obtain ⟨var, us, rfl, hv⟩ := variableDeclaration_startsWith h
            rw [List.mem_singleton] at hv
            refine Notes.accept (by simp [hv]) (by simp [hv]) ?_
            simp only [hv]
            exact variableDeclaration_notes he h
        | statement h =>
            refine Notes.decline ?_ (ihs h fun _ => hel)
            exact ((Grammar.Long.statement_startsWith h).append _).clear (by decide)

/-- A program is read up to the end, and its surplus tokens are reported. -/
theorem program_notes {n : Nat} {ts rest : List Token} {statements : List Node} {t : Token}
    (h : Grammar.Long.Program n ts statements) (ht : t.kind = .eof) :
    program n ⟨ts ++ t :: rest, 0, []⟩ = .done statements ⟨t :: rest, ts.length, surplus ts⟩ := by
  have hk : ∀ k ∈ declarationStarts, k ≠ .eof := by decide
  have hnotes : Notes (program n) ts statements (t :: rest) :=
    itemsUntil_notes [.elseWord] (by decide) (fun t' ht' => by simpa using hk _ ht')
      Grammar.Long.declaration_startsWith (statement_declaration_notes n).2 h (by simp [ht])
      (by simp [ht])
  have hstart : ∀ kinds, NotBehind kinds [] := fun _ => nofun
  have hread := hnotes.2 [] (hstart _) []
  rw [← surplusFrom_eq_noted (hstart _)] at hread
  simpa [surplus] using hread

/-! ### One list -/

/-- A well-formed entry of a list, standing for its own tokens. -/
inductive Entry : Phrase (List Token) where
  | expression {n : Nat} {ts : List Token} {e : Node} (h : Grammar.Expression n ts e) : Entry ts ts

/-- The diagnostics at the first tokens of entries that stand from a position on, with commas between
them. -/
def firstTokens (cause : Cause) : Nat → List (List Token) → List Diagnostic
  | _, [] => []
  | position, entry :: entries =>
    ⟨cause, entry.headD default, position⟩ :: firstTokens cause (position + entry.length + 1) entries

namespace Entry

variable {ts us behind outer : List Token} {k : Nat}

theorem ne_nil (h : Entry ts us) : ts ≠ [] := by
  obtain ⟨h⟩ := h
  exact (expression_startsWith h).ne_nil

/-- The entries of a list are level: no comma of theirs is one of the list. -/
theorem level (h : Entry ts us) : Level 0 ts := by
  obtain ⟨h⟩ := h
  exact Grammar.Long.expression_level (Grammar.Long.expression_of h)

/-- A well-formed entry is read without a diagnostic, so nothing is surplus behind its first token. -/
theorem noted_eq_nil (h : Entry ts us) :
    NotBehind [.comma] ts.reverse ∧ ∀ behind, NotBehind [.funWord] behind → noted behind ts = [] := by
  obtain @⟨n, ts, e, h⟩ := h
  have hclear : Clear goesOn [Token.ofText .eof "" .null 1] := clear_cons (by decide) []
  obtain ⟨hlast, hnotes⟩ := assignment_notes (Grammar.Long.expression_of h) hclear
  refine ⟨hlast.mono (by simp), fun behind hb => ?_⟩
  have hread := (assignment_reads h hclear behind.length []).symm.trans (hnotes behind hb [])
  have hstate := (Outcome.done.inj hread).2
  exact (congrArg State.diagnostics hstate).symm

/-- An entry is reported once and at its first token, if it is one too many. -/
theorem surplusFrom_eq (h : Entry ts us) (hat : AtEntry outer k behind) :
    surplusFrom behind ts =
      if maxArguments ≤ k then [⟨causeBehind outer, us.headD default, behind.length⟩] else [] := by
  have hnoted := h.noted_eq_nil.2 behind hat.word
  obtain ⟨h⟩ := h
  obtain ⟨t, ts, rfl, -⟩ := expression_startsWith h
  rw [surplusFrom, hat.note_eq]
  rw [noted] at hnoted
  rw [hnoted, List.append_nil]
  rfl

end Entry

/-- Of a list, the entries behind the first `maxArguments` are reported, some of which may stand in front of
the place at hand. -/
theorem surplusFrom_listed {us outer : List Token} {entries : List (List Token)}
    (h : Grammar.Listed Entry us entries) :
    ∀ {behind : List Token} {k : Nat}, AtEntry outer k behind →
      surplusFrom behind us =
        (firstTokens (causeBehind outer) behind.length entries).drop (maxArguments - k) := by
  induction h with
  | @one ts entry h =>
      intro behind k hat
      rw [h.surplusFrom_eq hat, firstTokens, firstTokens]
      split
      · rename_i hk
        rw [Nat.sub_eq_zero_of_le hk, List.drop_zero]
      · rw [List.drop_of_length_le (by simp only [List.length_singleton]; omega)]
  | @more ts us entry entries comma h hcomma _ ih =>
      intro behind k hat
      have hnote : note (ts.reverse ++ behind) comma = [] :=
        note_eq_nil (h.noted_eq_nil.1.append_of_ne_nil (by simpa using h.ne_nil) behind) comma
      have hnext := ih (hat.next h.level hcomma)
      have hlength : (comma :: (ts.reverse ++ behind)).length = behind.length + ts.length + 1 := by
        rw [List.length_cons, List.length_append, List.length_reverse, Nat.add_comm ts.length]
      rw [surplusFrom_append, h.surplusFrom_eq hat, surplusFrom, hnote, List.nil_append, hnext, hlength,
        firstTokens]
      obtain ⟨h⟩ := h
      split
      · rename_i hk
        rw [Nat.sub_eq_zero_of_le hk, Nat.sub_eq_zero_of_le (by omega)]
        rfl
      · rename_i hk
        have hsucc : maxArguments - k = maxArguments - (k + 1) + 1 := by omega
        rw [hsucc, List.drop_succ_cons, List.nil_append]

/-- What is surplus in a stretch of tokens is reported inside it. -/
theorem position_of_mem_surplusFrom {behind ts : List Token} {d : Diagnostic}
    (h : d ∈ surplusFrom behind ts) :
    behind.length ≤ d.position ∧ d.position < behind.length + ts.length := by
  induction ts generalizing behind with
  | nil => cases h
  | cons t ts ih =>
      rw [surplusFrom, List.mem_append] at h
      rw [List.length_cons]
      rcases h with h | h
      · rw [note] at h
        split at h
        · obtain rfl := List.mem_singleton.mp h
          dsimp only
          omega
        · cases h
      · have hd := ih h
        rw [List.length_cons] at hd
        omega

/-- The surplus tokens of a part of a program. -/
theorem filter_surplus (before us after : List Token) (left : Token) :
    (surplus (before ++ left :: (us ++ after))).filter
        (fun d => before.length < d.position ∧ d.position ≤ before.length + us.length) =
      surplusFrom (left :: before.reverse) us := by
  have hsplit : surplus (before ++ left :: (us ++ after)) =
      surplusFrom [] (before ++ [left]) ++ (surplusFrom (left :: before.reverse) us ++
        surplusFrom (us.reverse ++ left :: before.reverse) after) := by
    rw [List.append_cons, surplus, surplusFrom_append, surplusFrom_append _ us]
    simp
  rw [hsplit, List.filter_append, List.filter_append, List.filter_eq_nil_iff.mpr,
    List.filter_eq_self.mpr, List.filter_eq_nil_iff.mpr, List.nil_append, List.append_nil]
  · intro d hd
    have hposition := position_of_mem_surplusFrom hd
    simp only [List.length_append, List.length_reverse, List.length_cons] at hposition
    rw [decide_eq_true_eq]
    omega
  · intro d hd
    have hposition := position_of_mem_surplusFrom hd
    simp only [List.length_reverse, List.length_cons] at hposition
    rw [decide_eq_true_eq]
    omega
  · intro d hd
    have hposition := position_of_mem_surplusFrom hd
    simp only [List.length_append, List.length_cons, List.length_nil] at hposition
    rw [decide_eq_true_eq]
    omega

/-- **A long list is read to its end, and each entry beyond the largest number is reported.**  A program
with lists of any length is read up to the end with all entries of its lists, and the diagnostics are those
at its surplus tokens.  Of these, the ones in a list of well-formed entries are at the first tokens of the
entries behind the first `maxArguments`. -/
theorem program_surplus {depth : Nat} {ts : List Token} {statements : List Node} {eof : Token}
    (h : Grammar.Long.Program depth ts statements) (he : eof.kind = .eof) :
    program depth ⟨ts ++ [eof], 0, []⟩ = .done statements ⟨[eof], ts.length, surplus ts⟩ ∧
      ∀ before left us right after entries, ts = before ++ left :: (us ++ right :: after) →
        left.kind = .leftParen → right.kind = .rightParen → Grammar.Listed Entry us entries →
        (surplus ts).filter
            (fun d => before.length < d.position ∧ d.position ≤ before.length + us.length) =
          (firstTokens (causeBehind before.reverse) (before.length + 1) entries).drop maxArguments := by
  refine ⟨program_notes h he, ?_⟩
  rintro before left us right after entries rfl hl - hus
  rw [filter_surplus, surplusFrom_listed hus (AtEntry.first hl), List.length_cons, List.length_reverse]
  rfl

/-! ### A call with too many arguments -/

/-- A token on the first line. -/
def mark (kind : Kind) (text : String) : Token := .ofText kind text .null 1

/-- The arguments of `f(nil, …, nil);`, one more than `n`. -/
def nils (n : Nat) : List Token :=
  mark .nilWord "nil" :: (List.replicate n [mark .comma ",", mark .nilWord "nil"]).flatten

/-- The arguments of the call are a list as the grammar has it. -/
theorem nils_listed {P : Phrase α} {a : α} (h : P [mark .nilWord "nil"] a) (n : Nat) :
    Grammar.Listed P (nils n) (List.replicate (n + 1) a) := by
  induction n with
  | zero => exact .one h
  | succ n ih => exact .more h rfl ih

/-- The tokens of `f(nil, …, nil);`. -/
def longCall (n : Nat) : List Token :=
  [mark .identifier "f"] ++
    mark .leftParen "(" :: (nils n ++ mark .rightParen ")" :: [mark .semicolon ";"])

theorem nil_expression (n : Nat) :
    Grammar.Expression (n + 2) [mark .nilWord "nil"] (.literal .nil) := by
  rw [Grammar.Expression, Grammar.Unary]
  exact .plain (.of_operand (.call (.primary (.nilWord rfl))))

/-- Such a call is a program but for the length of its list. -/
theorem longCall_program {depth : Nat} (hd : 6 ≤ depth) (n : Nat) :
    Grammar.Long.Program depth (longCall n)
      [.expression (.call (.reference (mark .identifier "f")) (mark .rightParen ")")
        (List.replicate (n + 1) (.literal .nil)))] := by
  obtain ⟨depth, rfl⟩ := Nat.exists_eq_add_of_le' hd
  have hcall : Grammar.Long.Expression (depth + 4)
      ([mark .identifier "f"] ++ mark .leftParen "(" :: (nils n ++ [mark .rightParen ")"]))
      (.call (.reference (mark .identifier "f")) (mark .rightParen ")")
        (List.replicate (n + 1) (.literal .nil))) := by
    rw [Grammar.Long.Expression, Grammar.Long.Unary]
    refine .plain (.of_operand ?_)
    refine .call (.call (.primary (.identifier rfl)) rfl (.some (nils_listed ?_ n)) rfl)
    exact Grammar.Long.expression_of (nil_expression depth)
  have htokens : longCall n = [mark .identifier "f"] ++
      mark .leftParen "(" :: (nils n ++ [mark .rightParen ")"]) ++ [mark .semicolon ";"] ++ [] := by
    simp [longCall]
  have hstatement : Grammar.Long.Statement false (depth + 5) false
      (([mark .identifier "f"] ++ mark .leftParen "(" :: (nils n ++ [mark .rightParen ")"])) ++
        [mark .semicolon ";"])
      (.expression (.call (.reference (mark .identifier "f")) (mark .rightParen ")")
        (List.replicate (n + 1) (.literal .nil)))) := by
    rw [Grammar.Long.Statement]
    exact .expression hcall rfl
  rw [htokens]
  refine Grammar.Sequence.cons ?_ .nil
  rw [Grammar.Long.Declaration]
  exact .statement hstatement

/-- With two arguments too many, the diagnostics are at both of them. -/
theorem program_surplus_two :
    let eof := mark .eof ""
    program 6 ⟨longCall 256 ++ [eof], 0, []⟩ =
        .done [.expression (.call (.reference (mark .identifier "f")) (mark .rightParen ")")
          (List.replicate 257 (.literal .nil)))]
          ⟨[eof], 517, surplus (longCall 256)⟩ ∧
      (surplus (longCall 256)).filter (fun d => 1 < d.position ∧ d.position ≤ 1 + 513) =
        [⟨.tooManyArguments, mark .nilWord "nil", 512⟩,
          ⟨.tooManyArguments, mark .nilWord "nil", 514⟩] := by
  intro eof
  have hlength : (longCall 256).length = 517 := by decide +kernel
  have hnils : (nils 256).length = 513 := by decide +kernel
  have hentry : Entry [mark .nilWord "nil"] [mark .nilWord "nil"] := .expression (nil_expression 0)
  obtain ⟨hread, hlists⟩ := @program_surplus 6 _ _ eof (longCall_program (by decide) 256) rfl
  have hlist := hlists _ _ _ _ _ _ rfl rfl rfl (nils_listed hentry 256)
  rw [hnils] at hlist
  rw [hlength] at hread
  exact ⟨hread, hlist.trans (by decide +kernel)⟩

/-- With two arguments too many, a call is reported twice. -/
theorem parse_surplus_twice :
    (parse (longCall 256 ++ [mark .eof ""])).result = .error (.rejected
      [⟨.tooManyArguments, mark .nilWord "nil", 512⟩,
        ⟨.tooManyArguments, mark .nilWord "nil", 514⟩]) := by
  have hsurplus : surplus (longCall 256) =
      [⟨.tooManyArguments, mark .nilWord "nil", 512⟩,
        ⟨.tooManyArguments, mark .nilWord "nil", 514⟩] := by
    decide +kernel
  have hprogram := longCall_program (by decide : 6 ≤ nestingLimit) 256
  rw [parse, parseWithin, program_notes hprogram rfl, hsurplus]

end Lox.Parser
