import Mathlib.Order.Bounds.Basic
import Lox.Proofs.Parser.SourceOrder

/-!
# Where reading goes on

A declaration that cannot be read is given up, and reading goes on at the next place where a statement
may start: in front of the end, in front of a keyword that statements start with, or behind a semicolon.
The token at which the declaration is given up is not asked: it is skipped even where it is such a
keyword.

* `ResumesAt tokens e j`: reading may go on at the place `j`, if a declaration is given up at `e`.
* `Boundary tokens e j`: a statement may start at `j`, seen from `e`.  The two differ at `e` only, and
  there only in front of a keyword (`resumesAt_iff_boundary`).
* `skipFrom_resumes`, `synchronize_resumes`: giving up ends at the first place where reading may go on.
* `declaration_resumes`: so does every declaration that is given up, and what follows is read from there.
-/

namespace Lox

namespace Parser

variable {α : Type} {tokens : List Token} {e i j n : Nat} {ds : List Diagnostic}

/-! ### Places -/

/-- The token in front of a place is a semicolon. -/
def BehindSemicolon (tokens : List Token) (j : Nat) : Prop :=
  ∃ t ∈ tokens[j - 1]?, t.kind = .semicolon

instance : Decidable (BehindSemicolon tokens j) :=
  inferInstanceAs (Decidable (∃ t ∈ tokens[j - 1]?, t.kind = .semicolon))

/-- Reading may go on at `j` behind a declaration that is given up at `e`. -/
def ResumesAt (tokens : List Token) (e j : Nat) : Prop :=
  ∃ t ∈ tokens[j]?,
    t.kind = .eof ∨ e < j ∧ (startsStatement t.kind = true ∨ BehindSemicolon tokens j)

/-- A statement may start at `j`, or there is none left; a semicolon in front of `e` does not count. -/
def Boundary (tokens : List Token) (e j : Nat) : Prop :=
  ∃ t ∈ tokens[j]?,
    t.kind = .eof ∨ startsStatement t.kind = true ∨ e < j ∧ BehindSemicolon tokens j

instance : Decidable (Boundary tokens e j) :=
  inferInstanceAs (Decidable (∃ t ∈ tokens[j]?,
    t.kind = .eof ∨ startsStatement t.kind = true ∨ e < j ∧ BehindSemicolon tokens j))

/-- Behind the last token there is nowhere to go on. -/
theorem not_resumesAt_of_drop_eq_nil (h : tokens.drop n = []) (hj : n ≤ j) :
    ¬ ResumesAt tokens e j := by
  rintro ⟨t, ht, -⟩
  have hlen := (List.getElem?_eq_some_iff.mp ht).1
  have hend := List.drop_eq_nil_iff.mp h
  omega

theorem ResumesAt.boundary (h : ResumesAt tokens e j) : Boundary tokens e j := by
  obtain ⟨t, ht, heof | ⟨hlt, hstart | hsemicolon⟩⟩ := h
  · exact ⟨t, ht, .inl heof⟩
  · exact ⟨t, ht, .inr (.inl hstart)⟩
  · exact ⟨t, ht, .inr (.inr ⟨hlt, hsemicolon⟩)⟩

/-- The two differ only in front of a keyword at `e`. -/
theorem resumesAt_iff_boundary {t : Token} (ht : tokens[e]? = some t)
    (hk : startsStatement t.kind = false) (hj : e ≤ j) :
    ResumesAt tokens e j ↔ Boundary tokens e j := by
  refine ⟨ResumesAt.boundary, ?_⟩
  rintro ⟨u, hu, heof | hstart | ⟨hlt, hsemicolon⟩⟩
  · exact ⟨u, hu, .inl heof⟩
  · have hne : e ≠ j := by
      rintro rfl
      rw [ht] at hu
      cases hu
      rw [hk] at hstart
      cases hstart
    exact ⟨u, hu, .inr ⟨by omega, .inl hstart⟩⟩
  · exact ⟨u, hu, .inr ⟨hlt, .inr hsemicolon⟩⟩

/-- At `e` itself reading goes on only in front of the end. -/
theorem resumesAt_self {t : Token} (ht : tokens[e]? = some t) :
    ResumesAt tokens e e ↔ t.kind = .eof := by
  simp [ResumesAt, ht]

/-- Further on, skipping asks just this. -/
theorem resumesAt_iff {t u : Token} (hlt : e < j) (ht : tokens[j]? = some t)
    (hu : tokens[j - 1]? = some u) : ResumesAt tokens e j ↔
      (t.kind = .eof || u.kind = .semicolon || startsStatement t.kind) = true := by
  simp only [ResumesAt, BehindSemicolon, Option.mem_def, ht, hu, hlt, Option.some.injEq,
    exists_eq_left', true_and, Bool.or_eq_true, decide_eq_true_eq]
  tauto

/-! ### Giving up -/

/-- The end of a step that looks for the first place from `n` on where reading may go on. -/
inductive Outcome.Resumes (tokens : List Token) (e n : Nat) (ds : List Diagnostic) :
    Outcome Unit → Prop where
  | found {j : Nat} (h : IsLeast {j | n ≤ j ∧ ResumesAt tokens e j} j) :
      Resumes tokens e n ds (.done () ⟨tokens.drop j, j, ds⟩)
  | offEnd {s : State} (h : ∀ j, n ≤ j → ¬ ResumesAt tokens e j) :
      Resumes tokens e n ds (.stop .offEnd s)

/-- A place where reading may not go on is passed by. -/
theorem Outcome.Resumes.pass {r : Outcome Unit} (hn : ¬ ResumesAt tokens e n)
    (h : r.Resumes tokens e (n + 1) ds) : r.Resumes tokens e n ds := by
  have hnext : ∀ i, n ≤ i → ResumesAt tokens e i → n + 1 ≤ i := by
    intro i hi hr
    rcases Nat.eq_or_lt_of_le hi with rfl | hlt
    · exact absurd hr hn
    · exact hlt
  cases h with
  | found h =>
      obtain ⟨⟨hle, hj⟩, hleast⟩ := h
      exact .found ⟨⟨by omega, hj⟩, fun i hi => hleast ⟨hnext i hi.1 hi.2, hi.2⟩⟩
  | offEnd h => exact .offEnd fun i hi hr => h i (hnext i hi hr) hr

/-- Skipping ends at the first place where reading may go on. -/
theorem skipFrom_resumes {u : Token} (hlt : e < n) (hu : tokens[n - 1]? = some u)
    (ds : List Diagnostic) :
    (skipFrom u.kind (tokens.drop n) n ds).Resumes tokens e n ds := by
  generalize h : tokens.drop n = rest
  induction rest generalizing n u with
  | nil => exact .offEnd fun j hj => not_resumesAt_of_drop_eq_nil h hj
  | cons t rest ih =>
      obtain ⟨ht, hrest⟩ := drop_eq_cons h
      rw [skipFrom]
      split
      · rename_i hstop
        rw [← h]
        exact .found ⟨⟨Nat.le_refl n, (resumesAt_iff hlt ht hu).mpr hstop⟩, fun i hi => hi.1⟩
      · rename_i hpass
        have hnext := ih (n := n + 1) (u := t) (by omega) (by rwa [Nat.add_sub_cancel]) hrest.symm
        exact hnext.pass fun hr => hpass ((resumesAt_iff hlt ht hu).mp hr)

/-- Giving up skips the token at hand, unless it is the end, and then goes on to the first place where
reading may go on. -/
theorem synchronize_resumes (e : Nat) (ds : List Diagnostic) :
    (synchronize ⟨tokens.drop e, e, ds⟩).Resumes tokens e e ds := by
  rw [synchronize]
  cases h : tokens.drop e with
  | nil => exact .offEnd fun j hj => not_resumesAt_of_drop_eq_nil h hj
  | cons t rest =>
      obtain ⟨ht, rfl⟩ := drop_eq_cons h
      dsimp only
      split
      · rename_i heof
        rw [← h]
        exact .found ⟨⟨Nat.le_refl e, (resumesAt_self ht).mpr heof⟩, fun i hi => hi.1⟩
      · rename_i hne
        have hskip := skipFrom_resumes (e := e) (n := e + 1) (u := t) (by omega)
          (by rwa [Nat.add_sub_cancel]) ds
        exact hskip.pass fun hr => hne ((resumesAt_self ht).mp hr)

/-! ### Loops over declarations -/

/-- The bound on the rounds of a loop over items does not matter, as long as there are no fewer than there
are tokens: every item takes one. -/
theorem itemsFrom_bound {isLast : Token → Bool} (hl : ∀ t : Token, t.kind = .eof → isLast t = true)
    {item : Parser (Option α)}
    (hi : ∀ {s : State} {o : Option α} {s' : State}, s.GoesOn → item s = .done o s' →
      s'.rest.length < s.rest.length)
    {bound bound' : List Token} {found : List α} {s : State} (hb : s.rest.length ≤ bound.length)
    (hb' : s.rest.length ≤ bound'.length) :
    itemsFrom isLast item bound found s = itemsFrom isLast item bound' found s := by
  induction bound generalizing bound' found s with
  | nil =>
      have hr : s.rest = [] := List.length_eq_zero_iff.mp (Nat.le_zero.mp hb)
      rw [itemsFrom_nil hr, itemsFrom_nil hr]
  | cons b bound ih =>
      obtain ⟨_ | ⟨t, rest⟩, n, ds⟩ := s
      · rw [itemsFrom_nil rfl, itemsFrom_nil rfl]
      · cases bound' with
        | nil => exact absurd hb' (Nat.not_succ_le_zero _)
        | cons b' bound' =>
            simp only [itemsFrom]
            split
            · rfl
            · rename_i hlast
              have hg : State.GoesOn ⟨t :: rest, n, ds⟩ :=
                ⟨t, rest, rfl, fun he => hlast (hl t he)⟩
              simp only [List.length_cons] at hb hb'
              split
              · rfl
              · rename_i s' hs
                -- every item reads a token, so both bounds last
                have hlt := hi hg hs
                simp only [List.length_cons] at hlt
                exact ih (by omega) (by omega)
              · rename_i a s' hs
                have hlt := hi hg hs
                simp only [List.length_cons] at hlt
                exact ih (by omega) (by omega)

/-- Read or given up, a declaration takes a token. -/
theorem declaration_shortens {inFunction : Bool} {depth : Nat} {s s' : State} {o : Option Node}
    (hg : s.GoesOn) (h : declaration inFunction depth s = .done o s') :
    s'.rest.length < s.rest.length := by
  obtain ⟨⟨ts, hts, -, hlen, -⟩, -⟩ := declaration_leads inFunction depth hg
  rw [h, Outcome.state] at hts
  rw [hts, List.length_append]
  omega

/-- Behind a declaration that is given up, a loop over declarations goes on as if it started there. -/
theorem itemsUntil_of_given_up {isLast : Token → Bool}
    (hl : ∀ t : Token, t.kind = .eof → isLast t = true) {inFunction : Bool} {depth : Nat} {t : Token}
    {rest : List Token} {s s' : State} (hs : s.rest = t :: rest) (ht : isLast t = false)
    (h : declaration inFunction depth s = .done none s') :
    itemsUntil isLast (declaration inFunction depth) s =
      itemsUntil isLast (declaration inFunction depth) s' := by
  have hg : s.GoesOn := ⟨t, rest, hs, fun he => by rw [hl t he] at ht; cases ht⟩
  have hlt := declaration_shortens hg h
  rw [hs] at hlt
  rw [itemsUntil, hs, itemsFrom]
  simp only [hs, ht, h, Bool.false_eq_true, if_false]
  exact itemsFrom_bound hl declaration_shortens (Nat.le_of_lt_succ hlt) (Nat.le_refl _)

/-! ### Declarations -/

/-- A declaration is refused at a token of the list, at a place that it has come to. -/
theorem attempt_refused {inFunction : Bool} {depth : Nat} {d : Diagnostic} {s : State}
    (h : attempt inFunction depth ⟨tokens.drop n, n, ds⟩ = .stop (.refused d) s) :
    n ≤ s.position ∧ tokens[s.position]? = some d.token ∧ s.rest = tokens.drop s.position := by
  have ht : Tracks tokens (attempt inFunction depth) := (statement_attempt_tracks depth).2 inFunction
  have hr := ht n ds
  rw [h] at hr
  cases hr with
  | refused f hs hf _ => exact ⟨hs.le, hf ▸ f.token_eq, hs.rest⟩

/-- Where a declaration is refused, it is reported and given up. -/
theorem declaration_of_refused {inFunction : Bool} {depth : Nat} {d : Diagnostic} {s s' : State}
    (h : attempt inFunction depth s = .stop (.refused d) s') :
    declaration inFunction depth s =
      giveUp ⟨s'.rest, s'.position, s'.diagnostics ++ [d]⟩ := by
  rw [declaration_eq_recover, recover, h]
  rfl

/-- All that giving up can come to. -/
theorem giveUp_cases (tokens : List Token) (e : Nat) (ds : List Diagnostic) :
    (∃ j, IsLeast {j | e ≤ j ∧ ResumesAt tokens e j} j ∧
      giveUp (α := α) ⟨tokens.drop e, e, ds⟩ = .done none ⟨tokens.drop j, j, ds⟩) ∨
    (∀ j, e ≤ j → ¬ ResumesAt tokens e j) ∧
      ∃ s, giveUp (α := α) ⟨tokens.drop e, e, ds⟩ = .stop .offEnd s := by
  have h : (synchronize ⟨tokens.drop e, e, ds⟩).Resumes tokens e e ds := synchronize_resumes e ds
  generalize hr : synchronize ⟨tokens.drop e, e, ds⟩ = r at h
  cases h with
  | @found j hj => exact .inl ⟨j, hj, bind_of_done hr⟩
  | @offEnd s hnone =>
      refine .inr ⟨hnone, s, ?_⟩
      show andThen synchronize _ _ = _
      rw [andThen, hr]

/-- **A declaration that is given up is left at the first place where reading may go on.**  It is given up
at a token of the list.  If there is no such place behind it, the tokens end; otherwise the declarations
from there on are read as if it had not been there.  The place is the next statement boundary, unless the
declaration is given up in front of a keyword that starts a statement; and then the keyword is skipped. -/
theorem declaration_resumes (tokens : List Token) (inFunction : Bool) (depth n : Nat)
    (ds : List Diagnostic) {d : Diagnostic} {s : State}
    (h : attempt inFunction depth ⟨tokens.drop n, n, ds⟩ = .stop (.refused d) s) :
    let e := s.position
    let left := declaration inFunction depth ⟨tokens.drop n, n, ds⟩
    let resumed j : State := ⟨tokens.drop j, j, s.diagnostics ++ [d]⟩
    n ≤ e ∧ tokens[e]? = some d.token ∧
    ((∀ j, e ≤ j → ¬ ResumesAt tokens e j) → ∃ s', left = .stop .offEnd s') ∧
    (∀ j, IsLeast {j | e ≤ j ∧ ResumesAt tokens e j} j → left = .done none (resumed j) ∧
      ∀ isLast : Token → Bool, (∀ t : Token, t.kind = .eof → isLast t = true) →
        (∀ t, tokens[n]? = some t → isLast t = false) →
        itemsUntil isLast (declaration inFunction depth) ⟨tokens.drop n, n, ds⟩ =
          itemsUntil isLast (declaration inFunction depth) (resumed j)) ∧
    (startsStatement d.token.kind = false →
      ∀ j, IsLeast {j | e ≤ j ∧ Boundary tokens e j} j → left = .done none (resumed j)) ∧
    (startsStatement d.token.kind = true → ∀ o s', left = .done o s' → e < s'.position) := by
  intro e left resumed
  obtain ⟨hle, htoken, hrest⟩ := attempt_refused h
  have hleft : left = giveUp ⟨tokens.drop e, e, s.diagnostics ++ [d]⟩ := by
    rw [← hrest]
    exact declaration_of_refused h
  have hfound : ∀ j, IsLeast {j | e ≤ j ∧ ResumesAt tokens e j} j →
      left = .done none (resumed j) := by
    intro j hj
    rw [hleft]
    obtain ⟨j', hj', hg⟩ | ⟨hnone, -⟩ := giveUp_cases (α := Node) tokens e (s.diagnostics ++ [d])
    · rw [hg, hj.unique hj']
    · exact absurd hj.1.2 (hnone j hj.1.1)
  refine ⟨hle, htoken, fun hnone => ?_, fun j hj => ⟨hfound j hj, fun isLast hl hn => ?_⟩, ?_, ?_⟩
  · rw [hleft]
    obtain ⟨j, hj, -⟩ | ⟨-, hg⟩ := giveUp_cases (α := Node) tokens e (s.diagnostics ++ [d])
    · exact absurd hj.1.2 (hnone j hj.1.1)
    · exact hg
  · -- the declaration was begun at a token of the list, since it came to one
    have hlt : n < tokens.length := Nat.lt_of_le_of_lt hle (List.getElem?_eq_some_iff.mp htoken).1
    exact itemsUntil_of_given_up hl (List.drop_eq_getElem_cons hlt)
      (hn _ (List.getElem?_eq_getElem hlt)) (hfound j hj)
  · intro hk j hj
    have hsame : {j | e ≤ j ∧ ResumesAt tokens e j} = {j | e ≤ j ∧ Boundary tokens e j} := by
      ext i
      exact and_congr_right fun hi => resumesAt_iff_boundary htoken hk hi
    exact hfound j (hsame ▸ hj)
  · intro hk o s' hs'
    rw [hleft] at hs'
    obtain ⟨j, ⟨⟨hej, hr⟩, -⟩, hg⟩ | ⟨-, s₁, hg⟩ :=
      giveUp_cases (α := Node) tokens e (s.diagnostics ++ [d])
    · rw [hg] at hs'
      cases hs'
      refine Nat.lt_of_le_of_ne hej fun (heq : e = j) => ?_
      -- the keyword is not the end
      rw [← heq, resumesAt_self htoken] at hr
      rw [hr] at hk
      cases hk
    · rw [hg] at hs'
      cases hs'

/-- In `1 2 print 3;` the declaration is given up at `2`, and reading goes on at the keyword. -/
theorem declaration_resumes_at_keyword :
    let token kind text := Token.ofText kind text .null 1
    let tokens := [token .number "1", token .number "2", token .printWord "print", token .number "3",
      token .semicolon ";", token .eof ""]
    let d : Diagnostic := ⟨.expectSemicolonAfterExpression, token .number "2", 1⟩
    attempt false 9 ⟨tokens.drop 0, 0, []⟩ = .stop (.refused d) ⟨tokens.drop 1, 1, []⟩ ∧
      startsStatement d.token.kind = false ∧ IsLeast {j | 1 ≤ j ∧ Boundary tokens 1 j} 2 ∧
      declaration false 9 ⟨tokens.drop 0, 0, []⟩ = .done none ⟨tokens.drop 2, 2, [d]⟩ := by
  intro token tokens d
  have hattempt : attempt false 9 ⟨tokens.drop 0, 0, []⟩ =
      .stop (.refused d) ⟨tokens.drop 1, 1, []⟩ := by cbv
  have hleast : IsLeast {j | 1 ≤ j ∧ Boundary tokens 1 j} 2 := by
    refine ⟨⟨by decide, by decide⟩, fun i hib => ?_⟩
    obtain ⟨hi, hb⟩ := hib
    rcases Nat.eq_or_lt_of_le hi with rfl | hlt
    · exact absurd hb (by decide)
    · exact hlt
  obtain ⟨-, -, -, -, hboundary, -⟩ := declaration_resumes tokens false 9 0 [] hattempt
  exact ⟨hattempt, rfl, hleast, hboundary rfl 2 hleast⟩

/-- In `var a = 1⏎print 2 3;` the declaration is given up at the keyword, where a statement starts, and
reading goes on at the end: the missing semicolon behind `2` is not noticed. -/
theorem declaration_skips_keyword :
    let token kind text line := Token.ofText kind text .null line
    let keyword := token .printWord "print" 2
    let tokens := [token .varWord "var" 1, token .identifier "a" 1, token .equal "=" 1,
      token .number "1" 1, keyword, token .number "2" 2, token .number "3" 2,
      token .semicolon ";" 2, token .eof "" 2]
    let d : Diagnostic := ⟨.expectSemicolonAfterDeclaration, keyword, 4⟩
    attempt false nestingLimit ⟨tokens.drop 0, 0, []⟩ = .stop (.refused d) ⟨tokens.drop 4, 4, []⟩ ∧
      IsLeast {j | 4 ≤ j ∧ Boundary tokens 4 j} 4 ∧
      declaration false nestingLimit ⟨tokens.drop 0, 0, []⟩ =
        .done none ⟨tokens.drop 8, 8, [d]⟩ ∧
      (parse tokens).result = .error (.rejected [d]) := by
  intro token keyword tokens d
  refine ⟨by cbv, ⟨⟨Nat.le_refl 4, by decide⟩, fun i hi => hi.1⟩, by cbv, by cbv⟩

end Parser

end Lox
