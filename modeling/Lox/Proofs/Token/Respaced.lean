import Lox.Proofs.Token.LongestMatch

/-!
# Texts with other blanks

The tokens of a text do not depend on the blanks and comments between them.

* `Token.spaced ts gaps`: the texts of tokens, each with a gap behind it.
* `Lexer.piece?_lexed`: a token of some text is found again in front of a blank, and at the end.
* `scan_spaced`: so the texts of all tokens with any blanks between them are cut into these tokens, each on
  the line on which its text now starts.
-/

namespace Lox

namespace Token

/-- The text of a token that was cut from a text, and so is a string. -/
def written (t : Token) : String := t.lexemeText.head

/-- The texts of tokens, each with its gap behind it.  With one gap less than there are tokens, the gaps
stand between the texts. -/
def spaced : List Token → List String → String
  | [], _ => ""
  | t :: ts, gaps => t.written ++ gaps.headD "" ++ spaced ts gaps.tail

/-- A token of some text: a terminal that is not dropped, on some line. -/
def IsLexed (t : Token) : Prop :=
  ∃ kind text line, Lexer.Chunk.IsTerminal ⟨some kind, text, Lexer.literalOf kind text⟩ ∧
    t = Lexer.tokenOf kind text line

end Token

namespace Lexer

/-! ### Tokens by themselves -/

/-- What is cut from a text are tokens of it. -/
theorem Cuts.isLexed {p p' : Position} {cs : List Char} {ts : List Token} (h : Cuts p cs ts p') :
    ∀ t ∈ ts, t.IsLexed := by
  induction h with
  | nil => exact fun t ht => absurd ht List.not_mem_nil
  | @piece p _ _ _ found h _ ih =>
      intro t ht
      rcases List.mem_append.mp ht with ht | ht
      · have hterminal := piece?_isTerminal h
        obtain ⟨kind, text, rest⟩ := found
        cases kind with
        | none => cases ht
        | some kind => exact ⟨kind, text, p.line, hterminal, List.mem_singleton.mp ht⟩
      · exact ih t ht

/-- The text of a token is cut into that token alone. -/
theorem piece?_lexed_end {kind : Kind} {text : List Char} {literal : Json}
    (h : Chunk.IsTerminal ⟨some kind, text, literal⟩) :
    piece? text = some ⟨some kind, text, []⟩ := by
  obtain ⟨found, hfound, hle, hsame⟩ := h.covered []
  rw [List.append_nil] at hfound
  -- nothing is longer than the whole text
  have happend := (piece?_eq_some hfound).2
  have hrest : found.rest = [] := by
    have hlength := congrArg List.length happend
    rw [List.length_append] at hlength
    exact List.length_eq_zero_iff.mp (by dsimp only at hle hlength; omega)
  rw [hrest, List.append_nil] at happend
  have hkind : found.kind = some kind := congrArg Chunk.kind (hsame happend.symm)
  rw [hfound]
  obtain ⟨_, _, _⟩ := found
  cases happend
  cases hkind
  cases hrest
  rfl

/-- The text of a token is cut off in front of a blank. -/
theorem piece?_lexed {kind : Kind} {text : List Char} {literal : Json}
    (h : Chunk.IsTerminal ⟨some kind, text, literal⟩) {b : Char} (hb : isBlank b = true)
    (ds : List Char) : piece? (text ++ b :: ds) = some ⟨some kind, text, b :: ds⟩ := by
  have hself := piece?_lexed_end h
  cases text with
  | nil => cases hself
  | cons c cs =>
      have hc : isBlank c = false := by
        rw [← Bool.not_eq_true]
        intro hc
        rw [piece?_blank hc] at hself
        cases hself
      exact piece?_gap cs ds hc hb hself nofun

/-! ### Tokens with gaps between them -/

/-- A gap: blanks, one at least. -/
def IsGap (gap : String) : Prop := gap ≠ "" ∧ ∀ c ∈ gap.toList, c ∈ [' ', '\t', '\x0c', '\r', '\n']

/-- Texts of tokens are cut into these tokens, if a gap stands between any two of them. -/
theorem Cuts.spaced {ts : List Token} (hts : ∀ t ∈ ts, t.IsLexed) {gaps : List String}
    (hcount : ts.length ≤ gaps.length + 1) (hgaps : ∀ gap ∈ gaps, IsGap gap) (p : Position) :
    Cuts p (Token.spaced ts gaps).toList
      (ts.mapIdx fun i t =>
        { t with line := .int (p.after (Token.spaced (ts.take i) gaps).toList).line })
      (p.after (Token.spaced ts gaps).toList) := by
  induction ts generalizing gaps p with
  | nil => exact .nil
  | cons t ts ih =>
      rw [List.forall_mem_cons] at hts
      obtain ⟨⟨kind, text, line, hterminal, rfl⟩, hts⟩ := hts
      have htext : (tokenOf kind text line).written.toList = text := String.toList_ofList
      rw [List.mapIdx_cons]
      cases gaps with
      | nil =>
          obtain rfl : ts = [] := List.length_eq_zero_iff.mp (by simpa using hcount)
          have hcs : (Token.spaced [tokenOf kind text line] []).toList = text := by
            simp [Token.spaced, htext]
          rw [hcs]
          exact .piece (piece?_lexed_end hterminal) .nil
      | cons gap gaps =>
          rw [List.forall_mem_cons] at hgaps
          obtain ⟨⟨hne, hblank⟩, hgaps⟩ := hgaps
          have hblank : ∀ c ∈ gap.toList, isBlank c = true := fun c hc => isBlank_iff.mpr (hblank c hc)
          obtain ⟨b, bs, hgap⟩ := List.exists_cons_of_ne_nil (mt String.toList_eq_nil_iff.mp hne)
          have hb : isBlank b = true := hblank b (hgap ▸ List.mem_cons_self)
          have hpiece := piece?_lexed hterminal hb (bs ++ (Token.spaced ts gaps).toList)
          rw [← List.cons_append, ← hgap] at hpiece
          -- every text is that of the first token and its gap, with what follows behind them
          have hcs : ∀ us, (Token.spaced (tokenOf kind text line :: us) (gap :: gaps)).toList =
              text ++ (gap.toList ++ (Token.spaced us gaps).toList) := by
            simp [Token.spaced, htext]
          have hrest := ih hts (by simpa using hcount) hgaps ((p.after text).after gap.toList)
          simp only [List.take_succ_cons, hcs, Position.after_append]
          exact .piece hpiece (hrest.blanks hblank)

end Lexer

/-- **Other blanks change nothing but lines.**  The texts of the tokens of a text, with any gaps between
them, are cut into the same tokens, and each stands on the line that is one more than the line breaks in
front of it. -/
theorem scan_spaced {source : String} {tokens : List Token} (h : scan source = .ok tokens)
    {gaps : List String} (hcount : tokens.length ≤ gaps.length + 2)
    (hgaps : ∀ gap ∈ gaps, Lexer.IsGap gap) :
    scan (Token.spaced tokens.dropLast gaps) = .ok (tokens.mapIdx fun i t =>
      { t with line := .int (1 + (Token.spaced (tokens.take i) gaps).toList.count '\n' : Nat) }) := by
  obtain ⟨ts, p, hcuts, rfl⟩ := scan_eq_ok_iff.mp h
  rw [List.dropLast_concat]
  have hspaced := Lexer.Cuts.spaced hcuts.isLexed (by simpa using hcount) hgaps .start
  refine scan_eq_ok_iff.mpr ⟨_, _, hspaced, ?_⟩
  simp only [Position.after_line]
  rw [List.mapIdx_concat, List.take_left]
  congr 1
  refine List.mapIdx_eq_mapIdx_iff.mpr fun i hi => ?_
  rw [List.take_append_of_le_length (Nat.le_of_lt hi)]
  rfl

theorem scan_spaced_strings_and_words :
    scan "a<=\"x\ny\"//c\nor-1.5;" = .ok
      [.ofText .identifier "a" (.str "a") 1, .ofText .lessEqual "<=" .null 1,
        .ofText .string "\"x\ny\"" (.str "x\ny") 1, .ofText .orWord "or" .null 3,
        .ofText .minus "-" .null 3, .ofText .number "1.5" (.float ⟨0x3ff8000000000000⟩) 3,
        .ofText .semicolon ";" .null 3, .ofText .eof "" .null 3] ∧
    scan "a\n<= \"x\ny\"\t\ror\n\n-\x0c1.5 ;" = .ok
      [.ofText .identifier "a" (.str "a") 1, .ofText .lessEqual "<=" .null 2,
        .ofText .string "\"x\ny\"" (.str "x\ny") 2, .ofText .orWord "or" .null 3,
        .ofText .minus "-" .null 5, .ofText .number "1.5" (.float ⟨0x3ff8000000000000⟩) 5,
        .ofText .semicolon ";" .null 5, .ofText .eof "" .null 5] := by
  have h : scan "a<=\"x\ny\"//c\nor-1.5;" = .ok
      [.ofText .identifier "a" (.str "a") 1, .ofText .lessEqual "<=" .null 1,
        .ofText .string "\"x\ny\"" (.str "x\ny") 1, .ofText .orWord "or" .null 3,
        .ofText .minus "-" .null 3, .ofText .number "1.5" (.float ⟨0x3ff8000000000000⟩) 3,
        .ofText .semicolon ";" .null 3, .ofText .eof "" .null 3] := by decide +kernel
  have hgaps : ∀ gap ∈ ["\n", " ", "\t\r", "\n\n", "\x0c", " "], Lexer.IsGap gap := by
    simp [Lexer.IsGap]
  exact ⟨h, (scan_spaced h (by decide) hgaps).trans (by decide +kernel)⟩

end Lox
