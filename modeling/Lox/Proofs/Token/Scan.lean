import Lox.Token.Lexer

/-!
# The tokens of a text

`scan_eq_ok`: the tokens of a text are tokens of pieces of it, none of the kind `eof`, and behind them
one token of that kind.  Every line number is that of a line of the text, so it is at most one more
than the number of its characters.
-/

namespace Lox

/-- The token of a piece of a text that starts on one of the first lines. -/
def Token.CutWithin (lines : Nat) (t : Token) : Prop :=
  ∃ kind text line, kind ≠ .eof ∧ line ≤ lines ∧ t = Lexer.tokenOf kind text line

/-- The token of a piece of a text. -/
def Token.IsCut (t : Token) : Prop := ∃ lines, t.CutWithin lines

/-- A token on one of the first lines is one on one of the first more lines. -/
theorem Token.CutWithin.mono {lines lines' : Nat} {t : Token} (h : t.CutWithin lines)
    (hl : lines ≤ lines') : t.CutWithin lines' := by
  obtain ⟨kind, text, line, hk, hle, rfl⟩ := h
  exact ⟨kind, text, line, hk, Nat.le_trans hle hl, rfl⟩

theorem Token.CutWithin.kind_ne {lines : Nat} {t : Token} (h : t.CutWithin lines) :
    t.kind ≠ .eof := by
  obtain ⟨kind, text, line, hk, -, rfl⟩ := h
  exact hk

/-- What is cut from a text is a string. -/
theorem Token.IsCut.lexeme {t : Token} (h : t.IsCut) : ∃ s : String, t.lexeme = .word s := by
  obtain ⟨lines, kind, text, line, -, -, rfl⟩ := h
  exact ⟨_, rfl⟩

/-- The line behind a text is at most as many lines further as the text has characters. -/
theorem Position.after_line_le (text : List Char) (p : Position) :
    (p.after text).line ≤ p.line + text.length := by
  induction text generalizing p with
  | nil => exact Nat.le_refl _
  | cons c text ih =>
      have hs : (p.step c).line ≤ p.line + 1 := by
        rw [Position.step]
        split
        · exact Nat.le_refl _
        · exact Nat.le_succ _
      have ht := ih (p.step c)
      show ((p.step c).after text).line ≤ _
      rw [List.length_cons]
      omega

namespace Lexer

/-! ### Pieces -/

theorem behind?_eq_some {ws cs rest : List Char} (h : behind? ws cs = some rest) :
    cs = ws ++ rest := by
  induction ws generalizing cs with
  | nil => exact Option.some.inj h
  | cons w ws ih =>
      cases cs with
      | nil => cases h
      | cons c cs =>
          rw [behind?] at h
          split at h
          · rename_i hw
            rw [hw, List.cons_append, ih h]
          · cases h

/-- A run and what it leaves make up the text. -/
theorem run_append (kind : Option Kind) (member : Char → Bool) (cs : List Char) :
    cs = (run kind member cs).text ++ (run kind member cs).rest :=
  List.takeWhile_append_dropWhile.symm

theorem numeral_kind (cs : List Char) : (numeral cs).kind = some .number := by
  rw [numeral]
  split
  · split
    · rfl
    · rfl
  · rfl

/-- So do a numeral and what it leaves. -/
theorem numeral_append (cs : List Char) : cs = (numeral cs).text ++ (numeral cs).rest := by
  have hcs := List.takeWhile_append_dropWhile (p := Char.isDigit) (l := cs)
  rw [numeral]
  split
  · rename_i d rest hd
    rw [hd] at hcs
    split
    · have hr := List.takeWhile_append_dropWhile (p := Char.isDigit) (l := rest)
      rw [List.append_assoc, List.cons_append, List.cons_append, hr, hcs]
    · exact hcs.symm
  · exact hcs.symm

theorem string?_eq_some {cs : List Char} {p : Piece} (h : string? cs = some p) :
    p.kind = some .string ∧ '"' :: cs = p.text ++ p.rest := by
  have hcs := List.takeWhile_append_dropWhile (p := fun c => c ≠ '"') (l := cs)
  rw [string?] at h
  split at h
  · cases h
  · rename_i quote rest hd
    cases h
    rw [hd] at hcs
    refine ⟨rfl, ?_⟩
    rw [List.cons_append, List.append_assoc, List.singleton_append, hcs]

/-- No word is the end. -/
theorem wordKind_ne_eof (text : List Char) : wordKind text ≠ .eof := by
  have hk : ∀ kind ∈ keywords.map Prod.snd, kind ≠ .eof := by decide
  rw [wordKind]
  cases hl : keywords.lookup (String.ofList text) with
  | none => exact Kind.noConfusion
  | some kind =>
      obtain ⟨l₁, l₂, hm, -⟩ := List.lookup_eq_some_iff.mp hl
      refine hk kind (List.mem_map.mpr ⟨(String.ofList text, kind), ?_, rfl⟩)
      rw [hm]
      exact List.mem_append_right _ List.mem_cons_self

theorem operator?_eq_some {cs : List Char} {p : Piece} (h : operator? cs = some p) :
    (∃ kind, p.kind = some kind ∧ kind ≠ .eof) ∧ cs = p.text ++ p.rest := by
  have hk : ∀ o ∈ operators, o.2 ≠ .eof := by decide
  obtain ⟨⟨text, kind⟩, hm, ho⟩ := List.exists_of_findSome?_eq_some h
  rw [Option.map_eq_some_iff] at ho
  obtain ⟨rest, hb, rfl⟩ := ho
  exact ⟨⟨kind, rfl, hk _ hm⟩, behind?_eq_some hb⟩

/-- A piece is at the front of the text, and it is not the end. -/
theorem piece?_eq_some {cs : List Char} {p : Piece} (h : piece? cs = some p) :
    (∀ kind, p.kind = some kind → kind ≠ .eof) ∧ cs = p.text ++ p.rest := by
  cases cs with
  | nil => cases h
  | cons c rest =>
      rw [piece?] at h
      split at h
      · -- blanks
        cases h
        exact ⟨fun _ => nofun, run_append _ _ _⟩
      · split at h
        · -- a comment
          cases h
          exact ⟨fun _ => nofun, run_append _ _ _⟩
        · split at h
          · -- a numeral
            cases h
            refine ⟨fun kind hk => ?_, numeral_append _⟩
            rw [numeral_kind] at hk
            cases hk
            exact Kind.noConfusion
          · split at h
            · -- a text between quotes
              rename_i hc
              obtain ⟨hk, ht⟩ := string?_eq_some h
              refine ⟨fun kind hk' => ?_, hc ▸ ht⟩
              rw [hk] at hk'
              cases hk'
              exact Kind.noConfusion
            · split at h
              · -- a word
                cases h
                refine ⟨fun kind hk => ?_, List.takeWhile_append_dropWhile.symm⟩
                cases hk
                exact wordKind_ne_eof _
              · obtain ⟨⟨kind, hk, hne⟩, ht⟩ := operator?_eq_some h
                refine ⟨fun kind' hk' => ?_, ht⟩
                rw [hk] at hk'
                cases hk'
                exact hne

/-! ### Texts -/

/-- The tokens that are added are cut from the characters left, and then comes the end. -/
theorem scanFrom_eq_ok {fuel : Nat} {place : Position} {done tokens : List Token} {cs : List Char}
    (h : scanFrom fuel place done cs = .ok tokens) :
    ∃ ts line, tokens = done.reverse ++ ts ++ [endToken line] ∧
      ∀ t ∈ ts, t.CutWithin (place.line + cs.length) := by
  induction fuel generalizing place done cs with
  | zero =>
      cases cs with
      | nil =>
          cases h
          exact ⟨[], place.line, by simp, fun t ht => absurd ht List.not_mem_nil⟩
      | cons c rest => cases h
  | succ fuel ih =>
      cases cs with
      | nil =>
          cases h
          exact ⟨[], place.line, by simp, fun t ht => absurd ht List.not_mem_nil⟩
      | cons c rest =>
          rw [scanFrom] at h
          split at h
          · cases h
          · rename_i p hp
            obtain ⟨hkind, happend⟩ := piece?_eq_some hp
            obtain ⟨ts, line, htokens, hts⟩ := ih h
            -- a piece goes on by at most as many lines as it has characters
            have hle : (place.after p.text).line + p.rest.length ≤
                place.line + (c :: rest).length := by
              have hl := Position.after_line_le p.text place
              rw [happend, List.length_append]
              omega
            have hts' : ∀ t ∈ ts, t.CutWithin (place.line + (c :: rest).length) :=
              fun t ht => (hts t ht).mono hle
            cases hk : p.kind with
            | none =>
                rw [hk] at htokens
                exact ⟨ts, line, htokens, hts'⟩
            | some kind =>
                rw [hk] at htokens
                have hcut : (tokenOf kind p.text place.line).CutWithin
                    (place.line + (c :: rest).length) :=
                  ⟨kind, p.text, place.line, hkind kind hk, Nat.le_add_right _ _, rfl⟩
                refine ⟨tokenOf kind p.text place.line :: ts, line, by simpa using htokens, ?_⟩
                exact List.forall_mem_cons.mpr ⟨hcut, hts'⟩

end Lexer

/-- **The tokens of a text.**  They are cut from it, and behind them stands the end. -/
theorem scan_eq_ok {source : String} {tokens : List Token} (h : scan source = .ok tokens) :
    ∃ ts line, tokens = ts ++ [Lexer.endToken line] ∧
      ∀ t ∈ ts, t.CutWithin (source.length + 1) := by
  obtain ⟨ts, line, htokens, hts⟩ := Lexer.scanFrom_eq_ok h
  refine ⟨ts, line, by simpa using htokens, fun t ht => (hts t ht).mono ?_⟩
  rw [String.length_toList]
  exact Nat.le_of_eq (Nat.add_comm _ _)

/-- The line of a token is a number. -/
theorem scan_line {source : String} {tokens : List Token} (h : scan source = .ok tokens) :
    ∀ t ∈ tokens, ∃ n : Int, t.line = .int n := by
  obtain ⟨ts, line, rfl, hts⟩ := scan_eq_ok h
  intro t ht
  rcases List.mem_append.mp ht with ht | ht
  · obtain ⟨kind, text, line, -, -, rfl⟩ := hts t ht
    exact ⟨line, rfl⟩
  · rw [List.mem_singleton.mp ht]
    exact ⟨line, rfl⟩

/-- A line that is a number can be written. -/
theorem Token.isProper_lineMark {t : Token} {n : Int} (h : t.line = .int n) :
    t.lineMark.isProper = true := by
  rw [lineMark, h]
  rfl

end Lox
