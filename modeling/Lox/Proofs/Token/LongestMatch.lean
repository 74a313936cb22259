import Mathlib.Data.List.Induction
import Lox.Proofs.Token.Append

/-!
# Texts are cut by longest match

What `scan` does, said without a scanner: the terminals of the language are given by the shape of their
texts, and a text is split from left to right, each time at the longest terminal at its front.

* `Lexer.Chunk.IsTerminal`: the terminals, each with its kind (none if it is dropped), its characters and
  the value they denote.
* `Lexer.Splits cs chunks left`: longest matches take the chunks from the front of `cs`, and leave `left`.
* `Lexer.isLongest_iff`: `piece?` finds the longest match, if there is one.
* `scan_longest`: `scan` gives the tokens of the chunks, or the place of the first character at which no
  terminal starts; lines and columns are counted from the characters in front.
-/

namespace Lox

namespace Lexer

/-! ### Terminals -/

/-- A decimal digit. -/
def IsDigit (c : Char) : Prop := '0' ≤ c ∧ c ≤ '9'

/-- A letter or an underscore. -/
def IsLetter (c : Char) : Prop := ('A' ≤ c ∧ c ≤ 'Z') ∨ ('a' ≤ c ∧ c ≤ 'z') ∨ c = '_'

/-- A part of a text: its kind unless it is dropped, its characters, and the value they denote. -/
structure Chunk where
  kind : Option Kind
  text : List Char
  literal : Json

/-- The terminals of the language. -/
inductive Chunk.IsTerminal : Chunk → Prop where
  | blanks {text : List Char} (hne : text ≠ [])
      (h : ∀ c ∈ text, c ∈ [' ', '\t', '\x0c', '\r', '\n']) : IsTerminal ⟨none, text, .null⟩
  | comment {text : List Char} (h : '\n' ∉ text) : IsTerminal ⟨none, '/' :: '/' :: text, .null⟩
  | whole {digits : List Char} (hne : digits ≠ []) (h : ∀ c ∈ digits, IsDigit c) :
      IsTerminal ⟨some .number, digits, .float ((Decimal.ofPlaces digits []).toNumber false)⟩
  | fraction {whole places : List Char} (hw : whole ≠ []) (hwd : ∀ c ∈ whole, IsDigit c)
      (hp : places ≠ []) (hpd : ∀ c ∈ places, IsDigit c) :
      IsTerminal ⟨some .number, whole ++ '.' :: places,
        .float ((Decimal.ofPlaces whole places).toNumber false)⟩
  | string {body : List Char} (h : '"' ∉ body) :
      IsTerminal ⟨some .string, '"' :: (body ++ ['"']), .str (String.ofList body)⟩
  | identifier {first : Char} {rest : List Char} (hf : IsLetter first)
      (hr : ∀ c ∈ rest, IsLetter c ∨ IsDigit c)
      (hk : String.ofList (first :: rest) ∉ keywords.map Prod.fst) :
      IsTerminal ⟨some .identifier, first :: rest, .str (String.ofList (first :: rest))⟩
  | keyword {word : String} {kind : Kind} (h : (word, kind) ∈ keywords) :
      IsTerminal ⟨some kind, word.toList, .null⟩
  | operator {text : List Char} {kind : Kind} (h : (text, kind) ∈ operators) :
      IsTerminal ⟨some kind, text, .null⟩

/-- The chunk is a terminal at the front of a text, and no terminal there is longer. -/
structure Chunk.IsLongest (chunk : Chunk) (cs : List Char) : Prop where
  terminal : chunk.IsTerminal
  front : chunk.text <+: cs
  longest : ∀ other : Chunk, other.IsTerminal → other.text <+: cs →
    other.text.length ≤ chunk.text.length

/-- Chunks are split off the front of a text, each the longest match there, and something is left. -/
inductive Splits : List Char → List Chunk → List Char → Prop where
  | none (cs : List Char) : Splits cs [] cs
  | chunk {chunk : Chunk} {rest left : List Char} {chunks : List Chunk}
      (h : chunk.IsLongest (chunk.text ++ rest)) (hr : Splits rest chunks left) :
      Splits (chunk.text ++ rest) (chunk :: chunks) left

/-- The tokens of chunks that stand behind some characters.  The line of a token is one more than the
line breaks in front of it. -/
def tokensFrom (before : List Char) : List Chunk → List Token
  | [] => []
  | ⟨none, text, _⟩ :: chunks => tokensFrom (before ++ text) chunks
  | ⟨some kind, text, literal⟩ :: chunks =>
    .ofText kind (String.ofList text) literal (1 + before.count '\n') ::
      tokensFrom (before ++ text) chunks

/-! ### Classes of characters -/

theorem isDigit_iff {c : Char} : c.isDigit = true ↔ IsDigit c := by
  show (decide ('0' ≤ c) && decide (c ≤ '9')) = true ↔ IsDigit c
  simp only [IsDigit, Bool.and_eq_true, decide_eq_true_eq]

theorem isNameStart_iff {c : Char} : isNameStart c = true ↔ IsLetter c := by
  show ((decide ('A' ≤ c ∧ c ≤ 'Z') || (decide ('a' ≤ c) && decide (c ≤ 'z'))) ||
    decide (c = '_')) = true ↔ IsLetter c
  simp only [IsLetter, Bool.or_eq_true, Bool.and_eq_true, decide_eq_true_eq, or_assoc]

theorem isNamePart_iff {c : Char} : isNamePart c = true ↔ IsLetter c ∨ IsDigit c := by
  rw [← isNameStart_iff, ← isDigit_iff]
  simp only [isNamePart, isNameStart, Char.isAlphanum, Bool.or_eq_true, or_right_comm]

/-- A blank is nothing that another terminal starts with. -/
theorem isBlank_of_ne {c : Char} (h : c.isDigit = true ∨ isNameStart c = true) : isBlank c = false := by
  rw [← Bool.not_eq_true, isBlank_iff]
  intro hc
  simp only [List.mem_cons, List.not_mem_nil, or_false] at hc
  rcases hc with rfl | rfl | rfl | rfl | rfl <;> revert h <;> decide

theorem not_digit_of_letter {c : Char} (h : isNameStart c = true) : c.isDigit = false := by
  rw [← Bool.not_eq_true, isDigit_iff]
  rw [isNameStart_iff] at h
  rintro ⟨hlow, hup⟩
  rcases h with ⟨h, -⟩ | ⟨h, -⟩ | rfl
  · exact absurd (Char.le_trans h hup) (by decide)
  · exact absurd (Char.le_trans h hup) (by decide)
  · exact absurd hup (by decide)

/-! ### The piece at the front -/

theorem piece?_comment (rest : List Char) :
    piece? ('/' :: '/' :: rest) = some (run none (· ≠ '\n') ('/' :: '/' :: rest)) := rfl

theorem piece?_quote (rest : List Char) : piece? ('"' :: rest) = string? rest := rfl

/-- A digit starts a numeral. -/
theorem piece?_digit {c : Char} (hc : c.isDigit = true) (rest : List Char) :
    piece? (c :: rest) = some (numeral (c :: rest)) := by
  have hslash : c ≠ '/' := by
    rintro rfl
    revert hc
    decide
  rw [piece?, isBlank_of_ne (.inl hc), hc]
  simp [hslash]

/-- A letter or an underscore starts a word. -/
theorem piece?_name {c : Char} (hc : isNameStart c = true) (rest : List Char) :
    piece? (c :: rest) = some (word (c :: rest)) := by
  have hslash : c ≠ '/' ∧ c ≠ '"' := by
    constructor <;> (rintro rfl; revert hc; decide)
  rw [piece?, isBlank_of_ne (.inr hc), not_digit_of_letter hc, hc]
  simp [hslash]

/-- The chunk of a piece. -/
def Piece.chunk (found : Piece) : Chunk :=
  ⟨found.kind, found.text, match found.kind with
    | none => .null
    | some kind => literalOf kind found.text⟩

/-- The value of digits. -/
theorem numeralValue_whole {digits : List Char} (h : ∀ c ∈ digits, c.isDigit = true) :
    numeralValue digits = (Decimal.ofPlaces digits []).toNumber false := by
  rw [numeralValue, List.takeWhile_eq_self_iff.mpr h, List.dropWhile_eq_nil_iff.mpr h]
  rfl

/-- The value of digits with a point between them. -/
theorem numeralValue_fraction {whole places : List Char} (h : ∀ c ∈ whole, c.isDigit = true) :
    numeralValue (whole ++ '.' :: places) = (Decimal.ofPlaces whole places).toNumber false := by
  rw [numeralValue, List.takeWhile_append_of_pos h, List.dropWhile_append_of_pos h]
  rw [List.takeWhile_cons_of_neg (by decide), List.dropWhile_cons_of_neg (by decide), List.append_nil]
  rfl

/-- Only numbers, strings and identifiers denote a value. -/
theorem literalOf_keyword {word : String} {kind : Kind} (h : (word, kind) ∈ keywords)
    (text : List Char) : literalOf kind text = .null := by
  have hkind : ∀ entry ∈ keywords, literalOf entry.2 text = .null := by
    simp [keywords, literalOf]
  exact hkind _ h

/-- Operators denote no value. -/
theorem literalOf_operator {symbol : List Char} {kind : Kind} (h : (symbol, kind) ∈ operators)
    (text : List Char) : literalOf kind text = .null := by
  have hkind : ∀ entry ∈ operators, literalOf entry.2 text = .null := by
    simp [operators, literalOf]
  exact hkind _ h

/-- A numeral is a terminal, with places or without. -/
theorem numeral_isTerminal {c : Char} (hc : c.isDigit = true) (rest : List Char) :
    (numeral (c :: rest)).chunk.IsTerminal := by
  have hne := takeWhile_ne_nil Char.isDigit hc rest
  have hdigits : ∀ {cs : List Char}, ∀ d ∈ cs.takeWhile Char.isDigit, d.isDigit = true :=
    fun _ => List.mem_takeWhile_imp
  by_cases h : ∃ d places, (c :: rest).dropWhile Char.isDigit = '.' :: d :: places ∧ d.isDigit = true
  · obtain ⟨d, places, hdrop, hd⟩ := h
    rw [numeral_fraction hdrop hd]
    rw [Piece.chunk]
    dsimp only [literalOf]
    rw [numeralValue_fraction hdigits]
    refine .fraction hne (fun x hx => isDigit_iff.mp (hdigits x hx)) (List.cons_ne_nil _ _) ?_
    refine List.forall_mem_cons.mpr ⟨isDigit_iff.mp hd, fun x hx => isDigit_iff.mp (hdigits x hx)⟩
  · rw [numeral_whole fun d places hdrop => Bool.eq_false_iff.mpr fun hd => h ⟨d, places, hdrop, hd⟩]
    rw [Piece.chunk]
    dsimp only [literalOf]
    rw [numeralValue_whole hdigits]
    exact .whole hne fun x hx => isDigit_iff.mp (hdigits x hx)

theorem string?_isTerminal {rest : List Char} {found : Piece} (h : string? rest = some found) :
    found.chunk.IsTerminal := by
  rw [string?] at h
  split at h
  · cases h
  · rename_i quote left hdrop
    cases h
    have hquote := List.head?_dropWhile_not (fun c => decide (c ≠ '"')) rest
    rw [hdrop] at hquote
    obtain rfl : quote = '"' := by simpa using hquote
    have hliteral : (('"' :: (rest.takeWhile (· ≠ '"') ++ ['"'])).drop 1).dropLast =
        rest.takeWhile (· ≠ '"') := List.dropLast_concat
    rw [Piece.chunk]
    dsimp only [literalOf]
    rw [hliteral]
    refine .string fun hmem => ?_
    have hne := List.mem_takeWhile_imp hmem
    revert hne
    decide

/-- A word is an identifier unless it is a keyword. -/
theorem wordKind_cases (text : List Char) :
    wordKind text = .identifier ∧ String.ofList text ∉ keywords.map Prod.fst ∨
      (String.ofList text, wordKind text) ∈ keywords := by
  cases hl : keywords.lookup (String.ofList text) with
  | none =>
      refine .inl ⟨by rw [wordKind, hl]; rfl, fun hmem => ?_⟩
      obtain ⟨⟨word, kind⟩, hm, hword⟩ := List.mem_map.mp hmem
      have hne := List.lookup_eq_none_iff.mp hl _ hm
      rw [bne_iff_ne] at hne
      exact hne hword.symm
  | some kind =>
      obtain ⟨l₁, l₂, hm, -⟩ := List.lookup_eq_some_iff.mp hl
      rw [wordKind, hl, hm]
      exact .inr (List.mem_append_right _ List.mem_cons_self)

/-- A word is an identifier or a keyword. -/
theorem word_isTerminal {c : Char} (hc : isNameStart c = true) (rest : List Char) :
    (word (c :: rest)).chunk.IsTerminal := by
  have hpart : isNamePart c = true := isNamePart_iff.mpr (.inl (isNameStart_iff.mp hc))
  rw [word, List.takeWhile_cons_of_pos hpart, Piece.chunk]
  dsimp only
  rcases wordKind_cases (c :: rest.takeWhile isNamePart) with ⟨hkind, hk⟩ | hk
  · rw [hkind]
    exact .identifier (isNameStart_iff.mp hc)
      (fun d hd => isNamePart_iff.mp (List.mem_takeWhile_imp hd)) hk
  · rw [literalOf_keyword hk]
    have hterminal := Chunk.IsTerminal.keyword hk
    rwa [String.toList_ofList] at hterminal

/-- An operator is found in the table of operators. -/
theorem operator?_isTerminal {cs : List Char} {found : Piece} (h : operator? cs = some found) :
    found.chunk.IsTerminal := by
  obtain ⟨⟨text, kind⟩, hm, ho⟩ := List.exists_of_findSome?_eq_some h
  obtain ⟨rest, -, rfl⟩ := Option.map_eq_some_iff.mp ho
  rw [Piece.chunk]
  dsimp only
  rw [literalOf_operator hm]
  exact .operator hm

/-- What is found at the front is a terminal. -/
theorem piece?_isTerminal {cs : List Char} {found : Piece} (h : piece? cs = some found) :
    found.chunk.IsTerminal := by
  cases cs with
  | nil => cases h
  | cons c rest =>
      rw [piece?] at h
      split at h
      · -- blanks
        rename_i hc
        cases h
        exact .blanks (takeWhile_ne_nil isBlank hc rest) fun d hd =>
          isBlank_iff.mp (List.mem_takeWhile_imp hd)
      · split at h
        · -- a comment
          rename_i hc
          cases h
          obtain ⟨hslash, hhead⟩ := Bool.and_eq_true_iff.mp hc
          obtain rfl := of_decide_eq_true hslash
          obtain ⟨rest', rfl⟩ := List.head?_eq_some_iff.mp (of_decide_eq_true hhead)
          show Chunk.IsTerminal ⟨none, '/' :: '/' :: rest'.takeWhile (· ≠ '\n'), .null⟩
          refine .comment fun hmem => ?_
          have hne := List.mem_takeWhile_imp hmem
          revert hne
          decide
        · split at h
          · rename_i hc
            cases h
            exact numeral_isTerminal hc rest
          · split at h
            · exact string?_isTerminal h
            · split at h
              · rename_i hc
                cases h
                exact word_isTerminal hc rest
              · exact operator?_isTerminal h

/-! ### Longest matches -/

/-- The piece is at least as long as a terminal at the front, and if it is no longer it is that. -/
def Piece.Covers (found : Piece) (chunk : Chunk) : Prop :=
  chunk.text.length ≤ found.text.length ∧ (found.text = chunk.text → found.chunk = chunk)

/-- A run of characters that starts with a text of such characters covers it. -/
theorem length_le_takeWhile {member : Char → Bool} {text : List Char}
    (h : ∀ c ∈ text, member c = true) (rest : List Char) :
    text.length ≤ ((text ++ rest).takeWhile member).length := by
  rw [List.takeWhile_append_of_pos h, List.length_append]
  exact Nat.le_add_right _ _

/-- A run of characters is at least as long as any run at the front. -/
theorem run_covers {member : Char → Bool} {text : List Char} (h : ∀ c ∈ text, member c = true)
    (rest : List Char) : (run none member (text ++ rest)).Covers ⟨none, text, .null⟩ := by
  refine ⟨length_le_takeWhile h rest, fun htext => ?_⟩
  rw [Piece.chunk, htext]
  rfl

/-- A numeral is at least as long as the digits at the front. -/
theorem numeral_covers_whole {digits : List Char} (h : ∀ c ∈ digits, c.isDigit = true)
    (rest : List Char) :
    (numeral (digits ++ rest)).Covers
      ⟨some .number, digits, .float ((Decimal.ofPlaces digits []).toNumber false)⟩ := by
  have hle := length_le_takeWhile h rest
  refine ⟨?_, fun htext => ?_⟩
  · refine Nat.le_trans hle ?_
    rw [numeral]
    split
    · split
      · rw [List.length_append]
        exact Nat.le_add_right _ _
      · exact Nat.le_refl _
    · exact Nat.le_refl _
  · rw [Piece.chunk, numeral_kind, htext, ← numeralValue_whole h]
    rfl

/-- It takes the point and the places as well, if there are some. -/
theorem numeral_covers_fraction {whole places : List Char} (hw : ∀ c ∈ whole, c.isDigit = true)
    (hp : places ≠ []) (hpd : ∀ c ∈ places, c.isDigit = true) (rest : List Char) :
    (numeral (whole ++ '.' :: places ++ rest)).Covers
      ⟨some .number, whole ++ '.' :: places,
        .float ((Decimal.ofPlaces whole places).toNumber false)⟩ := by
  obtain ⟨d, places, rfl⟩ := List.exists_cons_of_ne_nil hp
  have hcs : whole ++ '.' :: d :: places ++ rest = whole ++ '.' :: d :: (places ++ rest) := by simp
  have htake : (whole ++ '.' :: d :: (places ++ rest)).takeWhile Char.isDigit = whole := by
    rw [List.takeWhile_append_of_pos hw, List.takeWhile_cons_of_neg (by decide), List.append_nil]
  have hdrop : (whole ++ '.' :: d :: (places ++ rest)).dropWhile Char.isDigit =
      '.' :: d :: (places ++ rest) := by
    rw [List.dropWhile_append_of_pos hw, List.dropWhile_cons_of_neg (by decide)]
  rw [List.forall_mem_cons] at hpd
  refine ⟨?_, fun htext => ?_⟩
  · have hle := length_le_takeWhile hpd.2 rest
    rw [hcs, numeral_fraction hdrop hpd.1, htake]
    simp only [List.length_append, List.length_cons]
    omega
  · rw [Piece.chunk, numeral_kind, htext, ← numeralValue_fraction hw]
    rfl

/-- A string ends at the first quote behind its start. -/
theorem string?_covers {body : List Char} (h : '"' ∉ body) (rest : List Char) :
    ∃ found, string? (body ++ '"' :: rest) = some found ∧
      found.Covers ⟨some .string, '"' :: (body ++ ['"']), .str (String.ofList body)⟩ := by
  have hbody : ∀ c ∈ body, decide (c ≠ '"') = true :=
    fun c hc => decide_eq_true fun he => h (he ▸ hc)
  refine ⟨⟨some .string, '"' :: (body ++ ['"']), rest⟩, ?_, Nat.le_refl _, fun _ => ?_⟩
  · rw [string?, List.takeWhile_append_of_pos hbody, List.dropWhile_append_of_pos hbody,
      List.takeWhile_cons_of_neg (by decide), List.dropWhile_cons_of_neg (by decide), List.append_nil]
  · rw [Piece.chunk]
    dsimp only [literalOf]
    rw [show (('"' :: (body ++ ['"'])).drop 1).dropLast = body from List.dropLast_concat]

/-- A word is at least as long as any word at the front. -/
theorem word_covers {first : Char} {rest : List Char} {kind : Kind} {literal : Json}
    (hf : isNamePart first = true) (hr : ∀ c ∈ rest, isNamePart c = true)
    (hkind : wordKind (first :: rest) = kind) (hliteral : literalOf kind (first :: rest) = literal)
    (left : List Char) :
    (word (first :: rest ++ left)).Covers ⟨some kind, first :: rest, literal⟩ := by
  refine ⟨length_le_takeWhile (List.forall_mem_cons.mpr ⟨hf, hr⟩) left, fun htext => ?_⟩
  have hk : (word (first :: rest ++ left)).kind = some kind :=
    congrArg some ((congrArg wordKind htext).trans hkind)
  rw [Piece.chunk, hk, htext]
  dsimp only
  rw [hliteral]

theorem behind?_append (text rest : List Char) : behind? text (text ++ rest) = some rest := by
  induction text with
  | nil => rfl
  | cons c text ih => exact (if_pos rfl).trans ih

/-- The first entry of a table that is at the front of a text is the longest such, if longer entries come
first. -/
theorem findSome?_covers {table : List (List Char × Kind)}
    (htable : table.Pairwise fun a b => b.1.length ≤ a.1.length ∧ a.1 ≠ b.1)
    {text : List Char} {kind : Kind} (hm : (text, kind) ∈ table) (rest : List Char) :
    ∃ found, table.findSome? (fun (symbol, k) =>
        (behind? symbol (text ++ rest)).map fun left => Piece.mk (some k) symbol left) = some found ∧
      text.length ≤ found.text.length ∧ (found.text = text → found.kind = some kind) := by
  induction table with
  | nil => cases hm
  | cons entry table ih =>
      obtain ⟨symbol, k⟩ := entry
      rw [List.pairwise_cons] at htable
      rw [List.findSome?_cons]
      dsimp only
      cases hb : behind? symbol (text ++ rest) with
      | some left =>
          refine ⟨⟨some k, symbol, left⟩, rfl, ?_, fun htext => ?_⟩
          · rcases List.mem_cons.mp hm with he | hm
            · cases he
              exact Nat.le_refl _
            · exact (htable.1 _ hm).1
          · rcases List.mem_cons.mp hm with he | hm
            · cases he
              rfl
            · exact absurd htext (htable.1 _ hm).2
      | none =>
          rcases List.mem_cons.mp hm with he | hm
          · cases he
            rw [behind?_append] at hb
            cases hb
          · exact ih htable.2 hm

/-- No operator at the front is longer than the one that is found. -/
theorem operator?_covers {text : List Char} {kind : Kind} (hm : (text, kind) ∈ operators)
    (rest : List Char) :
    ∃ found, operator? (text ++ rest) = some found ∧ found.Covers ⟨some kind, text, .null⟩ := by
  have hsorted : operators.Pairwise fun a b => b.1.length ≤ a.1.length ∧ a.1 ≠ b.1 := by decide
  obtain ⟨found, hfound, hle, hkind⟩ := findSome?_covers hsorted hm rest
  refine ⟨found, hfound, hle, fun htext => ?_⟩
  rw [Piece.chunk, hkind htext, htext]
  dsimp only
  rw [literalOf_operator hm]

/-- The characters of operators start no other terminal, but for the two slashes of a comment. -/
theorem piece?_operator {c : Char} (hc : ∃ entry ∈ operators, c ∈ entry.1) {rest : List Char}
    (hslash : ¬ (c = '/' ∧ rest.head? = some '/')) : piece? (c :: rest) = operator? (c :: rest) := by
  have hplain : operators.all (fun entry => entry.1.all fun c =>
      !isBlank c && !c.isDigit && c != '"' && !isNameStart c) = true := by decide
  obtain ⟨entry, hm, hc⟩ := hc
  have hc := List.all_eq_true.mp (List.all_eq_true.mp hplain entry hm) c hc
  simp only [Bool.and_eq_true, Bool.not_eq_true', bne_iff_ne] at hc
  obtain ⟨⟨⟨hblank, hdigit⟩, hquote⟩, hname⟩ := hc
  rw [piece?, hblank, hdigit, hname, if_neg hquote]
  simp [hslash]

/-- A slash may start a comment instead, which is longer. -/
theorem piece?_operator_covers {text : List Char} {kind : Kind} (hm : (text, kind) ∈ operators)
    (rest : List Char) :
    ∃ found, piece? (text ++ rest) = some found ∧ found.Covers ⟨some kind, text, .null⟩ := by
  have hne : ∀ entry ∈ operators, entry.1 ≠ [] := by decide
  have hslashes : ∀ entry ∈ operators, '/' ∈ entry.1 → entry.1 = ['/'] := by decide
  obtain ⟨c, symbol, rfl⟩ := List.exists_cons_of_ne_nil (hne _ hm)
  by_cases hslash : c = '/' ∧ (symbol ++ rest).head? = some '/'
  · obtain ⟨rfl, hhead⟩ := hslash
    cases hslashes _ hm List.mem_cons_self
    obtain ⟨rest', rfl⟩ := List.head?_eq_some_iff.mp hhead
    refine ⟨_, piece?_comment rest', Nat.succ_le_succ (Nat.zero_le _), fun htext => ?_⟩
    cases htext
  · rw [List.cons_append, piece?_operator ⟨_, hm, List.mem_cons_self⟩ hslash]
    exact operator?_covers hm rest

/-- **A terminal at the front is covered by the piece that is found there.** -/
theorem Chunk.IsTerminal.covered {chunk : Chunk} (h : chunk.IsTerminal) (rest : List Char) :
    ∃ found, piece? (chunk.text ++ rest) = some found ∧ found.Covers chunk := by
  cases h with
  | @blanks text hne h =>
      have hblank : ∀ c ∈ text, isBlank c = true := fun c hc => isBlank_iff.mpr (h c hc)
      obtain ⟨c, text, rfl⟩ := List.exists_cons_of_ne_nil hne
      exact ⟨_, piece?_blank (hblank c List.mem_cons_self) _, run_covers hblank rest⟩
  | @comment text h =>
      have hnl : ∀ c ∈ '/' :: '/' :: text, decide (c ≠ '\n') = true := by
        refine List.forall_mem_cons.mpr ⟨by decide, List.forall_mem_cons.mpr ⟨by decide, ?_⟩⟩
        exact fun c hc => decide_eq_true fun he => h (he ▸ hc)
      exact ⟨_, piece?_comment _, run_covers hnl rest⟩
  | @whole digits hne h =>
      have hdigit : ∀ c ∈ digits, c.isDigit = true := fun c hc => isDigit_iff.mpr (h c hc)
      obtain ⟨c, digits, rfl⟩ := List.exists_cons_of_ne_nil hne
      exact ⟨_, piece?_digit (hdigit c List.mem_cons_self) _, numeral_covers_whole hdigit rest⟩
  | @fraction whole places hw hwd hp hpd =>
      have hdigit : ∀ c ∈ whole, c.isDigit = true := fun c hc => isDigit_iff.mpr (hwd c hc)
      obtain ⟨c, whole, rfl⟩ := List.exists_cons_of_ne_nil hw
      exact ⟨_, piece?_digit (hdigit c List.mem_cons_self) _,
        numeral_covers_fraction hdigit hp (fun c hc => isDigit_iff.mpr (hpd c hc)) rest⟩
  | @string body h =>
      obtain ⟨found, hfound, hcovers⟩ := string?_covers h rest
      refine ⟨found, ?_, hcovers⟩
      simpa [piece?_quote] using hfound
  | @identifier first rest' hf hr hk =>
      have hstart := isNameStart_iff.mpr hf
      have hkind : wordKind (first :: rest') = .identifier := by
        rcases wordKind_cases (first :: rest') with ⟨hkind, -⟩ | hmem
        · exact hkind
        · exact absurd (List.mem_map_of_mem hmem) hk
      exact ⟨_, piece?_name hstart _, word_covers (isNamePart_iff.mpr (.inl hf))
        (fun c hc => isNamePart_iff.mpr (hr c hc)) hkind rfl rest⟩
  | @keyword word kind h =>
      -- the table of keywords holds words of letters only, each with its own kind
      have hwords : ∀ entry ∈ keywords, entry.1.toList ≠ [] ∧
          entry.1.toList.all isNameStart = true ∧ wordKind entry.1.toList = entry.2 := by
        decide +kernel
      obtain ⟨hne, hletters, hkind⟩ := hwords _ h
      dsimp only at hne hletters hkind ⊢
      obtain ⟨c, text, htext⟩ := List.exists_cons_of_ne_nil hne
      rw [htext, List.all_eq_true, List.forall_mem_cons] at hletters
      rw [htext] at hkind ⊢
      have hpart : ∀ {d : Char}, isNameStart d = true → isNamePart d = true :=
        fun hd => isNamePart_iff.mpr (.inl (isNameStart_iff.mp hd))
      exact ⟨_, piece?_name hletters.1 _, word_covers (hpart hletters.1)
        (fun d hd => hpart (hletters.2 d hd)) hkind (literalOf_keyword h _) rest⟩
  | operator h => exact piece?_operator_covers h rest

/-- **The piece that is found is the longest match.** -/
theorem isLongest_iff {chunk : Chunk} {cs : List Char} :
    chunk.IsLongest cs ↔ ∃ found, piece? cs = some found ∧ found.chunk = chunk := by
  constructor
  · rintro ⟨hterminal, ⟨rest, rfl⟩, hlongest⟩
    obtain ⟨found, hfound, hle, hsame⟩ := hterminal.covered rest
    refine ⟨found, hfound, hsame ?_⟩
    -- both are at the front, and neither is longer than the other
    have hfront : found.text <+: chunk.text ++ rest := ⟨found.rest, (piece?_eq_some hfound).2.symm⟩
    have hge := hlongest found.chunk (piece?_isTerminal hfound) hfront
    exact List.IsPrefix.eq_of_length
      (List.prefix_of_prefix_length_le hfront (List.prefix_append _ _) hge) (Nat.le_antisymm hge hle)
  · rintro ⟨found, hfound, rfl⟩
    refine ⟨piece?_isTerminal hfound, ⟨found.rest, (piece?_eq_some hfound).2.symm⟩, ?_⟩
    rintro other hother ⟨rest, rfl⟩
    obtain ⟨found', hfound', hle, -⟩ := hother.covered rest
    rw [hfound] at hfound'
    cases hfound'
    exact hle

/-- Where no piece is found, no terminal is at the front. -/
theorem piece?_eq_none_iff {cs : List Char} :
    piece? cs = none ↔ ∀ chunk : Chunk, chunk.IsTerminal → ¬ chunk.text <+: cs := by
  constructor
  · rintro h chunk hchunk ⟨rest, rfl⟩
    obtain ⟨found, hfound, -⟩ := hchunk.covered rest
    rw [h] at hfound
    cases hfound
  · intro h
    cases hp : piece? cs with
    | none => rfl
    | some found =>
        exact absurd ⟨found.rest, (piece?_eq_some hp).2.symm⟩ (h found.chunk (piece?_isTerminal hp))

/-! ### Splitting a text -/

/-- The chunks of a text, with what is left, make up the text. -/
theorem Splits.append {cs left : List Char} {chunks : List Chunk} (h : Splits cs chunks left) :
    cs = chunks.flatMap Chunk.text ++ left := by
  induction h with
  | none => rfl
  | chunk _ _ ih => rw [List.flatMap_cons, List.append_assoc, ← ih]

/-- A text is split up to its end, or up to where no terminal starts. -/
theorem exists_splits (cs : List Char) :
    ∃ chunks left, Splits cs chunks left ∧ piece? left = none := by
  induction hn : cs.length using Nat.strongRecOn generalizing cs with
  | ind n ih =>
      cases hp : piece? cs with
      | none => exact ⟨[], cs, .none cs, hp⟩
      | some found =>
          obtain ⟨chunks, left, hsplits, hnone⟩ :=
            ih _ (hn ▸ piece?_rest_length hp) found.rest rfl
          refine ⟨found.chunk :: chunks, left, ?_, hnone⟩
          have hcs := (piece?_eq_some hp).2
          rw [hcs] at hp ⊢
          have hlongest : found.chunk.IsLongest (found.chunk.text ++ found.rest) :=
            isLongest_iff.mpr ⟨found, hp, rfl⟩
          exact .chunk hlongest hsplits

/-- One more chunk adds its token, if it is not dropped. -/
theorem tokensFrom_chunk (found : Piece) (before : List Char) (chunks : List Chunk) :
    tokensFrom before (found.chunk :: chunks) =
      found.tokens (Position.start.after before).line ++ tokensFrom (before ++ found.text) chunks := by
  obtain ⟨kind, text, rest⟩ := found
  rw [Position.after_line]
  cases kind <;> rfl

/-- Scanning goes along the chunks, with their tokens and to the place behind them. -/
theorem scanFrom_splits {cs left : List Char} {chunks : List Chunk} (h : Splits cs chunks left)
    {fuel : Nat} (hf : cs.length ≤ fuel) (before : List Char) (done : List Token) :
    ∃ fuel', left.length ≤ fuel' ∧
      scanFrom fuel (Position.start.after before) done cs =
        scanFrom fuel' (Position.start.after (before ++ chunks.flatMap Chunk.text))
          ((tokensFrom before chunks).reverse ++ done) left := by
  induction h generalizing fuel before done with
  | none cs => exact ⟨fuel, hf, by simp [tokensFrom]⟩
  | @chunk chunk rest left chunks h _ ih =>
      obtain ⟨found, hfound, rfl⟩ := isLongest_iff.mp h
      obtain rfl : rest = found.rest := List.append_cancel_left (piece?_eq_some hfound).2
      obtain ⟨c, text, htext⟩ := List.exists_cons_of_ne_nil (piece?_text_ne hfound)
      have hlength := piece?_rest_length hfound
      cases fuel with
      | zero => omega
      | succ fuel =>
          have hrest : found.rest.length ≤ fuel := by omega
          obtain ⟨fuel', hfuel', hscan⟩ := ih hrest (before ++ found.text)
            ((found.tokens (Position.start.after before).line).reverse ++ done)
          refine ⟨fuel', hfuel', ?_⟩
          rw [List.flatMap_cons, tokensFrom_chunk, List.reverse_append, List.append_assoc _ _ done]
          show _ = scanFrom fuel' (Position.start.after (before ++ (found.text ++ _))) _ left
          rw [← List.append_assoc before, ← hscan, Position.after_append]
          show scanFrom (fuel + 1) _ _ (found.text ++ found.rest) = _
          have hpiece : piece? (found.text ++ found.rest) = some found := hfound
          rw [htext, List.cons_append] at hpiece ⊢
          rw [scanFrom_piece hpiece, htext]

end Lexer

/-! ### Positions and errors -/

/-- The place behind a text, counted in it. -/
theorem Position.start_after (text : List Char) :
    start.after text =
      ⟨1 + text.count '\n', 1 + (text.reverse.takeWhile (· ≠ '\n')).length⟩ := by
  induction text using List.reverseRecOn with
  | nil => rfl
  | append_singleton text c ih =>
      rw [after_append, ih]
      show step _ c = _
      rw [step, List.reverse_append, List.count_append]
      by_cases hc : c = '\n'
      · subst hc
        rfl
      · rw [if_neg hc]
        simp [hc]
        omega

/-- A quote at which no terminal starts is that of a string without an end. -/
theorem Lexer.causeAt_text (c : Char) : (causeAt c).text = "Unterminated string." ↔ c = '"' := by
  rw [causeAt]
  split
  · rename_i hc
    exact ⟨fun _ => hc, fun _ => rfl⟩
  · rename_i hc
    refine ⟨fun h => ?_, fun h => absurd h hc⟩
    -- the other wording differs in its third letter
    have h := congrArg (fun s : String => s.toList.take 3) h
    dsimp only [ScanCause.text] at h
    rw [String.toList_append, String.toList_append, List.append_assoc,
      List.take_append_of_le_length (by decide)] at h
    exact absurd h (by decide)

/-- A quote with which no terminal starts is not closed. -/
theorem Lexer.not_mem_of_open_quote {rest : List Char}
    (h : ∀ chunk : Chunk, chunk.IsTerminal → ¬ chunk.text <+: '"' :: rest) : '"' ∉ rest := by
  intro hmem
  obtain ⟨body, left, rfl, hbody⟩ := List.eq_append_cons_of_mem hmem
  refine h _ (.string hbody) ⟨left, ?_⟩
  simp

/-- What `scan` gives for a text that is split as far as it goes. -/
theorem scan_splits {source : String} {chunks : List Lexer.Chunk} {left : List Char}
    (h : Lexer.Splits source.toList chunks left) :
    (left = [] → scan source = .ok (Lexer.tokensFrom [] chunks ++
      [Lexer.endToken (1 + source.toList.count '\n')])) ∧
    ∀ c rest, left = c :: rest → Lexer.piece? left = none →
      scan source = .error ⟨Position.start.after (chunks.flatMap Lexer.Chunk.text),
        Lexer.causeAt c⟩ := by
  obtain ⟨fuel, hfuel, hscan⟩ := Lexer.scanFrom_splits h (Nat.le_refl _) [] []
  refine ⟨?_, ?_⟩
  · rintro rfl
    have happend := h.append
    rw [List.append_nil] at happend
    refine hscan.trans ?_
    rw [Lexer.scanFrom, List.nil_append, ← happend, Position.after_line, List.append_nil,
      List.reverse_cons, List.reverse_reverse]
    rfl
  · rintro c rest rfl hnone
    refine hscan.trans ?_
    cases fuel with
    | zero => cases hfuel
    | succ fuel =>
        rw [Lexer.scanFrom, hnone, List.nil_append]

/-- **Texts are cut by longest match.**  A text has tokens exactly if it splits from left to right, each
time at the longest terminal at its front: they are the tokens of the chunks that are not dropped, and
one for the end of the text.  Otherwise the error is found at the first character at which no terminal
starts; its line is one more than the line breaks in front of it, and its column one more than the
characters in front of it on its line.  Such a character is a quote exactly if the error is that of an
unterminated string, and then no other quote follows. -/
theorem scan_longest (source : String) :
    (∀ tokens, scan source = .ok tokens ↔
      ∃ chunks, Lexer.Splits source.toList chunks [] ∧
        source.toList = chunks.flatMap Lexer.Chunk.text ∧
        tokens = Lexer.tokensFrom [] chunks ++
          [.ofText .eof "" .null (1 + source.toList.count '\n')]) ∧
    ∀ e, scan source = .error e ↔
      ∃ chunks c rest before, Lexer.Splits source.toList chunks (c :: rest) ∧
        (∀ chunk : Lexer.Chunk, chunk.IsTerminal → ¬ chunk.text <+: c :: rest) ∧
        before = chunks.flatMap Lexer.Chunk.text ∧ source.toList = before ++ c :: rest ∧
        e.position = ⟨1 + before.count '\n', 1 + (before.reverse.takeWhile (· ≠ '\n')).length⟩ ∧
        e.cause = (if c = '"' then .unterminatedString else .unexpected c) ∧
        (e.cause.text = "Unterminated string." ↔ c = '"') ∧ (c = '"' → '"' ∉ rest) := by
  -- the text can be split in one way as far as it goes, and what is left then decides
  obtain ⟨chunks, left, hsplits, hnone⟩ := Lexer.exists_splits source.toList
  obtain ⟨hok, herror⟩ := scan_splits hsplits
  refine ⟨fun tokens => ⟨fun h => ?_, ?_⟩, fun e => ⟨fun h => ?_, ?_⟩⟩
  · cases left with
    | nil =>
        have htokens := hok rfl
        rw [h] at htokens
        exact ⟨chunks, hsplits, by simpa using hsplits.append, Except.ok.inj htokens⟩
    | cons c rest =>
        rw [herror c rest rfl hnone] at h
        cases h
  · rintro ⟨chunks, hsplits, -, rfl⟩
    exact (scan_splits hsplits).1 rfl
  · cases left with
    | nil =>
        rw [hok rfl] at h
        cases h
    | cons c rest =>
        have hno := Lexer.piece?_eq_none_iff.mp hnone
        rw [herror c rest rfl hnone] at h
        cases h
        refine ⟨chunks, c, rest, _, hsplits, hno, rfl, hsplits.append, Position.start_after _, rfl,
          Lexer.causeAt_text c, ?_⟩
        rintro rfl
        exact Lexer.not_mem_of_open_quote hno
  · rintro ⟨chunks, c, rest, before, hsplits, hno, rfl, -, hposition, hcause, -, -⟩
    rw [(scan_splits hsplits).2 c rest rfl (Lexer.piece?_eq_none_iff.mpr hno), Position.start_after,
      ← hposition, Lexer.causeAt, ← hcause]

/-- In `1.5./or` a point and a slash follow a number and a keyword follows them; behind the line break of
`a⏎ "b` a quote is left open. -/
theorem scan_longest_boundaries :
    (∃ chunks, Lexer.Splits "1.5./or".toList chunks [] ∧
      Lexer.tokensFrom [] chunks =
        [.ofText .number "1.5" (.float ⟨0x3ff8000000000000⟩) 1, .ofText .dot "." .null 1,
          .ofText .slash "/" .null 1, .ofText .orWord "or" .null 1]) ∧
    ∃ chunks rest, Lexer.Splits "a\n \"b".toList chunks ('"' :: rest) ∧ '"' ∉ rest ∧
      scan "a\n \"b" = .error ⟨⟨2, 2⟩, .unterminatedString⟩ := by
  have herror : scan "a\n \"b" = .error ⟨⟨2, 2⟩, .unterminatedString⟩ := by decide +kernel
  constructor
  · obtain ⟨chunks, hsplits, -, htokens⟩ := ((scan_longest "1.5./or").1 _).mp
      (by decide +kernel : scan "1.5./or" = .ok
        ([.ofText .number "1.5" (.float ⟨0x3ff8000000000000⟩) 1, .ofText .dot "." .null 1,
          .ofText .slash "/" .null 1, .ofText .orWord "or" .null 1] ++ [.ofText .eof "" .null 1]))
    exact ⟨chunks, hsplits, (List.append_cancel_right htokens).symm⟩
  · obtain ⟨chunks, c, rest, -, hsplits, -, -, -, -, -, hcause, hrest⟩ :=
      ((scan_longest "a\n \"b").2 _).mp herror
    obtain rfl := hcause.mp rfl
    exact ⟨chunks, rest, hsplits, hrest rfl, herror⟩

end Lox
