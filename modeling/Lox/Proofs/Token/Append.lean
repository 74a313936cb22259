import Mathlib.Data.List.TakeWhile
import Lox.Proofs.Token.Scan

/-!
# Texts one behind the other

A text, a line break and another text are cut into the tokens of the first and then those of the
second, moved down by the lines of the first.

* `Lexer.Cuts p cs ts p'`: from the place `p` on, the characters `cs` are cut into the tokens `ts`, up to
  the place `p'`.  It does without fuel, and `scan_eq_ok_iff` says that it is what `scan` does.
* `Lexer.piece?_gap`: no piece but a run of blanks or a comment goes on over a blank behind it, and a
  comment ends at a line break.
* `Lexer.Cuts.blanks`: a run of blanks may be cut anywhere.
* `Lexer.Cuts.down`: lines are counted from where the text starts.
* `scan_append`: put together.
-/

namespace Lox

/-- A token so many lines further down. -/
def Token.down (lines : Nat) (t : Token) : Token :=
  { t with line := match t.line with
      | .int n => .int (n + lines)
      | other => other }

/-- A place so many lines further down. -/
def Position.down (lines : Nat) (p : Position) : Position := ⟨p.line + lines, p.column⟩

namespace Position

theorem after_append (p : Position) (text text' : List Char) :
    p.after (text ++ text') = (p.after text).after text' :=
  List.foldl_append

theorem after_down (lines : Nat) (p : Position) (text : List Char) :
    (p.down lines).after text = (p.after text).down lines := by
  induction text generalizing p with
  | nil => rfl
  | cons c text ih =>
      have hstep : (p.down lines).step c = (p.step c).down lines := by
        rw [step, step]
        split
        · rw [down, down, Nat.add_right_comm]
        · rfl
      show ((p.down lines).step c).after text = ((p.step c).after text).down lines
      rw [hstep, ih]

/-- A text goes on by as many lines as there are line breaks in it. -/
theorem after_line (p : Position) (text : List Char) :
    (p.after text).line = p.line + text.count '\n' := by
  induction text generalizing p with
  | nil => rfl
  | cons c text ih =>
      show ((p.step c).after text).line = _
      rw [ih, step, List.count_cons]
      split
      · rename_i hc
        subst hc
        simp only [beq_self_eq_true, if_true]
        omega
      · rename_i hc
        simp [hc]

end Position

namespace Lexer

/-! ### Cutting without fuel -/

/-- The tokens of a piece that starts on a line: one, unless it is dropped. -/
def Piece.tokens (found : Piece) (line : Nat) : List Token :=
  match found.kind with
  | none => []
  | some kind => [tokenOf kind found.text line]

/-- From a place on, characters are cut into tokens, up to another place. -/
inductive Cuts : Position → List Char → List Token → Position → Prop where
  | nil {p : Position} : Cuts p [] [] p
  | piece {p p' : Position} {cs : List Char} {ts : List Token} {found : Piece}
      (h : piece? cs = some found) (hr : Cuts (p.after found.text) found.rest ts p') :
      Cuts p cs (found.tokens p.line ++ ts) p'

theorem takeWhile_ne_nil (member : Char → Bool) {c : Char} (hc : member c = true) (rest : List Char) :
    (c :: rest).takeWhile member ≠ [] := by
  rw [List.takeWhile_cons_of_pos hc]
  exact List.cons_ne_nil _ _

/-- A piece has a character at least. -/
theorem piece?_text_ne {cs : List Char} {found : Piece} (h : piece? cs = some found) :
    found.text ≠ [] := by
  cases cs with
  | nil => cases h
  | cons c rest =>
      rw [piece?] at h
      split at h
      · -- blanks
        rename_i hc
        cases h
        exact takeWhile_ne_nil isBlank hc rest
      · split at h
        · -- a comment
          rename_i hc
          cases h
          have hne : decide (c ≠ '\n') = true := by
            rw [of_decide_eq_true (Bool.and_eq_true_iff.mp hc).1]
            decide
          exact takeWhile_ne_nil (· ≠ '\n') hne rest
        · split at h
          · -- a number
            rename_i hc
            cases h
            have hwhole := takeWhile_ne_nil Char.isDigit hc rest
            rw [numeral]
            split
            · split
              · exact List.append_ne_nil_of_left_ne_nil hwhole _
              · exact hwhole
            · exact hwhole
          · split at h
            · -- a string
              rw [string?] at h
              split at h
              · cases h
              · cases h
                exact List.cons_ne_nil _ _
            · split at h
              · -- a word
                rename_i hc
                cases h
                refine takeWhile_ne_nil isNamePart ?_ rest
                rw [isNameStart, Bool.or_eq_true] at hc
                rw [isNamePart, Char.isAlphanum, Bool.or_eq_true, Bool.or_eq_true]
                exact hc.imp_left .inl
              · -- an operator
                have hne : ∀ o ∈ operators, o.1 ≠ [] := by decide
                obtain ⟨⟨text, kind⟩, hm, ho⟩ := List.exists_of_findSome?_eq_some h
                obtain ⟨-, -, rfl⟩ := Option.map_eq_some_iff.mp ho
                exact hne _ hm

/-- A piece takes a character. -/
theorem piece?_rest_length {cs : List Char} {found : Piece} (h : piece? cs = some found) :
    found.rest.length < cs.length := by
  have hpos := List.length_pos_iff.mpr (piece?_text_ne h)
  rw [(piece?_eq_some h).2, List.length_append]
  omega

/-- At the end of a text there is only the token for the end. -/
theorem scanFrom_nil {fuel : Nat} {p : Position} {done tokens : List Token} :
    scanFrom fuel p done [] = .ok tokens ↔
      ∃ ts p', Cuts p [] ts p' ∧ tokens = done.reverse ++ ts ++ [endToken p'.line] := by
  rw [scanFrom]
  constructor
  · intro h
    cases h
    exact ⟨[], p, .nil, by simp⟩
  · rintro ⟨ts, p', hcuts, rfl⟩
    cases hcuts with
    | nil => simp
    | piece h _ => cases h

/-- One piece is one step of the scanner. -/
theorem scanFrom_piece {fuel : Nat} {p : Position} {done : List Token} {c : Char} {rest : List Char}
    {found : Piece} (h : piece? (c :: rest) = some found) :
    scanFrom (fuel + 1) p done (c :: rest) =
      scanFrom fuel (p.after found.text) ((found.tokens p.line).reverse ++ done) found.rest := by
  obtain ⟨kind, text, left⟩ := found
  rw [scanFrom, h]
  cases kind <;> rfl

/-- `scanFrom` does what `Cuts` says, if there is fuel for every character. -/
theorem scanFrom_eq_ok_iff {fuel : Nat} {p : Position} {done tokens : List Token} {cs : List Char}
    (hf : cs.length ≤ fuel) :
    scanFrom fuel p done cs = .ok tokens ↔
      ∃ ts p', Cuts p cs ts p' ∧ tokens = done.reverse ++ ts ++ [endToken p'.line] := by
  induction fuel generalizing p done cs with
  | zero =>
      cases cs with
      | nil => exact scanFrom_nil
      | cons c rest => cases hf
  | succ fuel ih =>
      cases cs with
      | nil => exact scanFrom_nil
      | cons c rest =>
          cases hp : piece? (c :: rest) with
          | none =>
              rw [scanFrom, hp]
              refine ⟨fun h => (by cases h), ?_⟩
              rintro ⟨ts, p', hcuts, -⟩
              cases hcuts with
              | piece h _ =>
                  rw [hp] at h
                  cases h
          | some found =>
              have hlength := piece?_rest_length hp
              rw [scanFrom_piece hp, ih (by rw [List.length_cons] at hf hlength; omega)]
              constructor
              · rintro ⟨ts, p', hcuts, rfl⟩
                exact ⟨found.tokens p.line ++ ts, p', .piece hp hcuts, by simp⟩
              · rintro ⟨ts, p', hcuts, rfl⟩
                cases hcuts with
                | piece h hr =>
                    rw [hp] at h
                    cases h
                    exact ⟨_, p', hr, by simp⟩

/-! ### In front of a blank -/

/-- A piece with more text behind it. -/
def Piece.followedBy (found : Piece) (ds : List Char) : Piece :=
  ⟨found.kind, found.text, found.rest ++ ds⟩

theorem isBlank_iff {c : Char} : isBlank c = true ↔ c ∈ [' ', '\t', '\x0c', '\r', '\n'] := by
  simp [isBlank, or_assoc]

/-- A blank goes on with no number, word or comment. -/
theorem ends_of_isBlank {b : Char} (hb : isBlank b = true) :
    b.isDigit = false ∧ isNamePart b = false ∧ b ≠ '/' := by
  rw [isBlank_iff] at hb
  simp only [List.mem_cons, List.not_mem_nil, or_false] at hb
  rcases hb with rfl | rfl | rfl | rfl | rfl <;> decide

section Gap

variable (member : Char → Bool) {b : Char} (cs ds : List Char)

/-- A run of characters ends in front of one that is not of its class. -/
theorem takeWhile_gap (hm : member b = false) :
    (cs ++ b :: ds).takeWhile member = cs.takeWhile member := by
  induction cs with
  | nil => exact List.takeWhile_cons_of_neg (by simp [hm])
  | cons c cs ih => rw [List.cons_append, List.takeWhile_cons, List.takeWhile_cons, ih]

theorem dropWhile_gap (hm : member b = false) :
    (cs ++ b :: ds).dropWhile member = cs.dropWhile member ++ b :: ds := by
  induction cs with
  | nil => exact List.dropWhile_cons_of_neg (by simp [hm])
  | cons c cs ih =>
      rw [List.cons_append, List.dropWhile_cons, List.dropWhile_cons, ih]
      split <;> rfl

/-- A run of characters goes no further than a character that is not one of them. -/
theorem run_gap (kind : Option Kind) (hm : member b = false) :
    run kind member (cs ++ b :: ds) = (run kind member cs).followedBy (b :: ds) := by
  rw [run, takeWhile_gap member cs ds hm, dropWhile_gap member cs ds hm]
  rfl

/-- A word ends in front of a blank. -/
theorem word_gap (hb : isBlank b = true) :
    word (cs ++ b :: ds) = (word cs).followedBy (b :: ds) := by
  obtain ⟨-, hpart, -⟩ := ends_of_isBlank hb
  rw [word, takeWhile_gap isNamePart cs ds hpart, dropWhile_gap isNamePart cs ds hpart]
  rfl

variable {cs}

/-- A number with a fraction. -/
theorem numeral_fraction {d : Char} {rest : List Char}
    (h : cs.dropWhile Char.isDigit = '.' :: d :: rest) (hd : d.isDigit = true) :
    numeral cs = ⟨some .number, cs.takeWhile Char.isDigit ++ '.' :: d :: rest.takeWhile Char.isDigit,
      rest.dropWhile Char.isDigit⟩ := by
  rw [numeral, h]
  exact if_pos hd

/-- A number without a fraction. -/
theorem numeral_whole
    (h : ∀ d rest, cs.dropWhile Char.isDigit = '.' :: d :: rest → d.isDigit = false) :
    numeral cs = ⟨some .number, cs.takeWhile Char.isDigit, cs.dropWhile Char.isDigit⟩ := by
  rw [numeral]
  split
  · rename_i d rest hd
    rw [if_neg (by simp [h d rest hd]), hd]
  · rfl

variable (cs)

/-- The point of a number has a digit behind it, and a blank is none. -/
theorem numeral_gap (hb : isBlank b = true) :
    numeral (cs ++ b :: ds) = (numeral cs).followedBy (b :: ds) := by
  obtain ⟨hdigit, -, -⟩ := ends_of_isBlank hb
  have ht := takeWhile_gap Char.isDigit cs ds hdigit
  have hdrop := dropWhile_gap Char.isDigit cs ds hdigit
  by_cases h : ∃ d rest, cs.dropWhile Char.isDigit = '.' :: d :: rest ∧ d.isDigit = true
  · obtain ⟨d, rest, hcs, hd⟩ := h
    rw [hcs, List.cons_append, List.cons_append] at hdrop
    rw [numeral_fraction hcs hd, numeral_fraction hdrop hd, ht,
      takeWhile_gap Char.isDigit rest ds hdigit, dropWhile_gap Char.isDigit rest ds hdigit]
    rfl
  · have hwhole : ∀ d rest, cs.dropWhile Char.isDigit = '.' :: d :: rest → d.isDigit = false :=
      fun d rest hcs => Bool.eq_false_iff.mpr fun hd => h ⟨d, rest, hcs, hd⟩
    rw [numeral_whole hwhole, numeral_whole fun d rest hcs => ?_, ht, hdrop]
    · rfl
    · rw [hdrop] at hcs
      match hleft : cs.dropWhile Char.isDigit with
      | [] =>
          rw [hleft] at hcs
          cases hcs
          exact absurd hb (by decide)
      | [c] =>
          rw [hleft] at hcs
          cases hcs
          exact hdigit
      | c :: d' :: rest' =>
          rw [hleft] at hcs
          cases hcs
          exact hwhole d rest' hleft

variable {cs}

/-- A run that ends inside a text does not depend on what stands behind the text. -/
theorem span_append {c : Char} {rest : List Char} (h : cs.dropWhile member = c :: rest) :
    (cs ++ ds).takeWhile member = cs.takeWhile member ∧
      (cs ++ ds).dropWhile member = c :: rest ++ ds := by
  induction cs with
  | nil => cases h
  | cons x cs ih =>
      rw [List.cons_append]
      cases hx : member x with
      | true =>
          rw [List.dropWhile_cons_of_pos hx] at h
          rw [List.takeWhile_cons_of_pos hx, List.takeWhile_cons_of_pos hx,
            List.dropWhile_cons_of_pos hx, (ih h).1]
          exact ⟨rfl, (ih h).2⟩
      | false =>
          have hneg : ¬ member x = true := Bool.eq_false_iff.mp hx
          rw [List.dropWhile_cons_of_neg hneg] at h
          cases h
          rw [List.takeWhile_cons_of_neg hneg, List.takeWhile_cons_of_neg hneg,
            List.dropWhile_cons_of_neg hneg]
          exact ⟨rfl, rfl⟩

/-- A string is closed inside its text. -/
theorem string?_append {found : Piece} (h : string? cs = some found) :
    string? (cs ++ ds) = some (found.followedBy ds) := by
  rw [string?] at h
  split at h
  · cases h
  · rename_i quote rest hd
    cases h
    obtain ⟨ht, hdrop⟩ := span_append (· ≠ '"') ds hd
    rw [string?, ht, hdrop]
    rfl

variable (cs)

theorem behind?_gap {ws : List Char} (hws : b ∉ ws) :
    behind? ws (cs ++ b :: ds) = (behind? ws cs).map (· ++ b :: ds) := by
  induction ws generalizing cs with
  | nil => rw [behind?, behind?, Option.map_some]
  | cons w ws ih =>
      have hw := List.ne_of_not_mem_cons hws
      cases cs with
      | nil =>
          rw [List.nil_append, behind?, behind?, if_neg fun h => hw h.symm]
          rfl
      | cons c cs =>
          rw [List.cons_append, behind?, behind?]
          split
          · exact ih cs (List.not_mem_of_not_mem_cons hws)
          · rfl

/-- Which operator stands at the front does not depend on what follows a blank. -/
theorem operator?_gap (hb : isBlank b = true) :
    operator? (cs ++ b :: ds) = (operator? cs).map (·.followedBy (b :: ds)) := by
  have hblank : ∀ o ∈ operators, o.1.all (!isBlank ·) = true := by decide
  have hne : ∀ o ∈ operators, b ∉ o.1 := by
    intro o ho hmem
    have hb' := List.all_eq_true.mp (hblank o ho) b hmem
    rw [hb] at hb'
    cases hb'
  rw [operator?, operator?]
  generalize operators = table at hne
  induction table with
  | nil => rfl
  | cons o table ih =>
      have hrest := ih fun o' ho' => hne o' (List.mem_cons_of_mem _ ho')
      have hbehind := behind?_gap cs ds (hne o List.mem_cons_self)
      obtain ⟨text, kind⟩ := o
      rw [List.findSome?_cons, List.findSome?_cons]
      dsimp only at hbehind ⊢
      rw [hbehind]
      cases behind? text cs with
      | none => exact hrest
      | some rest => rfl

/-- No piece but a run of blanks goes on over a blank behind it, unless it is a comment and the blank is
no line break. -/
theorem piece?_gap {c : Char} (hc : isBlank c = false) (hb : isBlank b = true) {found : Piece}
    (h : piece? (c :: cs) = some found) (hkind : found.kind = none → b = '\n') :
    piece? (c :: cs ++ b :: ds) = some (found.followedBy (b :: ds)) := by
  have hhead : decide ((cs ++ b :: ds).head? = some '/') = decide (cs.head? = some '/') := by
    obtain ⟨-, -, hslash⟩ := ends_of_isBlank hb
    cases cs with
    | nil => simpa using hslash
    | cons => rfl
  have hblank : ¬ isBlank c = true := Bool.eq_false_iff.mp hc
  rw [piece?, if_neg hblank] at h
  rw [List.cons_append, piece?, if_neg hblank, hhead]
  -- the rest of both texts is asked the same questions, in the same order
  split at h
  · rename_i hcomment
    cases h
    obtain rfl := hkind rfl
    rw [if_pos hcomment]
    exact congrArg some (run_gap _ (c :: cs) ds _ (by decide))
  · rename_i hcomment
    rw [if_neg hcomment]
    split at h
    · rename_i hdigit
      cases h
      rw [if_pos hdigit]
      exact congrArg some (numeral_gap (c :: cs) ds hb)
    · rename_i hdigit
      rw [if_neg hdigit]
      split at h
      · rename_i hquote
        rw [if_pos hquote]
        exact string?_append _ h
      · rename_i hquote
        rw [if_neg hquote]
        split at h
        · rename_i hname
          cases h
          rw [if_pos hname]
          exact congrArg some (word_gap (c :: cs) ds hb)
        · rename_i hname
          rw [if_neg hname]
          exact (operator?_gap (c :: cs) ds hb).trans (congrArg (Option.map _) h)

end Gap

/-! ### Cutting one text behind another -/

/-- A blank starts a run of blanks. -/
theorem piece?_blank {c : Char} (hc : isBlank c = true) (rest : List Char) :
    piece? (c :: rest) = some (run none isBlank (c :: rest)) :=
  if_pos hc

namespace Cuts

variable {p p' p'' : Position} {cs ds : List Char} {ts us : List Token}

/-- Where a text ends is determined by its characters. -/
theorem eq_after (h : Cuts p cs ts p') : p' = p.after cs := by
  induction h with
  | nil => rfl
  | piece h _ ih =>
      rw [ih, ← Position.after_append, ← (piece?_eq_some h).2]

/-- A blank in front is dropped, by itself or with the blanks behind it. -/
theorem blank {c : Char} (hc : isBlank c = true) (h : Cuts (p.step c) cs ts p') :
    Cuts p (c :: cs) ts p' := by
  have hpiece := piece?_blank hc cs
  cases h with
  | nil =>
      rw [run, List.takeWhile_cons_of_pos hc, List.dropWhile_cons_of_pos hc] at hpiece
      exact .piece hpiece .nil
  | @piece _ _ _ ts found h hr =>
      cases cs with
      | nil => cases h
      | cons c' rest =>
          rw [run, List.takeWhile_cons_of_pos hc, List.dropWhile_cons_of_pos hc] at hpiece
          cases hc' : isBlank c' with
          | true =>
              rw [piece?_blank hc'] at h
              cases h
              exact .piece hpiece hr
          | false =>
              have hneg : ¬ isBlank c' = true := Bool.eq_false_iff.mp hc'
              rw [List.takeWhile_cons_of_neg hneg, List.dropWhile_cons_of_neg hneg] at hpiece
              exact .piece hpiece (.piece h hr)

/-- A run of blanks may be cut anywhere. -/
theorem blanks {text : List Char} (ht : ∀ c ∈ text, isBlank c = true)
    (h : Cuts (p.after text) cs ts p') : Cuts p (text ++ cs) ts p' := by
  induction text generalizing p with
  | nil => exact h
  | cons c text ih =>
      refine blank (ht c List.mem_cons_self) ?_
      exact ih (fun c' hc' => ht c' (List.mem_cons_of_mem _ hc')) h

/-- Lines are counted from where the text starts. -/
theorem down (lines : Nat) (h : Cuts p cs ts p') :
    Cuts (p.down lines) cs (ts.map (·.down lines)) (p'.down lines) := by
  induction h with
  | nil => exact .nil
  | @piece p p' cs ts found h _ ih =>
      have htokens : found.tokens (p.down lines).line =
          (found.tokens p.line).map (·.down lines) := by
        rw [Piece.tokens, Piece.tokens]
        split
        · rfl
        · rfl
      rw [List.map_append, ← htokens]
      refine .piece h ?_
      rwa [Position.after_down]

/-- What is cut up to a line break stays cut, whatever stands behind the break. -/
theorem append (h : Cuts p cs ts p') (h' : Cuts p' ('\n' :: ds) us p'') :
    Cuts p (cs ++ '\n' :: ds) (ts ++ us) p'' := by
  induction h with
  | nil => exact h'
  | @piece p p' cs ts found h _ ih =>
      rw [List.append_assoc]
      cases cs with
      | nil => cases h
      | cons c rest =>
          cases hc : isBlank c with
          | true =>
              rw [piece?_blank hc] at h
              cases h
              have hrun : Cuts p ((c :: rest).takeWhile isBlank ++
                  ((c :: rest).dropWhile isBlank ++ '\n' :: ds)) (ts ++ us) p'' :=
                blanks (fun _ => List.mem_takeWhile_imp) (ih h')
              rwa [← List.append_assoc, List.takeWhile_append_dropWhile] at hrun
          | false =>
              show Cuts p _ ((found.followedBy ('\n' :: ds)).tokens p.line ++ (ts ++ us)) p''
              exact .piece (piece?_gap rest ds hc (by decide) h fun _ => rfl) (ih h')

end Cuts

end Lexer

/-- What `scan` gives: the tokens into which the text is cut, and one for its end. -/
theorem scan_eq_ok_iff {source : String} {tokens : List Token} :
    scan source = .ok tokens ↔ ∃ ts p, Lexer.Cuts .start source.toList ts p ∧
      tokens = ts ++ [Lexer.endToken p.line] := by
  rw [scan, Lexer.scanFrom_eq_ok_iff (Nat.le_refl _)]
  simp

/-- **Texts one behind the other.**  A text, a line break and another text are cut into the tokens of
both, those of the second moved down by the lines of the first. -/
theorem scan_append {a b : String} {ts us : List Token} {last last' : Token}
    (ha : scan a = .ok (ts ++ [last])) (hb : scan b = .ok (us ++ [last'])) :
    let lines := 1 + a.toList.count '\n'
    scan (a ++ "\n" ++ b) = .ok (ts ++ us.map (·.down lines) ++ [last'.down lines]) := by
  intro lines
  obtain ⟨ts', p, hcuts, heq⟩ := scan_eq_ok_iff.mp ha
  obtain ⟨us', p', hcuts', heq'⟩ := scan_eq_ok_iff.mp hb
  obtain ⟨rfl, hlast⟩ := List.append_inj' heq rfl
  obtain ⟨rfl, hlast'⟩ := List.append_inj' heq' rfl
  cases hlast
  cases hlast'
  rw [scan_eq_ok_iff]
  refine ⟨ts ++ us.map (·.down lines), p'.down lines, ?_, ?_⟩
  · -- the second text starts at the first column of the line behind the first text
    have hstart : p.step '\n' = Position.start.down lines := by
      rw [hcuts.eq_after, Position.step, if_pos rfl, Position.after_line, Position.down]
      rw [show Position.start.line + _ + 1 = Position.start.line + lines from by omega]
      rfl
    have hb' := (hstart ▸ hcuts'.down lines : Lexer.Cuts (p.step '\n') _ _ _)
    have hwhole := hcuts.append (.blank (by decide) hb')
    simpa using hwhole
  · rfl

end Lox
