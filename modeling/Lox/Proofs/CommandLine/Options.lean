import Lox.CommandLine.Options

/-!
# Settings of a command line

The words that set the detail and the bound on open calls (`settingWords`) are taken before what
follows them, whatever that is.  `settles_settingWords`: either they are refused in front of every
command, or they leave the same settings to every command.

`parse_maxDepth`: the options have a bound on open calls, unless a word of the command line takes it away
with two dashes behind the equals sign.
-/

namespace Lox

namespace CommandLine

/-- How a command line may ask for a bound on open calls. -/
inductive DepthRequest where
  | absent
  /-- In two words. -/
  | apart (text : String)
  /-- In one word, with an equals sign. -/
  | joined (text : String)

/-- The words of a request. -/
def DepthRequest.words : DepthRequest → List String
  | .absent => []
  | .apart text => ["--max-depth", text]
  | .joined text => ["--max-depth=" ++ text]

/-- The words that ask for more detail so many times, and maybe for a bound on open calls. -/
def settingWords (verbosity : Nat) (depth : DepthRequest) : List String :=
  List.replicate verbosity "-v" ++ depth.words

/-- What the words of a command line that were taken ask for. -/
def settled : Except Refusal Progress → Except Refusal Options
  | .error refusal => .error refusal
  | .ok p => if p.extra then .error .usage else .ok p.options

theorem parse_of_wordsOf {arguments : List String} {words : List Word}
    (h : wordsOf arguments = some words) : parse arguments = settled (takeWords {} words) := by
  rw [parse, h]
  rfl

/-- A text with a dash that is no option ends the command. -/
theorem parse_of_wordsOf_none {arguments : List String} (h : wordsOf arguments = none) :
    parse arguments = .error .usage := by
  rw [parse, h]

/-! ### Words -/

/-- The words in front of two dashes are read one by one. -/
theorem wordsOf_cons {text : String} (h : text ≠ "--") (rest : List String) :
    wordsOf (text :: rest) =
      (wordOf text).bind fun word => (wordsOf rest).map (word :: ·) := by
  rw [wordsOf, if_neg h]
  cases wordOf text with
  | none => rfl
  | some word => cases wordsOf rest <;> rfl

/-- A word that does not start with a dash is a value. -/
theorem wordOf_value {text : String} (h : text.toList.head? ≠ some '-') :
    wordOf text = some (.value text) := by
  unfold wordOf
  split
  · rename_i heq
    exact absurd (by rw [heq]; rfl) h
  · rename_i heq
    exact absurd (by rw [heq]; rfl) h
  · rfl

theorem wordsOf_value {text : String} (h : text.toList.head? ≠ some '-') :
    wordsOf [text] = some [.value text] := by
  have hne : text ≠ "--" := by rintro rfl; exact h rfl
  rw [wordsOf_cons hne, wordOf_value h]
  rfl

theorem wordsOf_emitTree {text : String} (h : text.toList.head? ≠ some '-') :
    wordsOf ["--emit-ast", text] = some [.long .emitTree none, .value text] := by
  have hword : wordOf "--emit-ast" = some (.long .emitTree none) := by decide
  rw [wordsOf_cons (by decide), hword, wordsOf_value h]
  rfl

theorem wordsOf_runTree {text : String} (h : text.toList.head? ≠ some '-') :
    wordsOf ["--ast", text] = some [.long .runTree none, .value text] := by
  have hword : wordOf "--ast" = some (.long .runTree none) := by decide
  rw [wordsOf_cons (by decide), hword, wordsOf_value h]
  rfl

/-- An equals sign joins the option and its text. -/
theorem wordOf_maxDepth (text : String) :
    wordOf ("--max-depth=" ++ text) = some (.long .maxDepth (some text)) := by
  have hsplit : splitEquals ("--max-depth=".toList ++ text.toList) =
      ("--max-depth".toList, some text) := by
    simp [splitEquals]
  have hlong : longWord ("--max-depth=".toList ++ text.toList) =
      some (.long .maxDepth (some text)) := by
    rw [longWord, hsplit]
    rfl
  rw [wordOf, String.toList_append]
  exact hlong

/-- The words for more detail stay in front of the others. -/
theorem wordsOf_verbose (verbosity : Nat) (rest : List String) :
    wordsOf (List.replicate verbosity "-v" ++ rest) =
      (wordsOf rest).map (List.replicate verbosity (.letters .verbose []) ++ ·) := by
  have hword : wordOf "-v" = some (.letters .verbose []) := by decide
  induction verbosity with
  | zero => simp
  | succ n ih =>
      rw [List.replicate_succ, List.cons_append, wordsOf_cons (by decide), hword, ih]
      cases wordsOf rest <;> rfl

/-! ### Taking words -/

theorem takeWords_verbose (verbosity : Nat) (p : Progress) (rest : List Word) :
    takeWords p (List.replicate verbosity (.letters .verbose []) ++ rest) =
      takeWords
        { p with options := { p.options with verbosity := p.options.verbosity + verbosity } } rest := by
  induction verbosity generalizing p with
  | zero => rfl
  | succ n ih =>
      rw [List.replicate_succ, List.cons_append, takeWords]
      have hflags : takeFlags p [.verbose] = .ok
          { p with options := { p.options with verbosity := p.options.verbosity + 1 } } := rfl
      have hletters : flagsOf? (lettersBehind []) = some [] := rfl
      rw [hletters]
      dsimp only
      rw [hflags]
      dsimp only
      rw [ih, Nat.add_assoc, Nat.add_comm 1 n]

section

variable {p : Progress} {flag : Flag} (hflag : flag.takesValue = true)

include hflag

theorem takeWords_value {next : Progress} {text : String} (h : takeValue p flag text = .ok next)
    (rest : List Word) :
    takeWords p (.long flag none :: .value text :: rest) = takeWords next rest := by
  rw [takeWords, if_pos hflag, h]

theorem takeWords_refused {refusal : Refusal} {text : String}
    (h : takeValue p flag text = .error refusal) (rest : List Word) :
    takeWords p (.long flag none :: .value text :: rest) = .error refusal := by
  rw [takeWords, if_pos hflag, h]

/-- A flag that takes a value needs one behind it. -/
theorem takeWords_missing {word : Word} (h : ∀ text, word ≠ .value text) (rest : List Word) :
    takeWords p (.long flag none :: word :: rest) = .error .usage := by
  rw [takeWords, if_pos hflag]
  intro text behind heq
  exact h text (List.cons.inj heq).1

end

/-- A text for the bound is taken if it is an integer, and refused otherwise. -/
theorem takeValue_maxDepth (p : Progress) (text : String) :
    takeValue p .maxDepth text = .error .usage ∨ ∃ n, takeValue p .maxDepth text =
      .ok { p with options := { p.options with maxDepth := some n } } := by
  cases hn : readInteger? text with
  | none => exact .inl (by simp [takeValue, hn])
  | some n => exact .inr ⟨n, by simp [takeValue, hn]⟩

/-- Behind the option for the bound a value that is an integer is taken, and all else is refused. -/
theorem takeWords_maxDepth (p : Progress) (word : Word) :
    (∀ rest, takeWords p (.long .maxDepth none :: word :: rest) = .error .usage) ∨
    ∃ n, ∀ rest, takeWords p (.long .maxDepth none :: word :: rest) =
      takeWords { p with options := { p.options with maxDepth := some n } } rest := by
  cases word with
  | value text =>
      rcases takeValue_maxDepth p text with h | ⟨n, h⟩
      · exact .inl (takeWords_refused rfl h)
      · exact .inr ⟨n, takeWords_value rfl h⟩
  | dashes | unknown | letters | long =>
      exact .inl (takeWords_missing rfl fun _ => Word.noConfusion)

/-- Behind an equals sign two dashes take the bound away. -/
theorem takeWords_maxDepth_attached (p : Progress) (text : String) :
    (∀ rest, takeWords p (.long .maxDepth (some text) :: rest) = .error .usage) ∨
    ∃ maxDepth, ∀ rest, takeWords p (.long .maxDepth (some text) :: rest) =
      takeWords { p with options := { p.options with maxDepth := maxDepth } } rest := by
  by_cases hdashes : text = "--"
  · refine .inr ⟨none, fun rest => ?_⟩
    rw [takeWords, takeAttached, if_pos hdashes]
    rfl
  · rcases takeValue_maxDepth p text with h | ⟨n, h⟩
    · refine .inl fun rest => ?_
      rw [takeWords, takeAttached, if_neg hdashes, h]
    · refine .inr ⟨some n, fun rest => ?_⟩
      rw [takeWords, takeAttached, if_neg hdashes, h]

/-- The words for more detail are taken first. -/
theorem parse_verbose {verbosity : Nat} {tail : List String} {words : List Word}
    (h : wordsOf tail = some words) : parse (List.replicate verbosity "-v" ++ tail) =
      settled (takeWords { options := { verbosity := verbosity } } words) := by
  have hwords : wordsOf (List.replicate verbosity "-v" ++ tail) =
      some (List.replicate verbosity (.letters .verbose []) ++ words) := by
    rw [wordsOf_verbose, h, Option.map_some]
  rw [parse_of_wordsOf hwords, takeWords_verbose, Nat.zero_add]

/-- What is said of the words in front of a command: they are refused, or they leave the same
settings whatever follows them. -/
def Settles (verbosity : Nat) (front : List String) : Prop :=
  (∀ tail words, wordsOf tail = some words → parse (front ++ tail) = .error .usage) ∨
  ∃ maxDepth, ∀ tail words, wordsOf tail = some words → parse (front ++ tail) =
    settled (takeWords { options := { verbosity := verbosity, maxDepth := maxDepth } } words)

/-- Words settle a command if they are told apart on their own and are refused or taken on their
own. -/
theorem settles_of_words {verbosity : Nat} {depth : List String} {front : List Word}
    (hwords : ∀ tail words, wordsOf tail = some words → wordsOf (depth ++ tail) = some (front ++ words))
    (htake : (∀ rest, takeWords { options := { verbosity := verbosity } } (front ++ rest) =
        .error .usage) ∨
      ∃ maxDepth, ∀ rest, takeWords { options := { verbosity := verbosity } } (front ++ rest) =
        takeWords { options := { verbosity := verbosity, maxDepth := maxDepth } } rest) :
    Settles verbosity (List.replicate verbosity "-v" ++ depth) := by
  rcases htake with h | ⟨maxDepth, h⟩
  · refine .inl fun tail words htail => ?_
    rw [List.append_assoc, parse_verbose (hwords tail words htail), h]
    rfl
  · refine .inr ⟨maxDepth, fun tail words htail => ?_⟩
    rw [List.append_assoc, parse_verbose (hwords tail words htail), h]

/-- **The settings in front of a command are refused, or are the same whatever follows them.** -/
theorem settles_settingWords (verbosity : Nat) (depth : DepthRequest) :
    Settles verbosity (settingWords verbosity depth) := by
  cases depth with
  | absent =>
      exact @settles_of_words verbosity [] [] (fun _ _ h => h) (.inr ⟨_, fun _ => rfl⟩)
  | joined text =>
      have hne : "--max-depth=" ++ text ≠ "--" := by
        intro heq
        have hlength := congrArg String.length heq
        rw [String.length_append] at hlength
        have hlong : "--max-depth=".length = 12 := rfl
        have hshort : "--".length = 2 := rfl
        omega
      refine @settles_of_words _ _ [.long .maxDepth (some text)] (fun tail words htail => ?_)
        (takeWords_maxDepth_attached _ text)
      rw [DepthRequest.words, List.singleton_append, wordsOf_cons hne, wordOf_maxDepth, htail]
      rfl
  | apart text =>
      have hlong : wordOf "--max-depth" = some (.long .maxDepth none) := by decide
      have hdepth : ∀ tail, wordsOf ("--max-depth" :: text :: tail) =
          (wordsOf (text :: tail)).map (.long .maxDepth none :: ·) := by
        intro tail
        rw [wordsOf_cons (by decide), hlong]
        rfl
      by_cases hdashes : text = "--"
      · -- behind two dashes every word is a value, but they are none themselves
        refine .inl fun tail words _ => ?_
        have hwords : wordsOf ("--max-depth" :: text :: tail) =
            some (.long .maxDepth none :: .dashes :: tail.map .value) := by
          rw [hdepth, wordsOf, if_pos hdashes]
          rfl
        rw [settingWords, DepthRequest.words, List.append_assoc]
        refine (parse_verbose hwords).trans ?_
        rw [takeWords_missing rfl fun _ => Word.noConfusion]
        rfl
      · cases hword : wordOf text with
        | none =>
            refine .inl fun tail words _ => parse_of_wordsOf_none ?_
            rw [settingWords, DepthRequest.words, List.append_assoc, wordsOf_verbose]
            refine Option.map_eq_none_iff.mpr ((hdepth tail).trans ?_)
            rw [wordsOf_cons hdashes, hword]
            rfl
        | some word =>
            refine @settles_of_words _ _ [.long .maxDepth none, word]
              (fun tail words htail => (hdepth tail).trans ?_) ?_
            · rw [wordsOf_cons hdashes, hword, htail]
              rfl
            · rcases takeWords_maxDepth { options := { verbosity := verbosity } } word with h | ⟨n, h⟩
              · exact .inl h
              · exact .inr ⟨some n, h⟩

/-! ### Command lines without a bound -/

/-- The word takes the bound on open calls away. -/
def Word.unbounds (word : Word) : Prop := word = .long .maxDepth (some "--")

/-- There is a bound on open calls. -/
def Progress.Bounded (p : Progress) : Prop := p.options.maxDepth ≠ none

section Bounded

variable {p next : Progress}

/-- No flag by itself takes the bound away. -/
theorem takeFlag_bounded {flag : Flag} (h : takeFlag p flag = .ok next) (hp : p.Bounded) :
    next.Bounded := by
  cases flag <;> cases h
  exact hp

theorem takeFlags_bounded {flags : List Flag} (h : takeFlags p flags = .ok next) (hp : p.Bounded) :
    next.Bounded := by
  induction flags generalizing p with
  | nil =>
      cases h
      exact hp
  | cons flag flags ih =>
      rw [takeFlags] at h
      split at h
      · exact ih h (takeFlag_bounded ‹_› hp)
      · cases h

theorem takeValue_bounded {flag : Flag} {text : String} (h : takeValue p flag text = .ok next)
    (hp : p.Bounded) : next.Bounded := by
  unfold takeValue at h
  split at h
  · split at h <;> cases h
    exact Option.some_ne_none _
  · split at h <;> cases h
    exact hp
  · split at h <;> cases h
    exact hp
  · cases h

theorem takeNothing_bounded {flag : Flag} (hflag : flag ≠ .maxDepth)
    (h : takeNothing p flag = .ok next) (hp : p.Bounded) : next.Bounded := by
  unfold takeNothing at h
  split at h
  · exact absurd rfl hflag
  · split at h <;> cases h
    exact hp
  · split at h <;> cases h
    exact hp
  · cases h

/-- Nor does a text behind an equals sign, but for two dashes. -/
theorem takeAttached_bounded {flag : Flag} {attached : String}
    (hword : ¬ (Word.long flag (some attached)).unbounds) (h : takeAttached p flag attached = .ok next)
    (hp : p.Bounded) : next.Bounded := by
  unfold takeAttached at h
  split at h
  · rename_i hdashes
    refine takeNothing_bounded (fun hflag => hword ?_) h hp
    rw [Word.unbounds, hflag, hdashes]
  · exact takeValue_bounded h hp

theorem place_bounded (text : String) (hp : p.Bounded) : (place p text).Bounded := by
  unfold place
  split <;> exact hp

/-- A bound that is there stays, unless a word takes it away. -/
theorem takeWords_bounded {words : List Word} (h : takeWords p words = .ok next)
    (hwords : ∀ word ∈ words, ¬ word.unbounds) (hp : p.Bounded) : next.Bounded := by
  -- one case for each way to take a word, and in it the words that are left
  have htail : ∀ {word : Word} {rest : List Word}, (∀ w ∈ word :: rest, ¬ w.unbounds) →
      ∀ w ∈ rest, ¬ w.unbounds := fun hall w hw => hall w (List.mem_cons_of_mem _ hw)
  induction p, words using takeWords.induct with
  | case1 p =>
      cases h
      exact hp
  | case2 p rest ih =>
      rw [takeWords] at h
      exact ih h (htail hwords) hp
  | case3 p first more rest hflags | case4 p first more rest flags hflags refusal htaken
  | case6 p flag attached rest refusal htaken | case8 p flag hvalue text rest refusal htaken
  | case10 p flag rest hvalue hnone =>
      -- the word is refused
      simp_all [takeWords]
  | case11 p flag rest hvalue refusal htaken =>
      unfold takeWords at h
      rw [if_neg hvalue, htaken] at h
      cases h
  | case5 p first more rest flags hflags after htaken ih =>
      simp only [takeWords, hflags, htaken] at h
      exact ih h (htail hwords) (takeFlags_bounded htaken hp)
  | case7 p flag attached rest after htaken ih =>
      simp only [takeWords, htaken] at h
      exact ih h (htail hwords) (takeAttached_bounded (hwords _ (by simp)) htaken hp)
  | case9 p flag hvalue text behind after htaken ih =>
      simp only [takeWords, hvalue, htaken] at h
      exact ih h (htail (htail hwords)) (takeValue_bounded htaken hp)
  | case12 p flag rest hvalue after htaken ih =>
      unfold takeWords at h
      rw [if_neg hvalue, htaken] at h
      exact ih h (htail hwords) (takeFlag_bounded htaken hp)
  | case13 p text rest ih =>
      rw [takeWords] at h
      exact ih h (htail (htail hwords)) (place_bounded text hp)
  | case14 p text rest hrest ih =>
      rw [takeWords] at h
      · exact ih h (htail hwords) (place_bounded text hp)
      · exact hrest
  | case15 p rest after ih =>
      rw [takeWords] at h
      refine ih h (htail hwords) ?_
      show Progress.Bounded (if p.placed then _ else _)
      split <;> exact hp

/-- Words come from the texts of the command line. -/
theorem mem_wordsOf {arguments : List String} {words : List Word} (h : wordsOf arguments = some words)
    {word : Word} (hw : word ∈ words) :
    word = .dashes ∨ (∃ text, word = .value text) ∨ ∃ text ∈ arguments, wordOf text = some word := by
  induction arguments generalizing words with
  | nil =>
      cases h
      cases hw
  | cons text rest ih =>
      by_cases hdashes : text = "--"
      · rw [wordsOf, if_pos hdashes] at h
        cases h
        rcases List.mem_cons.mp hw with rfl | hw
        · exact .inl rfl
        · obtain ⟨text', -, rfl⟩ := List.mem_map.mp hw
          exact .inr (.inl ⟨text', rfl⟩)
      · rw [wordsOf_cons hdashes, Option.bind_eq_some_iff] at h
        obtain ⟨first, hfirst, hrest⟩ := h
        obtain ⟨more, hmore, rfl⟩ := Option.map_eq_some_iff.mp hrest
        rcases List.mem_cons.mp hw with rfl | hw
        · exact .inr (.inr ⟨text, by simp, hfirst⟩)
        · refine (ih hmore hw).imp_right fun h => h.imp_right fun ⟨text', ht, hword⟩ => ?_
          exact ⟨text', by simp [ht], hword⟩

/-- **The options have a bound on open calls**, unless a word takes it away: the option for the bound,
in full or cut short, with two dashes behind the equals sign. -/
theorem parse_maxDepth {arguments : List String} {options : Options}
    (h : parse arguments = .ok options)
    (harguments : ∀ text ∈ arguments, wordOf text ≠ some (.long .maxDepth (some "--"))) :
    options.maxDepth ≠ none := by
  rw [parse] at h
  split at h
  · cases h
  · rename_i words hwords
    split at h
    · cases h
    · rename_i p hp
      split at h
      · cases h
      · cases h
        refine takeWords_bounded hp (fun word hw hunbounds => ?_) (Option.some_ne_none _)
        rcases mem_wordsOf hwords hw with rfl | ⟨text, rfl⟩ | ⟨text, ht, hword⟩
        · cases hunbounds
        · cases hunbounds
        · exact harguments text ht (hword.trans (congrArg some hunbounds))

end Bounded

end CommandLine

end Lox
