import Lox.Proofs.Run
import Lox.Proofs.Node.Parsed
import Lox.Proofs.Session.Layout
import Lox.Proofs.Token.Append

/-!
# Running a program in pieces

A text, a line break and another text are run as the first text and then, in the same session, the
second one.  Where the tokens of the second text stand further down can be told by their lines only,
and a token of the first text may stand on the same line.  So the second text is read a third time, with
a mark on the lines of its tokens, which no line of a text has, and both other runs are what becomes of
the run of the marked program where the marks are taken off.

* `Program.ofSource_append`: the statements of the whole are those of both; the marks are taken off by
  `Token.landed`, in the whole so many lines further down.
* `returnsNothing`: outside functions no statement returns, so the statements of the second text are
  arrived at unless there is a fault.
* `interpret_append`: a run of both lists of statements goes through the end of a run of the first.
* `Session.interpret_piecewise`: put together.  The tokens of the first text keep their lines, also in
  functions that the second text calls (`Session.interpret_not_all_moved`).
-/

namespace Lox

open Node (IsStatement)

/-! ### Marks -/

namespace Token

/-- A token with a mark on its line. -/
def marked (t : Token) : Token := { t with line := .arr [t.line] }

/-- There is a mark on the line of a token. -/
def IsMarked (t : Token) : Prop := ∃ line : Int, t.line = .arr [.int line]

/-- A token with the mark on its line taken off, and so many lines further down if there was one. -/
def landed (lines : Nat) (t : Token) : Token :=
  match t.line with
  | .arr [.int line] => { t with line := .int (line + lines) }
  | _ => t

variable {t : Token} {lines : Nat}

theorem landed_eq {line : Int} (h : t.line = .arr [.int line]) :
    t.landed lines = { t with line := .int (line + lines) } := by
  rw [landed, h]

/-- Without a mark nothing is moved. -/
theorem landed_of_not_isMarked (h : ¬ t.IsMarked) : t.landed lines = t := by
  rw [landed]
  split
  · rename_i line hline
    exact absurd ⟨line, hline⟩ h
  · rfl

/-- The line of a token of a text is a number. -/
theorem not_isMarked {line : Int} (h : t.line = .int line) : ¬ t.IsMarked := by
  rintro ⟨line', h'⟩
  rw [h] at h'
  cases h'

/-- A marked token lands so many lines further down. -/
theorem landed_marked {line : Int} (h : t.line = .int line) :
    t.marked.landed lines = t.down lines := by
  have hm : t.marked.line = .arr [.int line] := by rw [marked, h]
  rw [landed_eq hm, down, h]
  rfl

theorem down_zero {line : Int} (h : t.line = .int line) : t.down 0 = t := by
  obtain ⟨kind, lexeme, literal, written⟩ := t
  cases h
  rw [down]
  simp

end Token

namespace Token.Likeness

variable {P : Token → Prop} {lines : Nat} {t t' : Token}

/-- The mark is taken off, so many lines further down. -/
def landing (lines : Nat) : Likeness where
  Rel t t' := t' = t.landed lines
  kind := by
    rintro t - rfl
    rw [landed]
    split <;> rfl
  lexeme := by
    rintro t - rfl
    rw [landed]
    split <;> rfl
  literal := by
    rintro t - rfl
    rw [landed]
    split <;> rfl
  written := by
    rintro t - rfl
    by_cases h : t.IsMarked
    · obtain ⟨line, hline⟩ := h
      rw [landed_eq hline, lineMark, lineMark, hline]
      rfl
    · rw [landed_of_not_isMarked h]

/-- A token without a mark stays. -/
theorem landing_of_not_isMarked (h : ¬ t.IsMarked) : (landing lines).Rel t t :=
  (landed_of_not_isMarked h).symm

theorem only_same (ht : (only P).Rel t t') : same.Rel t t' := ht.1

end Token.Likeness

/-- Where the place that is like a place is given by a function, so is the fault. -/
theorem Fault.Matches.eq_mapPlace {L : Token.Likeness} {known : Prop} {g : Token → Token}
    (hg : ∀ {t t'}, L.Rel t t' → t' = g t) {f f' : Fault} (h : f.Matches L known f') :
    f' = f.mapPlace g ∨ ¬ known ∧ f = .overflow none ∧ ∃ place, f' = .overflow place := by
  cases h with
  | undefined h => exact .inl (congrArg Fault.undefined (hg h))
  | misuse h => exact .inl (congrArg (Fault.misuse · _) (hg h))
  | @overflow call call' h =>
      by_cases hknown : known ∨ call.isSome
      · refine .inl ?_
        cases h hknown with
        | none => rfl
        | some ht => exact congrArg (fun t => Fault.overflow (some t)) (hg ht)
      · obtain ⟨hk, hcall⟩ := not_or.mp hknown
        cases call with
        | some => exact absurd rfl hcall
        | none => exact .inr ⟨hk, rfl, call', rfl⟩
  | other h =>
      refine .inl ?_
      cases f with
      | undefined | misuse | overflow => cases h
      | _ => rfl

/-- The same for the ends of two runs, one of which may have gone well. -/
theorem Fault.Matches.eq_map {L : Token.Likeness} {known : Prop} {g : Token → Token}
    (hg : ∀ {t t'}, L.Rel t t' → t' = g t) {o o' : Option Fault}
    (h : Option.Rel (Fault.Matches L known) o o') :
    o' = o.map (mapPlace g) ∨
      ¬ known ∧ o = some (.overflow none) ∧ ∃ place, o' = some (.overflow place) := by
  cases h with
  | none => exact .inl rfl
  | some h =>
      obtain rfl | ⟨hknown, rfl, place, rfl⟩ := h.eq_mapPlace hg
      · exact .inl rfl
      · exact .inr ⟨hknown, rfl, place, rfl⟩

/-! ### Texts -/

/-- What is accepted is accepted in its likeness. -/
theorem Parsed.Matches.result {L : Token.Likeness} {r r' : Parsed} (h : r.Matches L r')
    {ss : List Node} (hr : r.result = .ok ss) :
    ∃ ss', r'.result = .ok ss' ∧ List.Forall₂ (Node.Matches L) ss ss' := by
  cases h with
  | accepted h n =>
      cases hr
      exact ⟨_, rfl, h⟩
  | rejected | offEnd => cases hr

/-- What is accepted in its likeness is accepted. -/
theorem Parsed.Matches.result_left {L : Token.Likeness} {r r' : Parsed} (h : r.Matches L r')
    {ss' : List Node} (hr : r'.result = .ok ss') :
    ∃ ss, r.result = .ok ss ∧ List.Forall₂ (Node.Matches L) ss ss' := by
  cases h with
  | accepted h n =>
      cases hr
      exact ⟨_, rfl, h⟩
  | rejected | offEnd => cases hr

/-- Two sequences, one behind the other, are one. -/
theorem Grammar.Sequence.append {α : Type} {Item : Phrase α} {ts us : List Token} {as bs : List α}
    (h : Sequence Item ts as) (h' : Sequence Item us bs) : Sequence Item (ts ++ us) (as ++ bs) := by
  induction h with
  | nil => exact h'
  | cons h _ ih =>
      rw [List.append_assoc]
      exact .cons h ih

namespace Program

/-- A text is a program if its tokens are. -/
theorem ofSource_eq_ok_iff {source : String} {p : List Node} :
    ofSource source = .ok p ↔ ∃ ts last, scan source = .ok (ts ++ [last]) ∧
      (∀ t ∈ ts, t.kind ≠ .eof) ∧ last.kind = .eof ∧ (parse (ts ++ [last])).result = .ok p := by
  rw [ofSource]
  constructor
  · intro h
    split at h
    · cases h
    · rename_i tokens htokens
      obtain ⟨ts, line, rfl, hts⟩ := scan_eq_ok htokens
      refine ⟨ts, Lexer.endToken line, htokens, fun t ht => (hts t ht).kind_ne, rfl, ?_⟩
      split at h
      · cases h
      · rename_i found hfound
        cases h
        exact hfound
  · rintro ⟨ts, last, hscan, -, -, hparse⟩
    rw [hscan]
    dsimp only
    rw [hparse]

/-- The tokens of a program have no marks. -/
theorem ofSource_matches {source : String} {p : List Node} (h : ofSource source = .ok p) :
    List.Forall₂ (Node.Matches (.only fun t => ¬ t.IsMarked)) p p := by
  obtain ⟨ts, last, hscan, -, -, hparse⟩ := ofSource_eq_ok_iff.mp h
  have hsame : List.Forall₂ (Token.Likeness.only fun t => ¬ t.IsMarked).Rel (ts ++ [last])
      (ts ++ [last]) := by
    refine List.forall₂_same.mpr fun t ht => ⟨rfl, ?_⟩
    obtain ⟨line, hline⟩ := scan_line hscan t ht
    exact Token.not_isMarked hline
  obtain ⟨p', hparse', hp⟩ :=
    (parseWithin_matches (.of_forall₂ hsame) (.refl _ nestingLimit)).result hparse
  rw [show (parseWithin nestingLimit _).result = _ from hparse] at hparse'
  cases hparse'
  exact hp

/-- The statements of a text, read from its tokens with marks on their lines. -/
def Marked (source : String) (p : List Node) : Prop :=
  ∃ tokens, scan source = .ok tokens ∧ (parse (tokens.map Token.marked)).result = .ok p

/-- **Programs one behind the other.**  The statements are those of both, those of the second with their
tokens further down, as marks on their lines tell. -/
theorem ofSource_append {a b : String} {p q : List Node} (ha : ofSource a = .ok p)
    (hb : ofSource b = .ok q) :
    ∃ q' m, ofSource (a ++ "\n" ++ b) = .ok (p ++ q') ∧ Marked b m ∧
      List.Forall₂ (Node.Matches .anyLine) q q' ∧
      List.Forall₂ (Node.Matches (.landing 0)) m q ∧
      List.Forall₂ (Node.Matches (.landing (1 + a.toList.count '\n'))) m q' := by
  obtain ⟨ts, last, hscan, hts, hlast, hparse⟩ := ofSource_eq_ok_iff.mp ha
  obtain ⟨us, last', hscan', hus, hlast', hparse'⟩ := ofSource_eq_ok_iff.mp hb
  have hwhole := scan_append hscan hscan'
  generalize 1 + a.toList.count '\n' = lines at hwhole
  -- the marked tokens of the second text become those of the text anywhere
  have hland : ∀ k, List.Forall₂ (Token.Likeness.landing k).Rel ((us ++ [last']).map Token.marked)
      ((us ++ [last']).map (·.down k)) := by
    intro k
    rw [List.forall₂_map_left_iff, List.forall₂_map_right_iff]
    refine List.forall₂_same.mpr fun t ht => ?_
    obtain ⟨line, hline⟩ := scan_line hscan' t ht
    exact (Token.landed_marked hline).symm
  have hzero : (us ++ [last']).map (·.down 0) = us ++ [last'] := by
    conv_rhs => rw [← List.map_id (us ++ [last'])]
    refine List.map_congr_left fun t ht => ?_
    obtain ⟨line, hline⟩ := scan_line hscan' t ht
    exact Token.down_zero hline
  have hread : ∀ k, (parseWithin nestingLimit ((us ++ [last']).map Token.marked)).Matches
      (.landing k) (parseWithin nestingLimit ((us ++ [last']).map (·.down k))) :=
    fun k => parseWithin_matches (.of_forall₂ (hland k)) (.refl _ nestingLimit)
  obtain ⟨m, hm, hq⟩ := (hread 0).result_left (by rw [hzero]; exact hparse')
  obtain ⟨q', hq', hqq'⟩ := (hread lines).result hm
  have hany : List.Forall₂ Token.Likeness.anyLine.Rel (us ++ [last'])
      ((us ++ [last']).map (·.down lines)) := by
    rw [List.forall₂_map_right_iff]
    refine List.forall₂_same.mpr fun t ht => ⟨rfl, rfl, rfl, ?_⟩
    obtain ⟨line, hline⟩ := scan_line hscan' t ht
    have hdown : (t.down lines).line = .int (line + lines) := by rw [Token.down, hline]
    rw [Token.isProper_lineMark hline, Token.isProper_lineMark hdown]
  obtain ⟨q'', hq₂, hqq''⟩ :=
    (parseWithin_matches (.of_forall₂ hany) (.refl _ nestingLimit)).result hparse'
  rw [hq'] at hq₂
  cases hq₂
  refine ⟨q', m, ?_, ⟨_, hscan', hm⟩, hqq'', hq, hqq'⟩
  have hus' : ∀ t ∈ us.map (·.down lines), t.kind ≠ .eof := by
    intro t ht
    obtain ⟨u, hu, rfl⟩ := List.mem_map.mp ht
    exact hus u hu
  have hend : (last'.down lines).kind = .eof := hlast'
  have hp := (parseWithin_eq_ok_iff hts hlast nestingLimit p).mp hparse
  rw [List.map_append] at hq'
  have hq'' := (parseWithin_eq_ok_iff hus' hend nestingLimit q').mp hq'
  have hboth : ∀ t ∈ ts ++ us.map (·.down lines), t.kind ≠ .eof :=
    fun t ht => (List.mem_append.mp ht).elim (hts t) (hus' t)
  refine ofSource_eq_ok_iff.mpr ⟨_, _, hwhole, hboth, hend, ?_⟩
  exact (parseWithin_eq_ok_iff hboth hend nestingLimit (p ++ q')).mpr (hp.append hq'')

end Program

/-! ### Statements -/

/-- Nothing is said of what a step gives. -/
theorem Run.Meets.trivial {α : Type} (p : Run α) :
    Meets (fun _ => True) (fun _ => True) (fun _ => True) p := by
  intro m _
  cases p m with
  | ok => exact .ok .intro .intro
  | stop => exact .stop .intro .intro

/-- The step gives no value to return. -/
abbrev Run.ReturnsNothing (p : Run (Option Value)) : Prop :=
  Meets (fun _ => True) (fun _ => True) (fun o => ∀ v, o = some v → False) p

/-- In a scope of its own, a step returns what it returns. -/
theorem Run.ReturnsNothing.inScope {p : Run (Option Value)} (hp : p.ReturnsNothing) (id : Nat) :
    (Run.inScope id p).ReturnsNothing := by
  intro m _
  have h := hp { m with current := id } .intro
  rw [Run.inScope]
  generalize p { m with current := id } = r at h
  cases h with
  | ok ho _ => exact .ok ho .intro
  | stop => exact .stop .intro .intro

/-- Outside functions no statement returns, and no block. -/
theorem returnsNothing {T : Token → Prop} (config : Config) (n : Nat) :
    (∀ s, IsStatement T false s → (execute config n s).ReturnsNothing) ∧
      ∀ id ss, (∀ s ∈ ss, IsStatement T false s) → (block config n id ss).ReturnsNothing := by
  induction n with
  | zero => exact ⟨fun _ _ => Run.Meets.exhausted .intro, fun _ _ _ => Run.Meets.exhausted .intro⟩
  | succ n ih =>
      refine ⟨fun s hs => ?_, fun id ss hss => ?_⟩
      · have hnone : Run.ReturnsNothing (pure none) := Run.Meets.pure fun _ hv => nomatch hv
        cases hs with
        | expression =>
            rw [execute_expression]
            exact (Run.Meets.trivial _).bind fun _ _ => hnone
        | print =>
            rw [execute_print]
            exact (Run.Meets.trivial _).bind fun _ _ => (Run.Meets.trivial _).bind fun _ _ => hnone
        | declare | declareValue =>
            rw [execute_declare]
            exact (Run.Meets.trivial _).bind fun _ _ => (Run.Meets.trivial _).bind fun _ _ =>
              (Run.Meets.trivial _).bind fun _ _ => hnone
        | function =>
            rw [execute_function]
            exact (Run.Meets.trivial _).bind fun _ _ => (Run.Meets.trivial _).bind fun _ _ =>
              (Run.Meets.trivial _).bind fun _ _ => hnone
        | block hss =>
            rw [execute_block]
            exact (Run.Meets.trivial _).bind fun _ _ => (Run.Meets.trivial _).bind fun id _ =>
              ih.2 id _ hss
        | branch _ hs =>
            rw [execute_branch]
            refine (Run.Meets.trivial _).bind fun _ _ => (Run.Meets.trivial _).bind fun _ _ => ?_
            split
            · exact ih.1 _ hs
            · exact hnone
        | branchElse _ hs hs' =>
            rw [execute_branch, executeOptional_of_ne _ _ hs'.ne_null]
            refine (Run.Meets.trivial _).bind fun _ _ => (Run.Meets.trivial _).bind fun _ _ => ?_
            split
            · exact ih.1 _ hs
            · exact ih.1 _ hs'
        | loop _ hs =>
            rw [execute_loop]
            exact Run.Meets.whileTrue .intro (Run.Meets.trivial _) (ih.1 _ hs)
      · -- the statements of a block
        exact Run.ReturnsNothing.inScope (Run.Meets.firstOf fun s hs => ih.1 s (hss s hs)) id

/-- Two lists of statements are run one behind the other. -/
theorem Run.firstOf_append {α β : Type} (f : β → Run (Option α)) (bs cs : List β) (m : Machine) :
    firstOf f (bs ++ cs) m = match firstOf f bs m with
      | .ok none m' => firstOf f cs m'
      | r => r := by
  induction bs generalizing m with
  | nil => rfl
  | cons b bs ih =>
      rw [List.cons_append, firstOf, firstOf]
      cases f b m with
      | stop why m' => rfl
      | ok o m' =>
          cases o with
          | none => exact ih m'
          | some a => rfl

/-! ### Runs -/

theorem Machine.Matches.mono {L L' : Token.Likeness} (hL : ∀ {t t'}, L.Rel t t' → L'.Rel t t')
    {known : Prop} {m m' : Machine} (hm : m.Matches L known m') : m.Matches L' known m' := by
  refine ⟨hm.heap.mono hL, hm.current, hm.depth, fun h => ?_, hm.hostCalls, hm.output⟩
  have hcall := hm.lastCall h
  generalize m.lastCall = call, m'.lastCall = call' at hcall
  cases hcall with
  | none => exact .none
  | some ht => exact .some (hL ht)

/-- At the same tokens, faults are the same. -/
theorem Fault.Matches.eq_of_only {P : Token → Prop} {f f' : Fault} (h : f.Matches (.only P) True f') :
    f = f' := by
  cases h with
  | undefined h => exact congrArg Fault.undefined h.1
  | misuse h => exact congrArg (Fault.misuse · _) h.1
  | overflow h =>
      cases h (.inl trivial) with
      | none => rfl
      | some hcall => exact congrArg (fun t => Fault.overflow (some t)) hcall.1
  | other => rfl

section Append

variable {config : Config} {frames : Nat} {P : Token → Prop} {L : Token.Likeness} {m : Machine}
  {p q q' : List Node}

/-- **A run of both lists of statements goes through the end of a run of the first.**  If that run ends
with a fault, so does the whole; otherwise a run of the second list from there ends like the whole. -/
theorem interpret_append (hh : config.host.IgnoresLines P) (hm : m.Matches (.only P) True m)
    (hp : List.Forall₂ (Node.Matches (.only P)) p p)
    (hnone : Run.ReturnsNothing (Run.firstOf (execute config frames) p))
    (hP : ∀ t, P t → L.Rel t t) (hq : List.Forall₂ (Node.Matches L) q q') :
    (∀ f, (interpret config frames p m).1 = some f →
      (interpret config frames (p ++ q') m).1 = some f ∧
      (interpret config frames p m).2.Matches (.only P) True
        (interpret config frames (p ++ q') m).2) ∧
    ((interpret config frames p m).1 = none →
      Option.Rel (Fault.Matches L False)
        (interpret config frames q (interpret config frames p m).2).1
        (interpret config frames (p ++ q') m).1 ∧
      (interpret config frames q (interpret config frames p m).2).2.Matches L True
        (interpret config frames (p ++ q') m).2) := by
  obtain ⟨trace, hfirst⟩ := interpret_eq config frames p m
  obtain ⟨trace', hwhole⟩ := interpret_eq config frames (p ++ q') m
  have honly : config.host.Respects (.only P) := hh (.only P) fun t ht => ⟨rfl, ht⟩
  have hrun := Run.Matches.firstOf hp (fun _ _ => (matching honly True frames).execute)
    _ _ (hm.told trace trace')
  have hreturn := hnone { m with trace := trace } .intro
  rw [hfirst, hwhole, Run.firstOf_append]
  generalize Run.firstOf (execute config frames) p { m with trace := trace } = r,
    Run.firstOf (execute config frames) p { m with trace := trace' } = r' at hrun hreturn
  cases hrun with
  | @stop why why' m₁ m₁' hw hm₁ =>
      obtain ⟨hf, hm₂⟩ := settle_matches config (.some hw) hm₁
      refine ⟨fun f hfirst => ⟨?_, hm₂⟩, fun hfirst => ?_⟩
      · rw [show (settle config (some why) m₁).1 = some f from hfirst] at hf
        show (settle config (some why') m₁').1 = some f
        generalize (settle config (some why') m₁').1 = o at hf
        cases hf with
        | some hf => exact congrArg some hf.eq_of_only.symm
      · have hnot : (settle config (some why) m₁).1 = none := hfirst
        rw [settle_eq, Option.map_eq_none_iff, finalReason_eq_none] at hnot
        cases hnot
  | @ok o o' m₁ m₁' ho hm₁ =>
      have hgiven : (settle config none m₁).1 = none := by
        rw [settle_eq]
        rfl
      refine ⟨fun f hfirst => ?_, fun _ => ?_⟩
      · rw [show (settle config none m₁).1 = some f from hfirst] at hgiven
        cases hgiven
      cases ho with
      | some =>
          cases hreturn with
          | ok hv _ => exact (hv _ rfl).elim
      | none =>
          -- the latest call is forgotten between the two programs, and known again from the next on
          have hsettled : Machine.Matches L False (settle config none m₁).2 m₁' := by
            rw [settle_eq]
            exact { hm₁.mono (fun {t t'} ht => by obtain ⟨rfl, ht⟩ := ht; exact hP t ht) with
              lastCall := fun h => (h.elim id nofun).elim }
          obtain ⟨trace'', hsecond⟩ := interpret_eq config frames q (settle config none m₁).2
          have hrest := Run.Matches.firstOf hq
            (fun _ _ => (matching (hh L hP) False frames).execute)
            _ _ (hsettled.told trace'' m₁'.trace)
          show Option.Rel _ (interpret config frames q (settle config none m₁).2).1 _ ∧
            Machine.Matches L True (interpret config frames q (settle config none m₁).2).2 _
          rw [hsecond]
          exact hrest.endOf config

end Append

/-! ### Sessions -/

namespace Session

/-- All tokens that a session holds, in the bodies of its functions and as its latest call, are in a
set. -/
def Holds (s : Session) (P : Token → Prop) : Prop := s.machine.Matches (.only P) True s.machine

/-- A new session holds no tokens. -/
theorem start_holds {P : Token → Prop} (settings : Settings) (natives : List (Text × Native)) :
    (start settings natives).Holds P := by
  have hbind : ∀ (s : Session) name (native : Native), s.Holds P → (s.bindNative name native).Holds P :=
    fun s name native hs => hs.define rfl (.text name) (.plain rfl)
  have hfresh : freshMachine.Matches (.only P) True freshMachine := by
    refine ⟨Heap.Matches.push ⟨rfl, fun i => ?_⟩ none, rfl, rfl, fun _ => .none, rfl, rfl⟩
    exact .none
  rw [start]
  exact List.foldlRecOn (motive := fun s : Session => s.Holds P) natives _
    (hbind _ "clock" Native.clock hfresh) fun s hs n _ => hbind s n.1 n.2 hs

/-- Two ends of a program, run apart or so many lines further down, as told by the end of the run of
the marked program. -/
structure SameEnd (lines : Nat) (traced apart whole : Option Fault × Session) : Prop where
  fault_apart : apart.1 = traced.1.map (Fault.mapPlace (Token.landed 0))
  /-- An overflow without a place means that the frames were used up before there was a call; only then
  the whole may name a call of the statements in front. -/
  fault_whole : whole.1 = traced.1.map (Fault.mapPlace (Token.landed lines)) ∨
    apart.1 = some (.overflow none) ∧ ∃ place, whole.1 = some (.overflow place)
  output : apart.2.outputText = whole.2.outputText
  globals : apart.2.SameGlobals .anyLine whole.2
  bodies_apart : traced.2.SameGlobals (.landing 0) apart.2
  bodies_whole : traced.2.SameGlobals (.landing lines) whole.2

/-- **Running a program in pieces is running it whole.**  If two texts are programs, so is the first
with a line break and the second behind it.  In any session whose functions have no marked tokens and
whose natives do not look at lines,

* if the first text ends with a fault, the whole ends with the same fault, output and globals;
* if it ends without one, running the second text then gives the same output and globals as the whole,
  and the same fault or none.  Both are told by one run of the second text with marked tokens: a fault at
  a token of the second text, which is a marked one, is found so many lines further down as the first
  text has, and one at a token of the first text, or of a function that was there before, on the same
  line. -/
theorem interpret_piecewise {a b : String} {p q : List Node} (ha : Program.ofSource a = .ok p)
    (hb : Program.ofSource b = .ok q) :
    ∃ r m, Program.ofSource (a ++ "\n" ++ b) = .ok r ∧ Program.Marked b m ∧ ∀ s : Session,
      s.Holds (fun t => ¬ t.IsMarked) → s.settings.host.IgnoresLines (fun t => ¬ t.IsMarked) →
      (∀ f, (s.interpret p).1 = some f →
        (s.interpret r).1 = some f ∧
        (s.interpret p).2.outputText = (s.interpret r).2.outputText ∧
        (s.interpret p).2.SameGlobals .same (s.interpret r).2) ∧
      ((s.interpret p).1 = none →
        SameEnd (1 + a.toList.count '\n') ((s.interpret p).2.interpret m)
          ((s.interpret p).2.interpret q) (s.interpret r)) := by
  obtain ⟨q', marked, hr, hmarked, hany, hq, hq'⟩ := Program.ofSource_append ha hb
  generalize 1 + a.toList.count '\n' = lines at hq'
  refine ⟨p ++ q', marked, hr, hmarked, fun s hs hh => ?_⟩
  have hp := Program.ofSource_matches ha
  have hstatements := Program.ofSource_eq_ok (fun t ht => ⟨_, ht⟩) (fun t ht => ht) ha
  have hnone : Run.ReturnsNothing
      (Run.firstOf (execute s.config (framesFor s.settings.maxDepth)) p) :=
    Run.Meets.firstOf fun st hst => (returnsNothing _ _).1 st (hstatements st hst)
  -- what is left of the first piece holds no marked token
  have hland : ∀ lines t, ¬ Token.IsMarked t → (Token.Likeness.landing lines).Rel t t :=
    fun _ _ => Token.Likeness.landing_of_not_isMarked
  have hhost : s.config.host.IgnoresLines fun t => ¬ t.IsMarked := hh
  have happend := fun {L : Token.Likeness} {q q' : List Node}
      (hP : ∀ t, ¬ Token.IsMarked t → L.Rel t t) (hq : List.Forall₂ (Node.Matches L) q q') =>
    interpret_append hhost hs hp hnone hP hq
  refine ⟨fun f hf => ?_, fun hf => ?_⟩
  · obtain ⟨hf', hm'⟩ := (happend (hland lines) hq').1 f hf
    refine ⟨hf', outputText_of_matches hm', ?_⟩
    exact sameGlobals_of_matches (hm'.mono Token.Likeness.only_same)
  · have hm : (s.interpret p).2.Holds fun t => ¬ t.IsMarked :=
      (interpret_matches (hh (.only _) fun t ht => ⟨rfl, ht⟩) hs hp).2
    -- the marked second piece, against the piece by itself and behind the first
    obtain ⟨hapart, hmapart⟩ := interpret_matches (s := (s.interpret p).2)
      (hh _ (hland 0)) (hm.mono fun {t t'} ht => by obtain ⟨rfl, ht⟩ := ht; exact hland 0 t ht) hq
    obtain ⟨hwhole, hmwhole⟩ := (happend (hland lines) hq').2 hf
    obtain ⟨-, hmany⟩ := (happend (L := .anyLine) (fun _ _ => ⟨rfl, rfl, rfl, rfl⟩) hany).2 hf
    have hfault : ((s.interpret p).2.interpret q).1 = _ :=
      (Fault.Matches.eq_map id hapart).resolve_right fun h => h.1 trivial
    refine ⟨hfault, ?_, outputText_of_matches hmany, sameGlobals_of_matches hmany,
      sameGlobals_of_matches hmapart, sameGlobals_of_matches hmwhole⟩
    -- an overflow without a place is the one fault that the two may name differently
    refine (Fault.Matches.eq_map id hwhole).imp_right fun ⟨_, htraced, hplace⟩ => ⟨?_, hplace⟩
    rw [hfault, show ((s.interpret p).2.interpret marked).1 = _ from htraced]
    rfl

/-- `print nil; -nil;` behind `fun f() { -nil; }`, which holds the same token on the same line: the fault
is found at the token of the second text, one line further down in the whole. -/
theorem interpret_piecewise_moved :
    let minus line := Token.ofText .minus "-" .null line
    let s := start {} []
    ∃ p q r, Program.ofSource "fun f() \x7b -nil; \x7d" = .ok p ∧
      Program.ofSource "print nil; -nil;" = .ok q ∧
      Program.ofSource ("fun f() \x7b -nil; \x7d" ++ "\n" ++ "print nil; -nil;") = .ok r ∧
      (s.interpret p).1 = none ∧
      ((s.interpret p).2.interpret q).1 = some (.misuse (minus 1) (.operand "nil")) ∧
      (s.interpret r).1 = some (.misuse (minus 2) (.operand "nil")) ∧
      (s.interpret r).2.outputText = "nil\n" := by
  intro minus s
  let word kind text line := Token.ofText kind text .null line
  let name := Token.ofText .identifier "f" (.word "f") 1
  have hp : Program.ofSource "fun f() \x7b -nil; \x7d" =
      .ok [.function name [] [.expression (.unary (minus 1) (.literal .nil))]] := by
    have ht : scan "fun f() \x7b -nil; \x7d" = .ok [word .funWord "fun" 1, name,
      word .leftParen "(" 1, word .rightParen ")" 1, word .leftBrace "\x7b" 1, minus 1,
      word .nilWord "nil" 1, word .semicolon ";" 1, word .rightBrace "\x7d" 1, word .eof "" 1] := rfl
    rw [Program.ofSource, ht]
    rfl
  have htokens : scan "print nil; -nil;" = .ok [word .printWord "print" 1, word .nilWord "nil" 1,
    word .semicolon ";" 1, minus 1, word .nilWord "nil" 1, word .semicolon ";" 1,
    word .eof "" 1] := rfl
  have hq : Program.ofSource "print nil; -nil;" = .ok [.print (.literal .nil),
      .expression (.unary (minus 1) (.literal .nil))] := by
    rw [Program.ofSource, htokens]
    rfl
  obtain ⟨r, m, hr, ⟨tokens, hscan, hm⟩, hruns⟩ := interpret_piecewise hp hq
  have hmarked : m = [.print (.literal .nil),
      .expression (.unary (minus 1).marked (.literal .nil))] := by
    rw [htokens] at hscan
    cases hscan
    exact (Except.ok.inj hm).symm
  subst hmarked
  have hclock := Host.ofClock_ignoresLines (fun _ => ⟨0⟩) (fun t => ¬ t.IsMarked)
  have hsame := (hruns s (start_holds {} []) hclock).2 rfl
  refine ⟨_, _, r, hp, hq, hr, rfl, hsame.fault_apart, ?_, ?_⟩
  · refine hsame.fault_whole.resolve_right fun h => ?_
    have hplace := h.1
    rw [hsame.fault_apart] at hplace
    cases hplace
  · rw [← hsame.output]
    rfl

/-- Not every fault of the second text is found further down: `f();` behind `fun f() { -nil; }`
fails at the same token either way. -/
theorem interpret_not_all_moved :
    ¬ ∀ (a b : String) (p q r : List Node), Program.ofSource a = .ok p → Program.ofSource b = .ok q →
      Program.ofSource (a ++ "\n" ++ b) = .ok r → ((start {} []).interpret p).1 = none →
      ∀ t cause, (((start {} []).interpret p).2.interpret q).1 = some (.misuse t cause) →
        ((start {} []).interpret r).1 =
          some (.misuse (t.down (1 + a.toList.count '\n')) cause) := by
  intro hall
  let word kind text line := Token.ofText kind text .null line
  let name line := Token.ofText .identifier "f" (.word "f") line
  let declared := Node.function (name 1) [] [.expression (.unary (word .minus "-" 1) (.literal .nil))]
  have hp : Program.ofSource "fun f() \x7b -nil; \x7d" = .ok [declared] := by
    have ht : scan "fun f() \x7b -nil; \x7d" = .ok [word .funWord "fun" 1, name 1,
      word .leftParen "(" 1, word .rightParen ")" 1, word .leftBrace "\x7b" 1, word .minus "-" 1,
      word .nilWord "nil" 1, word .semicolon ";" 1, word .rightBrace "\x7d" 1, word .eof "" 1] := rfl
    rw [Program.ofSource, ht]
    rfl
  have hq : Program.ofSource "f();" =
      .ok [.expression (.call (.reference (name 1)) (word .rightParen ")" 1) [])] := by
    have ht : scan "f();" = .ok [name 1, word .leftParen "(" 1, word .rightParen ")" 1,
      word .semicolon ";" 1, word .eof "" 1] := rfl
    rw [Program.ofSource, ht]
    rfl
  have hr : Program.ofSource ("fun f() \x7b -nil; \x7d" ++ "\n" ++ "f();") =
      .ok [declared, .expression (.call (.reference (name 2)) (word .rightParen ")" 2) [])] := by
    have ht : scan ("fun f() \x7b -nil; \x7d" ++ "\n" ++ "f();") = .ok [word .funWord "fun" 1, name 1,
      word .leftParen "(" 1, word .rightParen ")" 1, word .leftBrace "\x7b" 1, word .minus "-" 1,
      word .nilWord "nil" 1, word .semicolon ";" 1, word .rightBrace "\x7d" 1, name 2,
      word .leftParen "(" 2, word .rightParen ")" 2, word .semicolon ";" 2, word .eof "" 2] := rfl
    rw [Program.ofSource, ht]
    rfl
  have hfault := hall _ _ _ _ _ hp hq hr rfl (word .minus "-" 1) (.operand "nil") rfl
  exact absurd hfault (by decide)

end Session

end Lox
