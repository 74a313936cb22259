import Lox.Proofs.Parser.Lockstep

/-!
# Reading comes to an end

Every list of tokens is read to its end, well formed or not.  A declaration that is begun takes a token,
whatever comes of it (`declaration_leads`), so the loops over declarations come to the first token for
the end, and nothing behind it is ever looked at.  A list without such a token is left at its end.

A run is compared with itself here: lockstep under equality says where one run goes.
-/

namespace Lox

namespace Parser

variable {α : Type} {s s' : State}

/-- The state in which a step ends. -/
def Outcome.state : Outcome α → State
  | .done _ s => s
  | .stop _ s => s

theorem Ahead.same (ts : List Token) : Ahead .same ts ts :=
  .of_forall₂ (List.forall₂_same.mpr fun _ _ => rfl)

/-- What stands behind a token for the end is not ahead. -/
theorem Ahead.same_append (us : List Token) {e : Token} (he : e.kind = .eof)
    (rest rest' : List Token) : Ahead .same (us ++ e :: rest) (us ++ e :: rest') := by
  induction us with
  | nil => exact .ended rfl he rest rest'
  | cons u us ih => exact .cons rfl ih

theorem State.Matches.same (s : State) : s.Matches .same s :=
  ⟨.same s.rest, rfl, List.forall₂_same.mpr fun _ _ => ⟨rfl, rfl, rfl⟩⟩

theorem Outcome.Matches.leads {L : Token.Likeness} {deep : Prop} {k : Nat} {V : α → α → Prop}
    {r r' : Outcome α} (h : r.Matches L deep k V s s' r') : s.Leads deep 0 r.state := by
  cases h with
  | done _ _ hl _ => exact hl.mono (Nat.zero_le k)
  | refused _ _ _ hl _ | tooDeep _ _ hl _ | offEnd _ _ hl _ => exact hl

/-- A budget that is equal to itself, which may be used up. -/
theorem Budgets.refl (needed d : Nat) : Budgets True needed d d := .inl ⟨trivial, rfl⟩

/-! ### Where a run goes -/

/-- A step that matches itself takes tokens from the front and only adds diagnostics. -/
theorem Matches.leads {k : Nat} {V : α → α → Prop} {p : Parser α}
    (h : ∀ b, Matches .same True b k V p p) (s : State) : s.Leads True 0 (p s).state :=
  (h s.rest.length s s (.same s) (Nat.le_refl _)).leads

/-- No step goes back: expressions, statements and programs take tokens from the front, none of them
for the end, and only add diagnostics. -/
theorem steps_lead (inFunction : Bool) (depth : Nat) (s : State) :
    s.Leads True 0 (unary depth s).state ∧ s.Leads True 0 (assignment depth s).state ∧
      s.Leads True 0 (statement inFunction depth s).state ∧
      s.Leads True 0 (program depth s).state :=
  ⟨Matches.leads (fun b => (assignment_unary_matches depth depth).2 b (.refl _ _)) s,
    Matches.leads (fun _ => assignment_matches (.refl _ _)) s,
    Matches.leads (fun b =>
      (statement_attempt_matches depth depth).1 b inFunction (.refl _ _)) s,
    Matches.leads (fun _ => program_matches (.refl _ _)) s⟩

/-- A declaration that is begun takes a token, whatever comes of it. -/
theorem declaration_leads (inFunction : Bool) (depth : Nat) (hg : s.GoesOn) :
    s.Leads True 1 (declaration inFunction depth s).state := by
  have h := declaration_matches (L := .same) inFunction (.refl (2 * s.rest.length + 3) depth) s s
    (.same s) (Nat.le_refl _) hg
  generalize hr : declaration inFunction depth s = r at h
  cases h with
  | done _ _ hl _ => exact hl
  | refused | tooDeep => cases declaration_finishes inFunction depth hr
  | offEnd hnil _ hl _ =>
      refine (hl.goesOn_or_takes hg).resolve_left fun ⟨t, rest, h, _⟩ => ?_
      rw [hnil] at h
      cases h

/-- Where a declaration is given up, there is a token to go on with, or one has been taken. -/
theorem attempt_stops {inFunction : Bool} {depth : Nat} {why : Stop} {s₁ : State} (hg : s.GoesOn)
    (h : attempt inFunction depth s = .stop why s₁) : s₁.GoesOn ∨ s.position < s₁.position := by
  have hl := Matches.leads (fun b =>
    (statement_attempt_matches depth depth).2 b inFunction (.refl _ _)) s
  rw [h] at hl
  refine (hl.goesOn_or_takes hg).imp_right fun ⟨⟨ts, _, hpos, hk, _⟩, _⟩ => ?_
  rw [Outcome.state] at hpos
  omega

/-- The loops over items look at an item only where there is a token to go on with. -/
theorem itemsUntil_congr {isLast : Token → Bool} (hl : ∀ t : Token, t.kind = .eof → isLast t = true)
    {item item' : Parser (Option α)} (h : ∀ s : State, s.GoesOn → item s = item' s) :
    itemsUntil isLast item = itemsUntil isLast item' := by
  have hloop : ∀ bound found s,
      itemsFrom isLast item bound found s = itemsFrom isLast item' bound found s := by
    intro bound
    induction bound with
    | nil => exact fun _ _ => rfl
    | cons b bound ih =>
        intro found s
        obtain ⟨_ | ⟨t, rest⟩, n, ds⟩ := s
        · rfl
        · simp only [itemsFrom]
          cases hlast : isLast t with
          | true => rfl
          | false =>
              have ht : t.kind ≠ .eof := fun he => by rw [hl t he] at hlast; cases hlast
              rw [h ⟨t :: rest, n, ds⟩ ⟨t, rest, rfl, ht⟩]
              simp only [ih]
  funext s
  exact hloop _ _ s

/-! ### How a program ends -/

/-- A program is read up to a token for the end, or to the end of the tokens. -/
theorem program_cases (depth : Nat) (s : State) :
    (∃ ss s₁ e rest, program depth s = .done ss s₁ ∧ s₁.rest = e :: rest ∧ e.kind = .eof) ∨
    ∃ s₁, program depth s = .stop .offEnd s₁ ∧ s₁.rest = [] := by
  have hm := program_matches (L := .same) (.refl (2 * s.rest.length + 3) depth) s s (.same s)
    (Nat.le_refl _)
  generalize hr : program depth s = r at hm
  cases hm with
  | @done ss _ s₁ _ _ _ _ _ =>
      obtain ⟨e, rest, hrest, he⟩ := itemsFrom_last hr
      exact .inl ⟨ss, s₁, e, rest, rfl, hrest, by simpa using he⟩
  | refused | tooDeep => cases program_finishes depth hr
  | @offEnd s₁ _ hnil _ _ _ => exact .inr ⟨s₁, rfl, hnil⟩

/-- With a budget that the tokens cannot use up, no diagnostic is about the nesting. -/
theorem program_shallow {depth : Nat} (h : 2 * s.rest.length + 3 < depth) {d : Diagnostic}
    (hd : d ∈ (program depth s).state.diagnostics) (hc : d.cause = .nestingTooDeep) :
    d ∈ s.diagnostics := by
  have hb : Budgets False (2 * s.rest.length + 3) depth depth := .inr ⟨h, h⟩
  have hl := (program_matches (L := .same) hb s s (.same s) (Nat.le_refl _)).leads
  obtain ⟨-, ds, hds, hdeep⟩ := hl
  rw [hds, List.mem_append] at hd
  exact hd.resolve_right fun hd => hdeep d hd hc

end Parser

open Lox.Parser

/-- Under equality, results that match are equal. -/
theorem Parsed.Matches.eq_of_same {p p' : Parsed} (h : p.Matches .same p') : p = p' := by
  cases h with
  | accepted h n => rw [Node.Matches.eq_all_of_same h]
  | rejected h n =>
      have hds := (congrFun₂ List.forall₂_eq_eq_eq _ _).mp
        (h.imp fun d d' hd => show d = d' from by
          obtain ⟨cause, token, position⟩ := d
          obtain ⟨rfl, rfl, rfl⟩ := hd
          rfl)
      rw [hds]
  | offEnd n => rfl

/-- A program that was read to its end is accepted or rejected, by what was noted. -/
theorem parseWithin_of_program {depth : Nat} {tokens : List Token} {ss : List Node} {s : State}
    (h : program depth ⟨tokens, 0, []⟩ = .done ss s) :
    (parseWithin depth tokens).position = s.position ∧
      (parseWithin depth tokens).diagnostics = s.diagnostics ∧
      ((∃ ss, (parseWithin depth tokens).result = .ok ss) ∨
        ∃ d ds, (parseWithin depth tokens).result = .error (.rejected (d :: ds))) := by
  obtain ⟨rest, n, ds⟩ := s
  rw [parseWithin, h]
  cases ds with
  | nil => exact ⟨rfl, rfl, .inl ⟨ss, rfl⟩⟩
  | cons d ds => exact ⟨rfl, rfl, .inr ⟨d, ds, rfl⟩⟩

/-- All diagnostics of a list were noted while it was read. -/
theorem mem_diagnostics_program {depth : Nat} {tokens : List Token} {d : Diagnostic}
    (hd : d ∈ (parseWithin depth tokens).diagnostics) :
    d ∈ (program depth ⟨tokens, 0, []⟩).state.diagnostics := by
  obtain ⟨ss, s₁, e, rest, h, -, -⟩ | ⟨s₁, h, -⟩ := program_cases depth ⟨tokens, 0, []⟩
  · rw [(parseWithin_of_program h).2.1] at hd
    rwa [h]
  · rw [parseWithin, h] at hd
    cases hd

variable {us : List Token}

/-- A list has one first token for the end. -/
theorem divide_at_end {ts rest rest' : List Token} {e e' : Token} (hus : ∀ t ∈ us, t.kind ≠ .eof)
    (he : e.kind = .eof) (hts : ∀ t ∈ ts, t.kind ≠ .eof) (he' : e'.kind = .eof)
    (h : us ++ e :: rest = ts ++ e' :: rest') : us = ts := by
  induction us generalizing ts with
  | nil =>
      cases ts with
      | nil => rfl
      | cons t ts =>
          cases h
          exact absurd he (hts _ List.mem_cons_self)
  | cons u us ih =>
      cases ts with
      | nil =>
          cases h
          exact absurd he' (hus _ List.mem_cons_self)
      | cons t ts =>
          obtain ⟨rfl, h'⟩ := List.cons.inj h
          rw [ih (fun t ht => hus t (List.mem_cons_of_mem _ ht))
            (fun t ht => hts t (List.mem_cons_of_mem _ ht)) h']

/-- A list with a token for the end is accepted, or something is reported, and the tokens in front of the
first such token are taken. -/
theorem parseWithin_ended (depth : Nat) (hus : ∀ t ∈ us, t.kind ≠ .eof) {e : Token} (he : e.kind = .eof)
    (rest : List Token) :
    (parseWithin depth (us ++ e :: rest)).position = us.length ∧
      ((∃ ss, (parseWithin depth (us ++ e :: rest)).result = .ok ss) ∨
        ∃ d ds, (parseWithin depth (us ++ e :: rest)).result = .error (.rejected (d :: ds))) := by
  obtain ⟨⟨ts, hts, hpos, -, hend⟩, -⟩ := (steps_lead false depth ⟨us ++ e :: rest, 0, []⟩).2.2.2
  obtain ⟨ss, s₁, e', rest', h, hrest, he'⟩ | ⟨s₁, h, hnil⟩ :=
    program_cases depth ⟨us ++ e :: rest, 0, []⟩
  · rw [h, Outcome.state] at hts hpos
    obtain ⟨hp, -, hres⟩ := parseWithin_of_program h
    rw [hrest] at hts
    rw [hp, hpos, ← divide_at_end hus he hend he' hts, Nat.zero_add]
    exact ⟨rfl, hres⟩
  · rw [h, Outcome.state, hnil, List.append_nil] at hts
    exact absurd he (hend e (hts ▸ List.mem_append_right us List.mem_cons_self))

/-- A list without a token for the end is left at its end. -/
theorem parseWithin_not_ended (depth : Nat) (hus : ∀ t ∈ us, t.kind ≠ .eof) :
    parseWithin depth us = ⟨.error .offEnd, us.length⟩ := by
  obtain ⟨⟨ts, hts, hpos, -, -⟩, -⟩ := (steps_lead false depth ⟨us, 0, []⟩).2.2.2
  obtain ⟨ss, s₁, e, rest, h, hrest, he⟩ | ⟨s₁, h, hnil⟩ := program_cases depth ⟨us, 0, []⟩
  · rw [h, Outcome.state, hrest] at hts
    refine absurd he (hus e ?_)
    rw [show us = ts ++ e :: rest from hts]
    exact List.mem_append_right ts List.mem_cons_self
  · rw [h, Outcome.state] at hts hpos
    rw [hnil, List.append_nil] at hts
    rw [parseWithin, h]
    show Parsed.mk _ s₁.position = _
    rw [hpos, ← show us = ts from hts, Nat.zero_add]

/-- **Reading comes to an end on every list of tokens.**  With any nesting budget,

* a list with a token for the end is accepted, or something is reported, the tokens in front of the first
  such token are taken, and what stands behind it does not matter;
* a list without one is left at its end;
* no step goes back, and every declaration that is begun takes a token.  Blocks and programs begin one only
  where there is a token to go on with, and one that is given up has taken a token or still can.

That reading ends is not owed to the budget: one that is larger than the tokens can use up does not
show. -/
theorem parseWithin_reaches_end (depth : Nat) (tokens : List Token) :
    (∀ us e rest, tokens = us ++ e :: rest → (∀ t ∈ us, t.kind ≠ .eof) → e.kind = .eof →
      (parseWithin depth tokens).position = us.length ∧
      ((∃ ss, (parseWithin depth tokens).result = .ok ss) ∨
        ∃ d ds, (parseWithin depth tokens).result = .error (.rejected (d :: ds))) ∧
      ∀ rest', parseWithin depth (us ++ e :: rest') = parseWithin depth tokens) ∧
    ((∀ t ∈ tokens, t.kind ≠ .eof) →
      parseWithin depth tokens = ⟨.error .offEnd, tokens.length⟩) ∧
    (∀ inFunction (s : State), s.Leads True 0 (unary depth s).state ∧
      s.Leads True 0 (assignment depth s).state ∧
      s.Leads True 0 (statement inFunction depth s).state ∧
      s.Leads True 0 (program depth s).state ∧
      (s.GoesOn → s.Leads True 1 (declaration inFunction depth s).state ∧
        ∀ why s₁, attempt inFunction depth s = .stop why s₁ →
          s₁.GoesOn ∨ s.position < s₁.position)) ∧
    (∀ inFunction item, (∀ s : State, s.GoesOn → item s = declaration inFunction depth s) →
      blockOf item = blockOf (declaration inFunction depth) ∧
      (inFunction = false → itemsUntil (fun t => t.kind = .eof) item = program depth)) ∧
    (2 * tokens.length + 3 < depth →
      (∀ d ∈ (parseWithin depth tokens).diagnostics, d.cause ≠ .nestingTooDeep) ∧
      ∀ depth' > 2 * tokens.length + 3, parseWithin depth' tokens = parseWithin depth tokens) := by
  refine ⟨?_, parseWithin_not_ended depth, ?_, ?_, ?_⟩
  · rintro us e rest rfl hus he
    obtain ⟨hpos, hres⟩ := parseWithin_ended depth hus he rest
    refine ⟨hpos, hres, fun rest' => ?_⟩
    exact (parseWithin_matches (Ahead.same_append us he rest' rest) (.refl _ _)).eq_of_same
  · intro inFunction s
    obtain ⟨hunary, hassignment, hstatement, hprogram⟩ := steps_lead inFunction depth s
    exact ⟨hunary, hassignment, hstatement, hprogram, fun hg =>
      ⟨declaration_leads inFunction depth hg, fun _ _ h => attempt_stops hg h⟩⟩
  · intro inFunction item h
    refine ⟨?_, ?_⟩
    · rw [blockOf, blockOf, itemsUntil_congr (fun t ht => by simp [ht]) h]
    · rintro rfl
      exact itemsUntil_congr (fun t ht => by simp [ht]) h
  · intro h
    refine ⟨fun d hd hc => ?_, fun depth' h' => ?_⟩
    · exact absurd (program_shallow h (mem_diagnostics_program hd) hc) List.not_mem_nil
    · -- neither limit is reached, so both runs are the same
      have hb : Budgets False (2 * tokens.length + 3) depth' depth := .inr ⟨h', h⟩
      exact (parseWithin_matches (.same tokens) hb).eq_of_same

/-- `x y` is given up at the end, whatever follows it, and is left at the end where there is none. -/
theorem parseWithin_reaches_end_broken :
    let token kind text := Token.ofText kind text .null 1
    let us := [token .identifier "x", token .identifier "y"]
    let eof := token .eof ""
    (∀ t ∈ us, t.kind ≠ .eof) ∧ eof.kind = .eof ∧ (parse (us ++ [eof])).position = 2 ∧
      (∀ rest, parse (us ++ eof :: rest) = parse (us ++ [eof])) ∧
      parse us = ⟨.error .offEnd, 2⟩ ∧
      ∀ d ∈ (parse (us ++ [eof])).diagnostics, d.cause ≠ .nestingTooDeep := by
  intro token us eof
  have hus : ∀ t ∈ us, t.kind ≠ .eof := by decide
  obtain ⟨hend, -, -, -, hdeep⟩ := parseWithin_reaches_end nestingLimit (us ++ [eof])
  obtain ⟨hpos, -, hrest⟩ := hend us eof [] rfl hus rfl
  obtain ⟨-, hnone, -⟩ := parseWithin_reaches_end nestingLimit us
  exact ⟨hus, rfl, hpos, hrest, hnone hus, (hdeep (by decide)).1⟩

end Lox
