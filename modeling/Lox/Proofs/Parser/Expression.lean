import Lox.Parser.Expression
import Lox.Proofs.Parser.Repetition

/-!
# Expressions are parsed by the grammar

The parser of expressions and the phrases of expressions agree, at every bound on the nesting.

* `assignment_gives`: what `assignment n` gives is an `Expression n`.
* `assignment_reads`: every `Expression n` is read by `assignment n`, in front of a token that does
  not go on with an expression.

Each level of operators reads in front of a token that is neither an operator of its own nor of a
tighter level; so the list of kinds that must not follow grows from level to level, and ends with
`goesOn`.
-/

namespace Lox.Parser

open Grammar (Phrase)

/-- The kinds with which an expression starts. -/
def expressionStarts : List Kind :=
  [.bang, .minus, .falseWord, .trueWord, .nilWord, .number, .string, .identifier, .leftParen]

/-- The kinds with which an expression goes on. -/
def goesOn : List Kind :=
  [.equal, .orWord, .andWord, .bangEqual, .equalEqual, .greater, .greaterEqual, .less, .lessEqual,
    .minus, .plus, .slash, .star, .leftParen]

/-! ### First tokens -/

/-- A chain of operators starts as its operands do. -/
theorem joinedLeft_startsWith {kinds starts : List Kind} {join : Node → Token → Node → Node}
    {Operand : Phrase Node} (ho : ∀ {ts e}, Operand ts e → StartsWith starts ts)
    {ts : List Token} {e : Node} (h : Grammar.JoinedLeft kinds join Operand ts e) :
    StartsWith starts ts := by
  induction h with
  | operand h => exact ho h
  | operator _ _ _ ih => exact ih.append _

/-- The kinds with which a call starts. -/
def primaryStarts : List Kind :=
  [.falseWord, .trueWord, .nilWord, .number, .string, .identifier, .leftParen]

theorem call_startsWith {Expr : Phrase Node} {ts : List Token} {e : Node}
    (h : Grammar.Call Expr ts e) : StartsWith primaryStarts ts := by
  induction h with
  | primary h =>
      cases h with
      | falseWord h | trueWord h | nilWord h | number h | string h | identifier h =>
          exact ⟨_, [], rfl, by simp [primaryStarts, h]⟩
      | grouping hl _ _ => exact ⟨_, _, rfl, by simp [primaryStarts, hl]⟩
  | call _ _ _ _ ih => exact ih.append _

/-- An operand starts with an operator in front or as a primary expression. -/
theorem unary_startsWith {n : Nat} {ts : List Token} {e : Node} (h : Grammar.Unary n ts e) :
    StartsWith expressionStarts ts := by
  cases n with
  | zero => exact h.elim
  | succ n =>
      rw [Grammar.Unary] at h
      cases h with
      | operator ht _ =>
          have hsub : ∀ k ∈ [Kind.bang, Kind.minus], k ∈ expressionStarts := by decide
          exact ⟨_, _, rfl, hsub _ ht⟩
      | call h =>
          obtain ⟨t, us, rfl, ht⟩ := call_startsWith h
          exact ⟨t, us, rfl, List.mem_cons_of_mem _ (List.mem_cons_of_mem _ ht)⟩

/-- Expressions start with one of these tokens only. -/
theorem expression_startsWith {n : Nat} {ts : List Token} {e : Node}
    (h : Grammar.Expression n ts e) : StartsWith expressionStarts ts := by
  cases n with
  | zero => exact h.elim
  | succ n =>
      rw [Grammar.Expression] at h
      cases h with
      | plain h =>
          refine joinedLeft_startsWith ?_ h
          iterate 5 refine joinedLeft_startsWith ?_
          exact unary_startsWith
      | assign hn _ _ => exact ⟨_, _, rfl, by simp [expressionStarts, hn]⟩

/-! ### Only a variable stands for itself -/

/-- A chain that comes to a name alone is one operand. -/
theorem joinedLeft_reference {kinds : List Kind} {join : Node → Token → Node → Node}
    (hj : ∀ l t r name, join l t r ≠ .reference name) {Operand : Phrase Node} {ts : List Token}
    {name : Token} (h : Grammar.JoinedLeft kinds join Operand ts (.reference name)) :
    Operand ts (.reference name) := by
  generalize he : Node.reference name = e at h
  cases h with
  | operand h => exact h
  | operator => exact absurd he.symm (hj _ _ _ _)

/-- A name alone is derived from its one token only. -/
theorem unary_reference {n : Nat} {ts : List Token} {name : Token}
    (h : Grammar.Unary n ts (.reference name)) : ts = [name] ∧ name.kind = .identifier := by
  cases n with
  | zero => exact h.elim
  | succ n =>
      rw [Grammar.Unary] at h
      cases h with
      | call h =>
          cases h with
          | primary h =>
              cases h with
              | identifier h => exact ⟨rfl, h⟩

/-- An expression without an assignment whose tree is a variable is that variable. -/
theorem logicOr_reference {n : Nat} {ts : List Token} {name : Token}
    (h : Grammar.LogicOr (Grammar.Unary n) ts (.reference name)) :
    ts = [name] ∧ name.kind = .identifier := by
  have logical : ∀ l t r name, Node.logical l t r ≠ .reference name := by simp
  have binary : ∀ l t r name, Node.binary l t r ≠ .reference name := by simp
  have hEquality := joinedLeft_reference logical (joinedLeft_reference logical h)
  have hTerm := joinedLeft_reference binary (joinedLeft_reference binary hEquality)
  exact unary_reference (joinedLeft_reference binary (joinedLeft_reference binary hTerm))

/-! ### What the parser gives -/

section Gives

variable {expression : Parser Node} {Expr : Phrase Node}

theorem primary_gives (he : Gives expression fun ts e _ => Expr ts e) :
    Gives (primary expression) fun ts e _ => Grammar.Primary Expr ts e := by
  have inner : Gives (do
      let inner ← expression
      let _ ← expect .rightParen .expectParenAfterExpression
      pure (.grouping inner) : Parser Node) fun ts e _ => ∀ left : Token,
        left.kind = .leftParen → Grammar.Primary Expr (left :: ts) e :=
    he.bind fun us e => Gives.expect fun right => Gives.pure fun _ hr h left hl =>
      .grouping hl h hr
  rintro ⟨_ | ⟨t, rest⟩, n, ds⟩ e s' h hd
  · cases h
  · simp only [primary] at h
    split at h
    case h_1 ht => cases h; exact ⟨hd, [t], rfl, .falseWord ht⟩
    case h_2 ht => cases h; exact ⟨hd, [t], rfl, .trueWord ht⟩
    case h_3 ht => cases h; exact ⟨hd, [t], rfl, .nilWord ht⟩
    case h_4 ht => cases h; exact ⟨hd, [t], rfl, .number ht⟩
    case h_5 ht => cases h; exact ⟨hd, [t], rfl, .string ht⟩
    case h_6 ht => cases h; exact ⟨hd, [t], rfl, .identifier ht⟩
    case h_7 ht =>
      obtain ⟨hd₀, ts, hts, hp⟩ := inner _ _ _ h hd
      refine ⟨hd₀, t :: ts, ?_, hp t ht⟩
      rw [List.cons_append, ← hts]
    case h_8 => cases h

theorem argumentList_gives (he : Gives expression fun ts e _ => Expr ts e) :
    Gives (argumentList expression) fun ts found _ => ∃ us, ts = us ++ [found.2] ∧
      Grammar.Entries Expr us found.1 ∧ found.2.kind = .rightParen :=
  (entries_gives he).bind fun us _ => Gives.expect fun _ => Gives.pure fun _ hp ha =>
    ⟨us, rfl, ha, hp⟩

/-- One round of `callsFrom`. -/
theorem callsFrom_cons (t : Token) (bound : List Token) (callee : Node) :
    callsFrom expression (t :: bound) callee = (do
      match ← accept [.leftParen] with
      | none => pure callee
      | some _ => do
        let found ← argumentList expression
        callsFrom expression bound (.call callee found.2 found.1) : Parser Node) := by
  funext s
  show _ = andThen _ _ s
  simp only [callsFrom, andThen]
  cases accept [.leftParen] s with
  | stop why s' => rfl
  | done o s' =>
      cases o with
      | none => rfl
      | some left =>
          show _ = andThen (argumentList expression) _ s'
          simp only [andThen]
          cases argumentList expression s' <;> rfl

/-- The rounds of a call lengthen what is derived already. -/
theorem callsFrom_gives (he : Gives expression fun ts e _ => Expr ts e) (bound : List Token)
    (callee : Node) :
    Gives (callsFrom expression bound callee) fun ts e _ =>
      ∀ us, Grammar.Call Expr us callee → Grammar.Call Expr (us ++ ts) e := by
  induction bound generalizing callee with
  | nil => exact Gives.fail .offEnd _
  | cons t bound ih =>
      rw [callsFrom_cons]
      refine Gives.accept (by decide) (Gives.pure fun rest _ us hc => ?_) fun left => ?_
      · rwa [List.append_nil]
      · refine (argumentList_gives he).bind fun ws found =>
          (ih (.call callee found.2 found.1)).mono ?_
        rintro ts e rest hcalls ⟨vs, rfl, ha, hr⟩ hl us hc
        rw [List.mem_singleton] at hl
        have h := hcalls (us ++ left :: (vs ++ [found.2])) (.call hc hl ha hr)
        simpa using h

theorem call_gives (he : Gives expression fun ts e _ => Expr ts e) :
    Gives (call expression) fun ts e _ => Grammar.Call Expr ts e := by
  intro s e s'' h hd
  rw [call] at h
  cases hs : primary expression s with
  | stop why s' =>
      rw [hs] at h
      cases h
  | done callee s' =>
      rw [hs] at h
      obtain ⟨hd', vs, hvs, hc⟩ := callsFrom_gives he s'.rest callee s' e s'' h hd
      obtain ⟨hd₀, us, hus, hp⟩ := primary_gives he s callee s' hs hd'
      refine ⟨hd₀, us ++ vs, ?_, hc us (.primary hp)⟩
      rw [hus, hvs, List.append_assoc]

end Gives

/-- Each level of operators is derived as the grammar has it. -/
theorem operatorLevels_gives {operand : Parser Node} {Operand : Phrase Node}
    (ho : Gives operand fun ts e _ => Operand ts e) :
    Gives (operatorLevels operand) fun ts e _ => Grammar.LogicOr Operand ts e := by
  rw [operatorLevels]
  iterate 6 refine leftAssoc_gives (by decide) ?_
  exact ho

/-- Nothing but an assignment to a variable is given: any other target is reported. -/
theorem assignTo_gives (target : Node) (equals : Token) (value : Node) :
    Gives (assignTo target equals value) fun ts e _ =>
      ts = [] ∧ ∃ name, target = .reference name ∧ e = .assign name value := by
  unfold assignTo
  split
  · exact Gives.pure fun _ => ⟨rfl, _, rfl, rfl⟩
  · refine (Gives.report _ _ fun _ _ _ => False).bind fun _ _ => Gives.pure ?_
    rintro _ ⟨⟩

/-- What is read as an expression is derived as one, by induction on the nesting budget. -/
theorem assignment_unary_gives (n : Nat) :
    (Gives (assignment n) fun ts e _ => Grammar.Expression n ts e) ∧
      Gives (unary n) fun ts e _ => Grammar.Unary n ts e := by
  induction n with
  | zero => exact ⟨Gives.fail .tooDeep _, Gives.fail .tooDeep _⟩
  | succ n ih =>
      obtain ⟨ihe, ihu⟩ := ih
      constructor
      · simp only [assignment, Grammar.Expression]
        refine (operatorLevels_gives ihu).bind fun us target => ?_
        refine Gives.accept (by decide) (Gives.pure ?_) fun equals => ?_
        · rintro rest - h
          rw [List.append_nil]
          exact .plain h
        · refine ihe.bind fun vs value => (assignTo_gives target equals value).mono ?_
          rintro _ _ rest ⟨rfl, name, rfl, rfl⟩ hv he ht
          obtain ⟨rfl, hn⟩ := logicOr_reference ht
          rw [List.mem_singleton] at he
          rw [List.append_nil]
          exact .assign hn he hv
      · simp only [unary, Grammar.Unary]
        refine Gives.accept (by decide) ((call_gives ihe).mono ?_) fun operator => ?_
        · intro ts e rest h _
          exact .call h
        · refine ihu.bind fun us right => Gives.pure ?_
          intro rest h ht
          rw [List.append_nil]
          exact .operator ht h

theorem assignment_gives (n : Nat) :
    Gives (assignment n) fun ts e _ => Grammar.Expression n ts e :=
  (assignment_unary_gives n).1

/-! ### What the parser reads -/

section Reads

variable {expression : Parser Node} {Expr : Phrase Node}

/-- A primary expression is read whatever follows it. -/
theorem primary_reads
    (he : ∀ {ts e rest}, Expr ts e → Clear goesOn rest → Reads expression ts e rest)
    {ts : List Token} {e : Node} (h : Grammar.Primary Expr ts e) (rest : List Token) :
    Reads (primary expression) ts e rest := by
  intro n ds
  cases h with
  | falseWord h | trueWord h | nilWord h | number h | string h | identifier h =>
      simp [primary, h]
  | @grouping left right us e hl h hr =>
      have hinner : Reads (do
          let inner ← expression
          let _ ← expect .rightParen .expectParenAfterExpression
          pure (.grouping inner) : Parser Node) (us ++ [right]) (.grouping e) rest := by
        refine Reads.bind (he h (clear_cons ?_ _)) ?_
        · rw [hr]
          decide
        · exact Reads.expect hr (by decide) (Reads.pure _ rest)
      simp only [primary, List.cons_append, hl]
      rw [hinner, List.length_cons]
      congr 2
      omega

/-- Entries that are derived are read, up to their parenthesis. -/
theorem argumentList_reads
    (hs : ∀ {ts e}, Expr ts e → StartsWith expressionStarts ts)
    (he : ∀ {ts e rest}, Expr ts e → Clear goesOn rest → Reads expression ts e rest)
    {ts rest : List Token} {arguments : List Node} {right : Token}
    (h : Grammar.Entries Expr ts arguments) (hr : right.kind = .rightParen) :
    Reads (argumentList expression) (ts ++ [right]) (arguments, right) rest := by
  refine Reads.bind (entries_reads goesOn expressionStarts (by decide) (by decide) hs he h hr) ?_
  exact Reads.expect hr (by decide) (Reads.pure _ rest)

/-- Behind the argument lists of `ts`, `call` is in its loop with the callee at hand.  The bound on
the rounds is as long as the tokens left, at least. -/
theorem call_reaches
    (hs : ∀ {ts e}, Expr ts e → StartsWith expressionStarts ts)
    (he : ∀ {ts e rest}, Expr ts e → Clear goesOn rest → Reads expression ts e rest)
    {ts : List Token} {e : Node} (h : Grammar.Call Expr ts e) :
    ∀ rest n ds, ∃ bound, rest.length ≤ bound.length ∧
      call expression ⟨ts ++ rest, n, ds⟩ =
        callsFrom expression bound e ⟨rest, n + ts.length, ds⟩ := by
  induction h with
  | primary h =>
      intro rest n ds
      refine ⟨rest, Nat.le_refl _, ?_⟩
      rw [call, primary_reads he h rest n ds]
  | @call ts us left right callee arguments hc hl ha hr ih =>
      intro rest n ds
      obtain ⟨bound, hb, hj⟩ := ih (left :: (us ++ [right]) ++ rest) n ds
      match bound, hb with
      | [], hb => simp at hb
      | b :: bound, hb =>
          refine ⟨bound, ?_, ?_⟩
          · simp only [List.cons_append, List.length_cons, List.length_append] at hb
            omega
          · rw [List.append_assoc, hj, callsFrom, List.cons_append,
              accept_some (by simp [hl]) (by simp [hl])]
            dsimp only
            rw [argumentList_reads hs he ha hr]
            simp only [List.length_append, List.length_cons]
            congr 2
            omega

/-- A call is read in front of anything but another argument list. -/
theorem call_reads
    (hs : ∀ {ts e}, Expr ts e → StartsWith expressionStarts ts)
    (he : ∀ {ts e rest}, Expr ts e → Clear goesOn rest → Reads expression ts e rest)
    {ts rest : List Token} {e : Node} (h : Grammar.Call Expr ts e)
    (hc : Clear [.leftParen] rest) : Reads (call expression) ts e rest := by
  intro n ds
  obtain ⟨bound, hb, hj⟩ := call_reaches hs he h rest n ds
  rw [hj]
  match bound, hb with
  | [], hb =>
      obtain ⟨t, us, rfl, -⟩ := hc
      simp at hb
  | b :: bound, hb => rw [callsFrom, accept_clear hc]

end Reads

/-- The six levels read in front of anything but an operator or an argument list. -/
theorem operatorLevels_reads {operand : Parser Node} {Operand : Phrase Node}
    (ho : ∀ {ts e rest}, Operand ts e → Clear [.leftParen] rest → Reads operand ts e rest)
    {ts rest : List Token} {e : Node} (h : Grammar.LogicOr Operand ts e)
    (hc : Clear goesOn.tail rest) : Reads (operatorLevels operand) ts e rest := by
  refine leftAssoc_reads goesOn.tail.tail (by decide) ?_ h hc
  refine leftAssoc_reads (goesOn.drop 3) (by decide) ?_
  refine leftAssoc_reads (goesOn.drop 5) (by decide) ?_
  refine leftAssoc_reads (goesOn.drop 9) (by decide) ?_
  refine leftAssoc_reads (goesOn.drop 11) (by decide) ?_
  exact leftAssoc_reads (goesOn.drop 13) (by decide) ho

/-- What is derived as an expression is read whole where the next token does not lengthen it. -/
theorem assignment_unary_reads (n : Nat) :
    (∀ {ts e rest}, Grammar.Expression n ts e → Clear goesOn rest →
      Reads (assignment n) ts e rest) ∧
    (∀ {ts e rest}, Grammar.Unary n ts e → Clear [.leftParen] rest →
      Reads (unary n) ts e rest) := by
  induction n with
  | zero => exact ⟨fun h _ => h.elim, fun h _ => h.elim⟩
  | succ n ih =>
      obtain ⟨ihe, ihu⟩ := ih
      refine ⟨fun {ts e rest} h hc => ?_, fun {ts e rest} h hc => ?_⟩
      · rw [Grammar.Expression] at h
        rw [assignment]
        cases h with
        | plain h =>
            refine Reads.last (operatorLevels_reads ihu h (hc.mono (List.subset_cons_self _ _))) ?_
            exact Reads.decline (hc.mono (by simp [goesOn])) (Reads.pure e rest)
        | @assign name equals us v hn he h =>
            -- the target is read as an operand first, through all levels of operators
            have htarget : Grammar.LogicOr (Grammar.Unary n) [name] (.reference name) := by
              cases n with
              | zero => exact h.elim
              | succ n =>
                  rw [Grammar.Unary]
                  exact .of_operand (.call (.primary (.identifier hn)))
            have hclear : Clear goesOn.tail (equals :: us ++ rest) :=
              clear_cons (by rw [he]; decide) _
            refine Reads.token (operatorLevels_reads ihu htarget hclear) ?_
            refine Reads.accept (by simp [he]) (by simp [he]) ?_
            exact Reads.last (ihe h hc) (Reads.pure _ rest)
      · rw [Grammar.Unary] at h
        rw [unary]
        cases h with
        | @operator t us e ht h =>
            have hne : t.kind ≠ .eof := fun he => by
              rw [he] at ht
              exact absurd ht (by decide)
            exact Reads.accept ht hne (Reads.last (ihu h hc) (Reads.pure _ rest))
        | call h =>
            refine Reads.decline ?_ (call_reads expression_startsWith ihe h hc)
            exact ((call_startsWith h).append rest).clear (by decide)

/-- Every expression is read in front of a token that does not go on with it. -/
theorem assignment_reads {n : Nat} {ts rest : List Token} {e : Node}
    (h : Grammar.Expression n ts e) (hc : Clear goesOn rest) : Reads (assignment n) ts e rest :=
  (assignment_unary_reads n).1 h hc

end Lox.Parser
