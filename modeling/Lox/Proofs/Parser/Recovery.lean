import Lox.Program
import Lox.Proofs.Parser.Seam

/-!
# Recovery

A broken statement does not disturb its neighbours.

`Closes S p`: a run of `p` that gives a value took a token, and the second run gives the same value
there, whatever follows.  A statement closes a seam: its last token is taken by `expect`, and the only
token looked at behind it is an `else`.

* `recover_cases`: all that recovery can do.
* `synchronize_settles`: giving a statement up ends at the seam in both runs, if the tokens in front
  of it end with a semicolon.
* `declaration_settles`: so a declaration in front of the seam is read in the same way in both runs,
  as long as nothing is reported at the seam.
-/

namespace Lox

namespace Parser

variable {α β : Type} {S : Seam}

/-! ### Recovery -/

/-- Both sides skip alike up to the seam, and not over it. -/
theorem skipFrom_crosses (last : Kind) (us : List Token) (n : Nat) (ds : List Diagnostic) :
    (skipFrom last (us ++ S.first) n ds).Crosses S us n
      (skipFrom last (us ++ S.second) (S.taken + n) (S.reported ++ ds.map (·.moved S.taken))) := by
  induction us generalizing last n with
  | nil =>
      obtain ⟨t, rest, hfirst, ht⟩ := S.ended
      have hstop : ∀ n ds, skipFrom last S.first n ds = .done () ⟨S.first, n, ds⟩ := by
        intro n ds
        simp [hfirst, skipFrom, ht]
      rw [List.nil_append, List.nil_append, hstop]
      refine .done (List.suffix_refl []) rfl fun hb => ?_
      rw [← hb.resolve_left fun h => h rfl, hstop, Seam.right,
        ← hb.resolve_left fun h => h rfl, List.nil_append]
  | cons t us ih =>
      rw [List.cons_append, List.cons_append, skipFrom, skipFrom]
      split
      · exact .done (List.suffix_refl (t :: us)) rfl fun _ => rfl
      · refine (ih t.kind (n + 1)).widen (List.suffix_cons t us) ?_
        rw [List.length_cons]
        omega

/-- So both sides give up alike. -/
theorem synchronize_crosses : Crosses S synchronize := by
  intro us n ds
  cases us with
  | nil =>
      obtain ⟨t, rest, hfirst, ht⟩ := S.ended
      have hstop : ∀ n ds, synchronize ⟨S.first, n, ds⟩ = .done () ⟨S.first, n, ds⟩ := by
        intro n ds
        simp [hfirst, synchronize, ht]
      rw [Seam.left, List.nil_append, hstop]
      refine .done (List.suffix_refl []) rfl fun hb => ?_
      rw [Seam.right, ← hb.resolve_left fun h => h rfl, List.nil_append, hstop]
  | cons t us =>
      rw [Seam.left, Seam.right, List.cons_append, List.cons_append]
      simp only [synchronize]
      split
      · exact .done (List.suffix_refl (t :: us)) rfl fun _ => rfl
      · refine (skipFrom_crosses t.kind us (n + 1) ds).widen (List.suffix_cons t us) ?_
        rw [List.length_cons]
        omega

/-- Gives the statement at hand up, without a value. -/
def giveUp : Parser (Option α) := do
  let _ ← synchronize
  pure none

theorem giveUp_crosses : Crosses S (giveUp : Parser (Option α)) :=
  synchronize_crosses.bind fun _ => Crosses.pure none

/-- All that recovery can do: it passes a value on, or it reports the token at which the step stops
and gives the statement up there. -/
theorem recover_cases {p : Parser α} (hp : Crosses S p) (us : List Token) (n : Nat)
    (ds : List Diagnostic) :
    (∃ a s, p (S.left us n ds) = .done a s ∧ recover p (S.left us n ds) = .done (some a) s) ∨
    ∃ vs n' ds' d, vs <:+ us ∧ n' + vs.length = n + us.length ∧
      (vs ++ S.first).head? = some d.token ∧
      recover p (S.left us n ds) = giveUp (S.left vs n' (ds' ++ [d])) ∧
      (S.Binds vs → recover p (S.right us n ds) = giveUp (S.right vs n' (ds' ++ [d]))) := by
  have h := hp us n ds
  simp only [recover]
  generalize p (S.left us n ds) = r at h ⊢
  generalize p (S.right us n ds) = r' at h ⊢
  cases h with
  | done hv hn h => exact .inl ⟨_, _, rfl, rfl⟩
  | @stop why vs n' ds' _ hv hn hw h =>
      refine .inr ?_
      cases why with
      | offEnd => exact hw.elim
      | refused d =>
          refine ⟨vs, n', ds', d, hv, hn, hw, rfl, fun hb => ?_⟩
          rw [h hb]
          simp only [Stop.moved, Seam.right, List.map_append, List.map_singleton, List.append_assoc]
          rfl
      | tooDeep =>
          -- the error stands at the next token, which the seam always has
          obtain ⟨t, rest, ht, hsecond⟩ := S.next vs
          refine ⟨vs, n', ds', ⟨.nestingTooDeep, t, n'⟩, hv, hn, by rw [ht]; rfl, ?_, fun hb => ?_⟩
          · simp only [Seam.left, ht]
            rfl
          · obtain ⟨rest', ht'⟩ := hsecond hb
            rw [h hb]
            simp only [Stop.moved, Seam.right, ht', List.map_append, List.map_singleton,
              ← List.append_assoc]
            rfl

/-- A declaration that is given up is so on both sides. -/
theorem recover_crosses {p : Parser α} (hp : Crosses S p) : Crosses S (recover p) := by
  intro us n ds
  obtain ⟨a, s, hs, hr⟩ | ⟨vs, n', ds', d, hv, hn, -, hr, hr'⟩ := recover_cases hp us n ds
  · have h := hp us n ds
    rw [hs] at h
    obtain ⟨vs, n', ds', rfl, hv, hn, h⟩ := h.of_done
    rw [hr]
    refine .done hv hn fun hb => ?_
    rw [recover, h hb]
  · rw [hr]
    exact ((giveUp_crosses vs n' (ds' ++ [d])).congr hr').widen hv hn

/-! ### Closing a seam -/

/-- Where the first run gives a value, the second one gives it too, whatever follows. -/
structure Passes (S : Seam) (p : Parser α) : Prop where
  crosses : Crosses S p
  settles : ∀ us n ds a s', p (S.left us n ds) = .done a s' → ∃ vs n' ds',
    s' = S.left vs n' ds' ∧ vs <:+ us ∧ p (S.right us n ds) = .done a (S.right vs n' ds')

/-- Where the first run gives a value, it has taken a token, and the second run does the same,
whatever follows. -/
structure Closes (S : Seam) (p : Parser α) : Prop where
  crosses : Crosses S p
  settles : ∀ us n ds a s', p (S.left us n ds) = .done a s' → ∃ vs n' ds',
    s' = S.left vs n' ds' ∧ vs <:+ us ∧ vs.length < us.length ∧
      p (S.right us n ds) = .done a (S.right vs n' ds')

theorem bind_of_done {p : Parser α} {f : α → Parser β} {s s' : State} {a : α}
    (h : p s = .done a s') : (p >>= f) s = f a s' := by
  show andThen p f s = f a s'
  rw [andThen, h]

/-- What closes a seam passes it. -/
theorem Closes.passes {p : Parser α} (h : Closes S p) : Passes S p := by
  refine ⟨h.crosses, fun us n ds a s' hp => ?_⟩
  obtain ⟨vs, n', ds', hs, hv, -, hq⟩ := h.settles us n ds a s' hp
  exact ⟨vs, n', ds', hs, hv, hq⟩

theorem Passes.pure (a : α) : Passes S (pure a) := by
  refine ⟨Crosses.pure a, fun us n ds b s' h => ?_⟩
  cases (show Outcome.done a (S.left us n ds) = .done b s' from h)
  exact ⟨us, n, ds, rfl, List.suffix_refl us, rfl⟩

/-- Sequencing. -/
theorem Passes.bind {p : Parser α} {f : α → Parser β} (hp : Passes S p)
    (hf : ∀ a, Passes S (f a)) : Passes S (p >>= f) := by
  refine ⟨hp.crosses.bind fun a => (hf a).crosses, fun us n ds b s'' h => ?_⟩
  obtain ⟨a, s', h₁, h₂⟩ := bind_eq_done h
  obtain ⟨vs, n₁, ds₁, rfl, hv, hp'⟩ := hp.settles us n ds a s' h₁
  obtain ⟨ws, n₂, ds₂, rfl, hw, hf'⟩ := (hf a).settles vs n₁ ds₁ b s'' h₂
  exact ⟨ws, n₂, ds₂, rfl, hw.trans hv, (bind_of_done hp').trans hf'⟩

/-- Behind a step that closes the seam, only what may follow has to pass. -/
theorem Closes.behind {p : Parser α} {f : α → Parser β} (hp : Closes S p)
    (hf : ∀ a, Passes S (f a)) : Closes S (p >>= f) := by
  refine ⟨hp.crosses.bind fun a => (hf a).crosses, fun us n ds b s'' h => ?_⟩
  obtain ⟨a, s', h₁, h₂⟩ := bind_eq_done h
  obtain ⟨vs, n₁, ds₁, rfl, hv, hlt, hp'⟩ := hp.settles us n ds a s' h₁
  obtain ⟨ws, n₂, ds₂, rfl, hw, hf'⟩ := (hf a).settles vs n₁ ds₁ b s'' h₂
  have hle := hw.length_le
  exact ⟨ws, n₂, ds₂, rfl, hw.trans hv, by omega, (bind_of_done hp').trans hf'⟩

/-- In front of a step that closes the seam, a token of it is left. -/
theorem Closes.bind {p : Parser α} {f : α → Parser β} (hp : Crosses S p)
    (hf : ∀ a, Closes S (f a)) : Closes S (p >>= f) := by
  refine ⟨hp.bind fun a => (hf a).crosses, fun us n ds b s'' h => ?_⟩
  obtain ⟨a, s', h₁, h₂⟩ := bind_eq_done h
  have hc := hp us n ds
  rw [h₁] at hc
  cases hc with
  | @done _ vs n₁ ds₁ _ hv hn hr =>
      obtain ⟨ws, n₂, ds₂, rfl, hw, hlt, hf'⟩ := (hf a).settles vs n₁ ds₁ b s'' h₂
      have hb : S.Binds vs := .inl fun h => by rw [h] at hlt; simp at hlt
      have hle := hv.length_le
      exact ⟨ws, n₂, ds₂, rfl, hw.trans hv, by omega, (bind_of_done (hr hb)).trans hf'⟩

/-- What a reader gives may be changed. -/
theorem Closes.map {p : Parser α} (f : α → β) (hp : Closes S p) : Closes S (f <$> p) :=
  hp.behind fun a => Passes.pure (f a)

/-- A step that gives no value has nothing to close. -/
theorem Closes.tooDeep : Closes S (fail .tooDeep : Parser α) :=
  ⟨Crosses.tooDeep, fun _ _ _ _ _ h => by cases h⟩

/-- A step that only takes tokens, none of them for the end, takes one in front of the seam. -/
theorem look_closes {f : Token → Look α} (hf : ∀ t a, f t = .take a → t.kind ≠ .eof)
    (hk : ∀ t a, f t ≠ .keep a) : Closes S (look f) := by
  refine ⟨look_crosses hf, fun us n ds a s' h => ?_⟩
  cases us with
  | cons t us =>
      rw [Seam.left, List.cons_append] at h
      rw [Seam.right, List.cons_append]
      cases hft : f t with
      | keep b => exact absurd hft (hk t b)
      | take b =>
          rw [look_take hft] at h ⊢
          cases h
          exact ⟨us, n + 1, ds, rfl, List.suffix_cons t us, Nat.lt_succ_self _, rfl⟩
      | refuse cause =>
          rw [look_refuse hft] at h
          cases h
  | nil =>
      obtain ⟨t, rest, hfirst, ht⟩ := S.ended
      rw [Seam.left, hfirst, List.nil_append] at h
      cases hft : f t with
      | keep b => exact absurd hft (hk t b)
      | take b => exact absurd ht (hf t b hft)
      | refuse cause =>
          rw [look_refuse hft] at h
          cases h

/-- A token that is expected is taken, and none behind it is looked at. -/
theorem Closes.expect (kind : Kind) (cause : Cause) : Closes S (expect kind cause) := by
  rw [expect_eq_look]
  refine look_closes (fun t a h => ?_) fun t a h => ?_
  · split at h
    · rename_i ht
      simp only [Bool.and_eq_true, decide_eq_true_eq] at ht
      exact ht.1
    · cases h
  · split at h
    · cases h
    · cases h

/-- No `else` follows the seam, so none is taken there in either run. -/
theorem Passes.acceptElse : Passes S (accept [.elseWord]) := by
  refine ⟨Crosses.accept _, fun us n ds o s' h => ?_⟩
  cases us with
  | cons t us =>
      rw [Seam.left, List.cons_append] at h
      rw [Seam.right, List.cons_append]
      simp only [accept] at h ⊢
      split at h
      · rename_i ht
        cases h
        exact ⟨us, n + 1, ds, rfl, List.suffix_cons t us, by rw [if_pos ht]; rfl⟩
      · rename_i ht
        cases h
        exact ⟨t :: us, n, ds, rfl, List.suffix_refl _, by rw [if_neg ht]; rfl⟩
  | nil =>
      obtain ⟨t, rest, hfirst, ht⟩ := S.ended
      obtain ⟨t', rest', hsecond, ht'⟩ := S.goesOn
      have hleft : accept [.elseWord] (S.left [] n ds) = .done none (S.left [] n ds) := by
        rw [Seam.left, hfirst]
        exact accept_clear (clear_cons (by simp [ht]) rest) n ds
      rw [hleft] at h
      cases h
      refine ⟨[], n, ds, rfl, List.suffix_refl [], ?_⟩
      rw [Seam.right, hsecond]
      exact accept_clear (clear_cons (by simpa using ht') rest') _ _

/-! ### Statements -/

section Statements

variable {expression statement : Parser Node}

/-- The semicolon closes the statement. -/
theorem expressionStatement_closes (he : Crosses S expression) :
    Closes S (expressionStatement expression) :=
  Closes.bind he fun _ => (Closes.expect _ _).behind fun _ => Passes.pure _

theorem printStatement_closes (he : Crosses S expression) : Closes S (printStatement expression) :=
  Closes.bind he fun _ => (Closes.expect _ _).behind fun _ => Passes.pure _

/-- And so it does for a declaration. -/
theorem variableDeclaration_closes (he : Crosses S expression) :
    Closes S (variableDeclaration expression) := by
  refine Closes.bind (Crosses.expect _ _) fun name => Closes.bind (Crosses.accept _) fun o => ?_
  cases o with
  | some equals =>
      exact Closes.bind he fun _ => (Closes.expect _ _).behind fun _ => Passes.pure _
  | none =>
      exact Closes.bind (Crosses.pure _) fun _ => (Closes.expect _ _).behind fun _ => Passes.pure _

theorem expressionUnless_crosses (he : Crosses S expression) (kind : Kind) :
    Crosses S (expressionUnless kind expression) := by
  refine (Crosses.check kind).bind fun b => ?_
  cases b with
  | true => exact Crosses.pure none
  | false => exact he.map some

theorem returnStatement_closes (he : Crosses S expression) (inFunction : Bool) (keyword : Token) :
    Closes S (returnStatement inFunction keyword expression) := by
  have hvalue : Closes S (do
      let value ← expressionUnless .semicolon expression
      let _ ← expect .semicolon .expectSemicolonAfterReturnValue
      pure (.returns keyword (value.getD .null)) : Parser Node) :=
    Closes.bind (expressionUnless_crosses he _) fun _ =>
      (Closes.expect _ _).behind fun _ => Passes.pure _
  cases inFunction with
  | true => exact hvalue
  | false => exact Closes.bind (Crosses.report _ _) fun _ => hvalue

theorem loopInitializer_crosses (he : Crosses S expression) :
    Crosses S (loopInitializer expression) := by
  refine (Crosses.accept _).bind fun o => ?_
  cases o with
  | some semicolon => exact Crosses.pure none
  | none =>
      refine (Crosses.accept _).bind fun o => ?_
      cases o with
      | some var => exact (variableDeclaration_closes he).crosses.map some
      | none => exact (expressionStatement_closes he).crosses.map some

/-- A loop is closed by its body. -/
theorem forStatement_closes (he : Crosses S expression) (hs : Closes S statement) :
    Closes S (forStatement expression statement) := by
  refine Closes.bind (Crosses.expect _ _) fun _ => ?_
  refine Closes.bind (loopInitializer_crosses he) fun initializer => ?_
  refine Closes.bind (expressionUnless_crosses he _) fun condition => ?_
  refine Closes.bind (Crosses.expect _ _) fun _ => ?_
  refine Closes.bind (expressionUnless_crosses he _) fun increment => ?_
  exact Closes.bind (Crosses.expect _ _) fun _ => hs.behind fun body => Passes.pure _

/-- The token behind the first branch is looked at, and it is no `else` at the seam. -/
theorem ifStatement_closes (he : Crosses S expression) (hs : Closes S statement) :
    Closes S (ifStatement expression statement) := by
  refine Closes.bind (Crosses.expect _ _) fun _ => Closes.bind he fun condition => ?_
  refine Closes.bind (Crosses.expect _ _) fun _ => hs.behind fun thenBranch => ?_
  refine Passes.acceptElse.bind fun o => ?_
  cases o with
  | some other => exact hs.passes.bind fun _ => Passes.pure _
  | none => exact (Passes.pure _).bind fun _ => Passes.pure _

theorem whileStatement_closes (he : Crosses S expression) (hs : Closes S statement) :
    Closes S (whileStatement expression statement) := by
  refine Closes.bind (Crosses.expect _ _) fun _ => Closes.bind he fun condition => ?_
  exact Closes.bind (Crosses.expect _ _) fun _ => hs.behind fun body => Passes.pure _

variable {declaration : Parser (Option Node)}

/-- A block is closed by its brace. -/
theorem blockOf_closes (hd : Crosses S declaration) (ht : Takes S declaration) :
    Closes S (blockOf declaration) := by
  refine Closes.bind (itemsUntil_crosses (fun t h => ?_) hd ht) fun _ =>
    (Closes.expect _ _).behind fun _ => Passes.pure _
  simp [h]

/-- And a function by that of its body. -/
theorem functionDeclaration_closes (hd : Crosses S declaration) (ht : Takes S declaration) :
    Closes S (functionDeclaration declaration) := by
  refine Closes.bind (Crosses.expect _ _) fun name => Closes.bind (Crosses.expect _ _) fun _ => ?_
  refine Closes.bind (entries_crosses (Crosses.expect _ _)) fun params => ?_
  refine Closes.bind (Crosses.expect _ _) fun _ => Closes.bind (Crosses.expect _ _) fun _ => ?_
  exact (blockOf_closes hd ht).behind fun body => Passes.pure _

end Statements

/-! ### Declarations -/

/-- Giving a statement up takes the token it stands at. -/
theorem synchronize_takes : Takes S synchronize := by
  intro t us n ds a vs n' ds' ht h
  rw [Seam.left, List.cons_append] at h
  simp only [synchronize, if_neg ht] at h
  have hskip := skipFrom_crosses (S := S) t.kind us (n + 1) ds
  rw [h] at hskip
  obtain ⟨ws, n₁, ds₁, hs, hw, -, -⟩ := hskip.of_done
  rw [(Seam.left_inj.mp hs).1]
  exact Nat.lt_succ_of_le hw.length_le

/-- Where a declaration is given up, at least one token is taken. -/
theorem recover_takes {p : Parser α} (hp : Closes S p) : Takes S (recover p) := by
  intro t us n ds o vs n' ds' ht h
  obtain ⟨a, s, hs, hr⟩ | ⟨ws, n₁, ds₁, d, hw, hn, -, hr, -⟩ :=
    recover_cases hp.crosses (t :: us) n ds
  · rw [hr] at h
    obtain ⟨ws, n₁, ds₁, rfl, -, hlt, -⟩ := hp.settles _ _ _ _ _ hs
    injection h with _ h
    rw [← (Seam.left_inj.mp h).1]
    exact hlt
  · rw [hr] at h
    rcases List.suffix_cons_iff.mp hw with rfl | hw
    · obtain ⟨_, s, hsync, hs⟩ := bind_eq_done h
      cases hs
      exact synchronize_takes _ _ _ _ _ _ _ _ ht hsync
    · have hc := giveUp_crosses (S := S) (α := α) ws n₁ (ds₁ ++ [d])
      rw [h] at hc
      obtain ⟨xs, n₂, ds₂, hs, hx, -, -⟩ := hc.of_done
      rw [(Seam.left_inj.mp hs).1]
      exact Nat.lt_succ_of_le (hx.trans hw).length_le

/-- A statement closes a seam, and a declaration is a recovery from something that does. -/
theorem statement_closes_declaration (depth : Nat) :
    (∀ inFunction, Closes S (statement inFunction depth)) ∧
    ∀ inFunction, ∃ body, Closes S body ∧ declaration inFunction depth = recover body := by
  induction depth with
  | zero => exact ⟨fun _ => Closes.tooDeep, fun _ => ⟨_, Closes.tooDeep, by rw [declaration]⟩⟩
  | succ depth ih =>
      obtain ⟨ihs, ihd⟩ := ih
      have he := (assignment_unary_crosses (S := S) depth).1
      have hd : ∀ inFunction, Crosses S (declaration inFunction depth) ∧
          Takes S (declaration inFunction depth) := by
        intro inFunction
        obtain ⟨body, hbody, heq⟩ := ihd inFunction
        rw [heq]
        exact ⟨recover_crosses hbody.crosses, recover_takes hbody⟩
      refine ⟨fun inFunction => ?_, fun inFunction => ⟨_, ?_, by rw [declaration]⟩⟩
      · rw [statement]
        refine Closes.bind (Crosses.accept _) fun o => ?_
        cases o with
        | none => exact expressionStatement_closes he
        | some start =>
            dsimp only
            split
            · exact forStatement_closes he (ihs inFunction)
            · exact ifStatement_closes he (ihs inFunction)
            · exact printStatement_closes he
            · exact returnStatement_closes he inFunction start
            · exact whileStatement_closes he (ihs inFunction)
            · exact (blockOf_closes (hd inFunction).1 (hd inFunction).2).map Node.block
      · refine Closes.bind (Crosses.accept _) fun o => ?_
        cases o with
        | none => exact ihs inFunction
        | some start =>
            dsimp only
            split
            · exact functionDeclaration_closes (hd true).1 (hd true).2
            · exact variableDeclaration_closes he

/-- Declarations are read alike on both sides of a seam. -/
theorem declaration_crosses (inFunction : Bool) (depth : Nat) :
    Crosses S (declaration inFunction depth) := by
  obtain ⟨body, hbody, heq⟩ := (statement_closes_declaration depth).2 inFunction
  rw [heq]
  exact recover_crosses hbody.crosses

/-- And each takes a token. -/
theorem declaration_takes (inFunction : Bool) (depth : Nat) :
    Takes S (declaration inFunction depth) := by
  obtain ⟨body, hbody, heq⟩ := (statement_closes_declaration depth).2 inFunction
  rw [heq]
  exact recover_takes hbody

/-! ### Settling a declaration -/

/-- The tokens end with a semicolon. -/
def EndsStatement (us : List Token) : Prop := ∃ ts t, us = ts ++ [t] ∧ t.kind = .semicolon

/-- Tokens end a statement if the last of them do. -/
theorem EndsStatement.of_suffix {us vs : List Token} (h : EndsStatement us) (hv : vs <:+ us)
    (hne : vs ≠ []) : EndsStatement vs := by
  obtain ⟨ts, t, rfl, ht⟩ := h
  obtain hnil | ⟨ws, rfl, -⟩ := List.suffix_concat_iff.mp hv
  · exact absurd hnil hne
  · exact ⟨ws, t, rfl, ht⟩

/-- Behind a semicolon skipping ends, whatever follows. -/
theorem skipFrom_settles {t : Token} {us : List Token} (h : EndsStatement (t :: us)) (n : Nat)
    (ds : List Diagnostic) :
    ∃ vs n', vs <:+ us ∧ skipFrom t.kind (us ++ S.first) n ds = .done () (S.left vs n' ds) ∧
      skipFrom t.kind (us ++ S.second) (S.taken + n) (S.reported ++ ds.map (·.moved S.taken)) =
        .done () (S.right vs n' ds) := by
  induction us generalizing t n with
  | nil =>
      obtain ⟨ts, u, hlast, hu⟩ := h
      obtain ⟨rfl, rfl⟩ : ts = [] ∧ u = t := by
        simpa [List.singleton_eq_append_iff] using hlast
      obtain ⟨e, rest, hfirst, -⟩ := S.ended
      obtain ⟨e', rest', hsecond, -⟩ := S.goesOn
      refine ⟨[], n, List.suffix_refl [], ?_, ?_⟩
      · simp [Seam.left, hfirst, skipFrom, hu]
      · simp [Seam.right, hsecond, skipFrom, hu]
  | cons u us ih =>
      simp only [List.cons_append, skipFrom]
      split
      · exact ⟨u :: us, n, List.suffix_refl _, rfl, rfl⟩
      · obtain ⟨vs, n', hv, hleft, hright⟩ :=
          ih (h.of_suffix (List.suffix_cons t _) (List.cons_ne_nil u us)) (n + 1)
        exact ⟨vs, n', hv.trans (List.suffix_cons u us), hleft, hright⟩

/-- Giving a statement up ends in front of the seam or at it, in both runs. -/
theorem synchronize_settles {us : List Token} (h : EndsStatement us) (n : Nat)
    (ds : List Diagnostic) :
    ∃ vs n', vs <:+ us ∧ synchronize (S.left us n ds) = .done () (S.left vs n' ds) ∧
      synchronize (S.right us n ds) = .done () (S.right vs n' ds) := by
  cases us with
  | nil =>
      obtain ⟨ts, t, hlast, -⟩ := h
      simp at hlast
  | cons t us =>
      rw [Seam.left, Seam.right, List.cons_append, List.cons_append]
      simp only [synchronize]
      split
      · exact ⟨t :: us, n, List.suffix_refl _, rfl, rfl⟩
      · obtain ⟨vs, n', hv, hleft, hright⟩ := skipFrom_settles (S := S) h (n + 1) ds
        exact ⟨vs, n', hv.trans (List.suffix_cons t us), hleft, hright⟩

/-- **A declaration in front of the seam is read in the same way whatever follows.**  Nothing may be
reported at the seam, where the end of the text could be what is wrong, and where something is
reported the tokens have to end with a semicolon, behind which giving up stops. -/
theorem declaration_settles {inFunction : Bool} {depth : Nat} {us : List Token} {n : Nat}
    {ds : List Diagnostic} {o : Option Node} {s : State}
    (h : declaration inFunction depth (S.left us n ds) = .done o s)
    (hseam : ∀ d ∈ s.diagnostics, S.first.head? ≠ some d.token)
    (hends : s.diagnostics = [] ∨ EndsStatement us) :
    ∃ vs n' ds', s = S.left vs n' ds' ∧ vs <:+ us ∧
      declaration inFunction depth (S.right us n ds) = .done o (S.right vs n' ds') := by
  obtain ⟨body, hbody, heq⟩ := (statement_closes_declaration (S := S) depth).2 inFunction
  rw [heq] at h ⊢
  obtain ⟨a, s', hs, hr⟩ | ⟨vs, n', ds', d, hv, hn, hd, hr, hr'⟩ :=
    recover_cases hbody.crosses us n ds
  · rw [hr] at h
    cases h
    obtain ⟨vs, n', ds', hs', hv, -, hright⟩ := hbody.settles us n ds a s hs
    exact ⟨vs, n', ds', hs', hv, by rw [recover, hright]⟩
  · rw [hr] at h
    obtain ⟨_, s', hsync, hs⟩ := bind_eq_done h
    cases hs
    have hmem : d ∈ s.diagnostics := by
      rw [synchronize_diagnostics hsync]
      exact List.mem_concat_self
    -- at the seam the diagnostic would be at the token for the end
    have hne : vs ≠ [] := by
      rintro rfl
      exact hseam d hmem hd
    have hus : EndsStatement us :=
      hends.resolve_left fun hnil => by rw [hnil] at hmem; cases hmem
    obtain ⟨ws, n₁, hw, hleft, hright⟩ :=
      synchronize_settles (S := S) (hus.of_suffix hv hne) n' (ds' ++ [d])
    rw [hleft] at hsync
    cases hsync
    exact ⟨ws, n₁, _, rfl, hw.trans hv, (hr' (.inl hne)).trans (bind_of_done hright)⟩

end Parser

end Lox
