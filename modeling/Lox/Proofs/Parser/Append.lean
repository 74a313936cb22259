import Lox.Proofs.Parser.Program
import Lox.Proofs.Parser.Recovery

/-!
# Programs one behind the other

Two lists of tokens are read one behind the other as each of them is read by itself.

* `programFrom_done`: the loop over the declarations of a list always comes to its end.
* `programFrom_settles`: the loop over the declarations of the first list arrives at the seam in both
  runs, with the same declarations and the same diagnostics.
* `diagnostics_parseWithin_append`: so the diagnostics of both lists together are those of the first
  and then those of the second, and so are the statements where there are none.
-/

namespace Lox

namespace Parser

variable {S : Seam} {depth : Nat}

/-! ### Reading comes to an end -/

/-- Skipping ends at the seam, if not before. -/
theorem skipFrom_done (last : Kind) (us : List Token) (n : Nat) (ds : List Diagnostic) :
    ∃ s, skipFrom last (us ++ S.first) n ds = .done () s := by
  induction us generalizing last n with
  | nil =>
      obtain ⟨t, rest, hfirst, ht⟩ := S.ended
      exact ⟨⟨S.first, n, ds⟩, by simp [hfirst, skipFrom, ht]⟩
  | cons t us ih =>
      rw [List.cons_append, skipFrom]
      split
      · exact ⟨_, rfl⟩
      · exact ih t.kind (n + 1)

theorem synchronize_done (us : List Token) (n : Nat) (ds : List Diagnostic) :
    ∃ s, synchronize (S.left us n ds) = .done () s := by
  obtain ⟨t, rest, hnext, -⟩ := S.next us
  simp only [Seam.left, hnext, synchronize]
  split
  · exact ⟨_, rfl⟩
  · cases us with
    | nil =>
        obtain ⟨e, rest', hfirst, he⟩ := S.ended
        rw [hfirst] at hnext
        cases hnext
        contradiction
    | cons u us =>
        cases hnext
        exact skipFrom_done t.kind us (n + 1) ds

/-- A declaration that starts before the seam is read or given up, and the run goes on. -/
theorem declaration_done (depth : Nat) (inFunction : Bool) (us : List Token) (n : Nat)
    (ds : List Diagnostic) :
    ∃ o s, declaration inFunction depth (S.left us n ds) = .done o s := by
  obtain ⟨body, hbody, heq⟩ := (statement_closes_declaration (S := S) depth).2 inFunction
  rw [heq]
  obtain ⟨a, s, -, hr⟩ | ⟨vs, n', ds', d, -, -, -, hr, -⟩ := recover_cases hbody.crosses us n ds
  · exact ⟨some a, s, hr⟩
  · obtain ⟨s, hs⟩ := synchronize_done (S := S) vs n' (ds' ++ [d])
    exact ⟨none, s, hr.trans (bind_of_done hs)⟩

/-! ### The loop over declarations -/

/-- The loop of `program`. -/
def programFrom (depth : Nat) : List Token → List Node → Parser (List Node) :=
  itemsFrom (fun t => t.kind = .eof) (declaration false depth)

/-- At the token for the end, the loop is over. -/
theorem programFrom_end {s : State} {e : Token} {rest : List Token} (hs : s.rest = e :: rest)
    (he : e.kind = .eof) (b : Token) (bound : List Token) (found : List Node) :
    programFrom depth (b :: bound) found s = .done found.reverse s := by
  simp [programFrom, itemsFrom, hs, he]

/-- A round of the loop. -/
theorem programFrom_step {s s' : State} {t : Token} {rest : List Token} {o : Option Node}
    (hs : s.rest = t :: rest) (ht : t.kind ≠ .eof)
    (h : declaration false depth s = .done o s') (b : Token) (bound : List Token)
    (found : List Node) :
    programFrom depth (b :: bound) found s = programFrom depth bound (o.toList ++ found) s' := by
  cases o with
  | none => simp [programFrom, itemsFrom, hs, ht, h]
  | some d => simp [programFrom, itemsFrom, hs, ht, h]

/-- The loop over the declarations of the first list, by induction on what is left of it. -/
theorem programFrom_crosses (depth : Nat) {bound bound' us : List Token}
    (hb : S.Bounds us bound bound') (found : List Node) (n : Nat) (ds : List Diagnostic) :
    (programFrom depth bound found (S.left us n ds)).Crosses S us n
      (programFrom depth bound' found (S.right us n ds)) :=
  itemsFrom_crosses (fun t h => by simp [h]) (declaration_crosses false depth)
    (declaration_takes false depth) bound bound' found n ds hb

/-- One declaration of the first run. -/
theorem declaration_left (depth : Nat) {t : Token} (ht : t.kind ≠ .eof) (us : List Token) (n : Nat)
    (ds : List Diagnostic) :
    ∃ o vs n' ds', declaration false depth (S.left (t :: us) n ds) = .done o (S.left vs n' ds') ∧
      vs <:+ t :: us ∧ n' + vs.length = n + (t :: us).length ∧ vs.length < (t :: us).length := by
  obtain ⟨o, s, h⟩ := declaration_done (S := S) depth false (t :: us) n ds
  have hc := declaration_crosses (S := S) false depth (t :: us) n ds
  rw [h] at hc
  obtain ⟨vs, n', ds', rfl, hv, hn, -⟩ := hc.of_done
  exact ⟨o, vs, n', ds', h, hv, hn, declaration_takes false depth t us n ds o vs n' ds' ht h⟩

/-- Diagnostics are only added: the tokens of a seam may go on in the same way behind it, and then
what was reported before stays in front. -/
theorem programFrom_diagnostics {bound : List Token} {found as : List Node} {us : List Token}
    {n : Nat} {ds : List Diagnostic} {s : State}
    (hb : us.length + S.first.length ≤ bound.length)
    (h : programFrom depth bound found (S.left us n ds) = .done as s) : ds <+: s.diagnostics := by
  obtain ⟨t, rest, hfirst, ht⟩ := S.ended
  let F : Seam := ⟨S.first, S.first, 0, ds, S.ended, ⟨t, rest, hfirst, by simp [ht]⟩⟩
  have hc := programFrom_crosses depth (show F.Bounds us bound bound from ⟨hb, hb⟩) found n []
  have hright : F.right us n [] = S.left us n ds := by simp [F, Seam.right, Seam.left]
  rw [hright, h] at hc
  generalize programFrom depth bound found (F.left us n []) = r at hc
  cases hc with
  | done _ _ heq =>
      cases heq (.inr rfl)
      exact List.prefix_append _ _
  | stop _ _ _ heq => cases heq (.inr rfl)

/-- The loop comes to the end of the tokens, and gives what was found before and what is found now. -/
theorem programFrom_done (depth : Nat) {us : List Token} (hus : ∀ t ∈ us, t.kind ≠ .eof)
    {bound : List Token} (hb : us.length + S.first.length ≤ bound.length) (n : Nat)
    (ds : List Diagnostic) :
    ∃ as ds', ∀ found, programFrom depth bound found (S.left us n ds) =
      .done (found.reverse ++ as) (S.left [] (n + us.length) ds') := by
  obtain ⟨e, rest, hfirst, he⟩ := S.ended
  induction bound generalizing us n ds with
  | nil => simp [hfirst] at hb
  | cons b bound ih =>
      cases us with
      | nil =>
          refine ⟨[], ds, fun found => ?_⟩
          rw [List.append_nil]
          exact programFrom_end hfirst he b bound found
      | cons t us =>
          have ht := hus t List.mem_cons_self
          obtain ⟨o, vs, n', ds', h, hv, hn, hlt⟩ :=
            declaration_left (S := S) depth ht us n ds
          have hle : vs.length + S.first.length ≤ bound.length := by
            simp only [List.length_cons] at hb hlt
            omega
          obtain ⟨as, ds'', hrest⟩ := ih (fun u hu => hus u (hv.mem hu)) hle n' ds'
          refine ⟨o.toList ++ as, ds'', fun found => ?_⟩
          rw [programFrom_step rfl ht h, hrest, hn]
          cases o with
          | none => rfl
          | some d => simp

/-- **The loop arrives at the seam in both runs**, with the same declarations found and the same
diagnostics, where nothing is reported at the seam and the tokens end with a semicolon in case that
something is reported at all. -/
theorem programFrom_settles {bound bound' : List Token} {found as : List Node} {us : List Token}
    {n n' : Nat} {ds ds' : List Diagnostic} (hb : S.Bounds us bound bound')
    (hus : ∀ t ∈ us, t.kind ≠ .eof)
    (h : programFrom depth bound found (S.left us n ds) = .done as (S.left [] n' ds'))
    (hseam : ∀ d ∈ ds', S.first.head? ≠ some d.token)
    (hends : ds' = [] ∨ us = [] ∨ EndsStatement us) :
    ∃ rest, S.second.length ≤ rest.length ∧ programFrom depth bound' found (S.right us n ds) =
      programFrom depth rest as.reverse (S.right [] n' ds') := by
  induction bound generalizing bound' found us n ds with
  | nil =>
      obtain ⟨_, _, _, _, h, -⟩ := hb.round
      cases h
  | cons b bound ih =>
      cases us with
      | nil =>
          -- the first part is used up: its own end mark is next
          obtain ⟨e, rest, hfirst, he⟩ := S.ended
          rw [programFrom_end (by exact hfirst) he] at h
          injection h with has hs
          obtain ⟨-, rfl, rfl⟩ := Seam.left_inj.mp hs
          refine ⟨bound', by simpa using hb.2, ?_⟩
          rw [← has, List.reverse_reverse]
      | cons t us =>
          obtain ⟨_, _, b', rest', heq, rfl, hround⟩ := hb.round
          cases heq
          have ht := hus t List.mem_cons_self
          obtain ⟨o, vs, n₁, ds₁, hd, hv, -, hlt⟩ :=
            declaration_left (S := S) depth ht us n ds
          rw [programFrom_step (by rfl) ht hd] at h
          have hgrows : ds₁ <+: ds' := programFrom_diagnostics (hround vs hlt).1 h
          -- one more declaration of the first part
          have hends₁ : ds₁ = [] ∨ EndsStatement (t :: us) := by
            rcases hends with rfl | hnil | hends
            · exact .inl (List.prefix_nil.mp hgrows)
            · cases hnil
            · exact .inr hends
          obtain ⟨ws, n₂, ds₂, hs, -, hd'⟩ :=
            declaration_settles hd (fun d hm => hseam d (hgrows.mem hm)) hends₁
          obtain ⟨rfl, rfl, rfl⟩ := Seam.left_inj.mp hs
          rw [programFrom_step (by rfl) ht hd']
          refine ih (hround vs hlt) (fun u hu => hus u (hv.mem hu)) h ?_
          rcases hends with hnil | hnil | hends
          · exact .inl hnil
          · cases hnil
          · exact .inr ((Classical.em (vs = [])).imp_right (hends.of_suffix hv))

end Parser

/-! ### Two lists -/

/-- What is reported in a list of tokens. -/
def Parsed.diagnostics (p : Parsed) : List Diagnostic :=
  match p.result with
  | .error (.rejected ds) => ds
  | _ => []

open Lox.Parser

variable {depth : Nat}

/-- A loop that comes to its end gives the diagnostics and the statements of the list. -/
theorem parseWithin_of_done {tokens rest : List Token} {statements : List Node} {n : Nat}
    {ds : List Diagnostic}
    (h : programFrom depth tokens [] ⟨tokens, 0, []⟩ = .done statements ⟨rest, n, ds⟩) :
    (parseWithin depth tokens).diagnostics = ds ∧
      (ds = [] → (parseWithin depth tokens).result = .ok statements) := by
  have h' : Parser.program depth ⟨tokens, 0, []⟩ = .done statements ⟨rest, n, ds⟩ := h
  rw [parseWithin, h']
  cases ds with
  | nil => exact ⟨rfl, fun _ => rfl⟩
  | cons d ds => exact ⟨rfl, fun h => by cases h⟩

/-- **A broken statement does not disturb its neighbours.**  A list of tokens up to a token for its
end is read, and nothing is reported at that token; where something is reported, the list ends with a
semicolon.  Then another list behind it, one that does not start with `else`, is read as by itself:
the diagnostics of both lists are those of the first, and then those of the second with their
positions moved behind the first, and the statements are those of the first and then those of the
second if nothing is reported in either.  This holds with any limit on the nesting, and so for
`parse`. -/
theorem diagnostics_parseWithin_append (depth : Nat) {us vs : List Token} {eof eof' : Token}
    (hus : ∀ t ∈ us, t.kind ≠ .eof) (hvs : ∀ t ∈ vs, t.kind ≠ .eof) (heof : eof.kind = .eof)
    (heof' : eof'.kind = .eof)
    (hseam : ∀ d ∈ (parseWithin depth (us ++ [eof])).diagnostics, d.token ≠ eof)
    (hends : (parseWithin depth (us ++ [eof])).diagnostics = [] ∨
      ∃ ts t, us = ts ++ [t] ∧ t.kind = .semicolon)
    (helse : ∀ t, vs.head? = some t → t.kind ≠ .elseWord) :
    (parseWithin depth (us ++ (vs ++ [eof']))).diagnostics =
        (parseWithin depth (us ++ [eof])).diagnostics ++
          (parseWithin depth (vs ++ [eof'])).diagnostics.map (·.moved us.length) ∧
      ((parseWithin depth (us ++ [eof])).diagnostics = [] →
        (parseWithin depth (vs ++ [eof'])).diagnostics = [] →
        ∃ p q, (parseWithin depth (us ++ [eof])).result = .ok p ∧
          (parseWithin depth (vs ++ [eof'])).result = .ok q ∧
          (parseWithin depth (us ++ (vs ++ [eof']))).result = .ok (p ++ q)) := by
  obtain ⟨u, rest, hnext, hu⟩ : ∃ t rest, vs ++ [eof'] = t :: rest ∧ t.kind ≠ .elseWord := by
    cases vs with
    | nil => exact ⟨eof', [], rfl, by simp [heof']⟩
    | cons t vs => exact ⟨t, vs ++ [eof'], rfl, helse t rfl⟩
  let S : Seam := ⟨[eof], vs ++ [eof'], 0, [], ⟨eof, [], rfl, heof⟩, ⟨u, rest, hnext, hu⟩⟩
  -- the first list by itself
  obtain ⟨p, ds, hfirst⟩ := programFrom_done (S := S) depth hus (S.bounds_self us).1 0 []
  obtain ⟨hdiag, hok⟩ := parseWithin_of_done (hfirst [])
  rw [hdiag] at hseam hends ⊢
  -- the second list by itself, and behind the first one
  let T : Seam := ⟨[eof'], [eof'], us.length, ds, ⟨eof', [], rfl, heof'⟩,
    ⟨eof', [], rfl, by simp [heof']⟩⟩
  obtain ⟨q, ds', hsecond⟩ := programFrom_done (S := T) depth hvs (T.bounds_self vs).1 0 []
  obtain ⟨hdiag', hok'⟩ := parseWithin_of_done (hsecond [])
  rw [hdiag']
  -- both lists: the loop arrives at the seam, and goes on with the second list from there
  obtain ⟨rest, hrest, hboth⟩ := programFrom_settles (S.bounds_self us) hus (hfirst [])
    (fun d hd h => hseam d hd (Option.some.inj h).symm) (hends.imp_right .inr)
  have hmeet : S.right [] (0 + us.length) ds = T.right vs 0 [] := by
    simp [S, T, Seam.right, Diagnostic.moved]
  have hbehind := programFrom_crosses depth (show T.Bounds vs (vs ++ [eof']) rest from
    ⟨(T.bounds_self vs).1, by simpa [S, T] using hrest⟩) p.reverse 0 []
  rw [hsecond, ← hmeet] at hbehind
  obtain ⟨_, _, _, hs, -, -, hdone⟩ := hbehind.of_done
  obtain ⟨rfl, rfl, rfl⟩ := Seam.left_inj.mp hs
  have hall := hboth.trans (hdone (.inr rfl))
  rw [List.reverse_reverse] at hall
  obtain ⟨hdiag'', hok''⟩ := parseWithin_of_done hall
  refine ⟨hdiag'', fun hnil hnil' => ⟨p, q, hok hnil, hok' hnil', hok'' ?_⟩⟩
  simp [T, hnil, hnil']

/-- `x y;` is broken at its second token, and `print;` behind it at the fifth one of all. -/
theorem diagnostics_parseWithin_append_broken :
    let token kind text := Token.ofText kind text .null 1
    let us := [token .identifier "x", token .identifier "y", token .semicolon ";"]
    let vs := [token .printWord "print", token .semicolon ";"]
    let eof := token .eof ""
    (parse (us ++ [eof])).diagnostics =
        [⟨.expectSemicolonAfterExpression, token .identifier "y", 1⟩] ∧
      (parse (us ++ (vs ++ [eof]))).diagnostics =
        [⟨.expectSemicolonAfterExpression, token .identifier "y", 1⟩,
          ⟨.expectExpression, token .semicolon ";", 4⟩] := by
  intro token us vs eof
  have hus : (parse (us ++ [eof])).diagnostics =
      [⟨.expectSemicolonAfterExpression, token .identifier "y", 1⟩] := by cbv
  have hvs : (parse (vs ++ [eof])).diagnostics =
      [⟨.expectExpression, token .semicolon ";", 1⟩] := by cbv
  have hseam : ∀ d ∈ (parse (us ++ [eof])).diagnostics, d.token ≠ eof := by
    intro d hd
    rw [hus, List.mem_singleton] at hd
    rw [hd]
    decide
  have hends : (parse (us ++ [eof])).diagnostics = [] ∨
      ∃ ts t, us = ts ++ [t] ∧ t.kind = .semicolon :=
    .inr ⟨[token .identifier "x", token .identifier "y"], token .semicolon ";", rfl, rfl⟩
  have helse : ∀ t, vs.head? = some t → t.kind ≠ .elseWord := by
    intro t ht
    cases ht
    decide
  have happend := (diagnostics_parseWithin_append nestingLimit (by decide : ∀ t ∈ us, t.kind ≠ .eof)
    (by decide : ∀ t ∈ vs, t.kind ≠ .eof) (rfl : eof.kind = .eof) (rfl : eof.kind = .eof) hseam
    hends helse).1
  refine ⟨hus, happend.trans ?_⟩
  rw [← parse, ← parse, hus, hvs]
  rfl

end Lox
