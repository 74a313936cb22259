import Lox.Program
import Lox.Proofs.Grammar.Nesting
import Lox.Proofs.Parser.Statement

/-!
# The parser accepts the grammar

`parseWithin_eq_ok_iff`: with any bound on the nesting, a list of tokens up to a token for its end is
accepted with a tree exactly when the grammar derives that tree from it within the bound.

`parse_eq_ok_iff_derives`: so `parse` accepts the whole grammar, as far as the nesting stays within
its limit.
-/

namespace Lox

open Grammar (Derives NestedWithin)

namespace Parser

/-- What `program` gives is a program of the grammar, up to the end. -/
theorem program_gives (n : Nat) :
    Gives (program n) fun ts statements rest =>
      Grammar.Program n ts statements ∧ ∃ t us, rest = t :: us ∧ t.kind = .eof := by
  refine (itemsUntil_gives ((statement_declaration_gives n).2 false)).mono ?_
  rintro ts statements rest ⟨h, t, us, rfl, ht⟩
  exact ⟨h, t, us, rfl, of_decide_eq_true ht⟩

/-- Every program of the grammar is read up to the end. -/
theorem program_reads {n : Nat} {ts rest : List Token} {statements : List Node} {t : Token}
    (h : Grammar.Program n ts statements) (ht : t.kind = .eof) :
    Reads (program n) ts statements (t :: rest) := by
  have hk : ∀ k ∈ declarationStarts, k ≠ .eof := by decide
  refine itemsUntil_reads [.elseWord] (by decide) (fun t' ht' => ?_)
    declaration_startsWith (statement_declaration_reads n).2 h (by simp [ht]) (by simp [ht])
  simpa using hk _ ht'

end Parser

/-- A list that ends with its only token for the end is divided at one only at its end. -/
theorem append_eof_inj {ts us rest : List Token} {eof t : Token}
    (hts : ∀ t ∈ ts, t.kind ≠ .eof) (ht : t.kind = .eof) (h : ts ++ [eof] = us ++ t :: rest) :
    us = ts := by
  induction ts generalizing us with
  | nil =>
      cases us with
      | nil => rfl
      | cons u us => simp at h
  | cons t' ts ih =>
      cases us with
      | nil =>
          obtain ⟨rfl, -⟩ := List.cons.inj h
          exact absurd ht (hts _ List.mem_cons_self)
      | cons u us =>
          obtain ⟨rfl, h'⟩ := List.cons.inj h
          rw [ih (fun t'' hm => hts t'' (List.mem_cons_of_mem _ hm)) h']

/-- **The grammar, within a bound.**  The parser accepts a list with a tree exactly when the grammar
derives the tree from it within the bound on the nesting. -/
theorem parseWithin_eq_ok_iff {ts : List Token} {eof : Token} (hts : ∀ t ∈ ts, t.kind ≠ .eof)
    (he : eof.kind = .eof) (n : Nat) (statements : List Node) :
    (parseWithin n (ts ++ [eof])).result = .ok statements ↔ Grammar.Program n ts statements := by
  constructor
  · intro h
    rw [parseWithin] at h
    split at h
    case h_1 found s hs =>
      cases hd : s.diagnostics with
      | nil =>
          simp only [hd] at h
          cases h
          obtain ⟨-, us, hus, hp, t, rest, hrest, ht⟩ := Parser.program_gives n _ _ _ hs hd
          rw [hrest] at hus
          rwa [← append_eof_inj hts ht hus]
      | cons d ds =>
          simp only [hd] at h
          cases h
    case h_2 | h_3 | h_4 => cases h
  · intro h
    rw [parseWithin, Parser.program_reads h he 0 []]

/-- **The parser accepts exactly the grammar.**  Of a list of tokens that are nested within the
limit, followed by a token for the end, `parse` gives a tree exactly when the grammar derives that
tree from the list. -/
theorem parse_eq_ok_iff_derives {ts : List Token} {eof : Token} (hts : ∀ t ∈ ts, t.kind ≠ .eof)
    (he : eof.kind = .eof) (hn : NestedWithin nestingLimit ts) (statements : List Node) :
    (parse (ts ++ [eof])).result = .ok statements ↔ Derives ts statements := by
  rw [parse, parseWithin_eq_ok_iff hts he]
  exact ⟨fun h => ⟨nestingLimit, h⟩, hn statements⟩

/-- `if (a) if (b) c = -d(e); else { }` and the end: the `else` belongs to the second `if`. -/
theorem parse_eq_ok_iff_derives_nearest_if :
    let token kind text := Token.ofText kind text .null 1
    let ts := [token .ifWord "if", token .leftParen "(", token .identifier "a",
      token .rightParen ")", token .ifWord "if", token .leftParen "(", token .identifier "b",
      token .rightParen ")", token .identifier "c", token .equal "=", token .minus "-",
      token .identifier "d", token .leftParen "(", token .identifier "e", token .rightParen ")",
      token .semicolon ";", token .elseWord "else", token .leftBrace "\x7b",
      token .rightBrace "\x7d"]
    (∀ t ∈ ts, t.kind ≠ .eof) ∧ (token .eof "").kind = .eof ∧ NestedWithin nestingLimit ts ∧
      Derives ts [.branch (.reference (token .identifier "a"))
        (.branch (.reference (token .identifier "b"))
          (.expression (.assign (token .identifier "c") (.unary (token .minus "-")
            (.call (.reference (token .identifier "d")) (token .rightParen ")")
              [.reference (token .identifier "e")]))))
          (.block []))
        .null] := by
  intro token ts
  have hts : ∀ t ∈ ts, t.kind ≠ .eof := by decide
  have hn : NestedWithin nestingLimit ts := Grammar.nestedWithin_of_length (by decide)
  have he : (token .eof "").kind = .eof := rfl
  exact ⟨hts, he, hn, (parse_eq_ok_iff_derives hts he hn _).mp (by cbv)⟩

end Lox
