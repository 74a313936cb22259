import Mathlib.Data.Nat.Cast.Field
import Lox.Eval
import Lox.Proofs.Number.Digits
import Lox.Proofs.Parser.Expression
import Lox.Proofs.Token.Respaced

/-!
# Printed numbers are expressions

What is printed for a finite number is a text of the language, and its value is that number.

* `Number.display_spells`: a printed number is its sign and digits, with a point among them or without one,
  and these stand for a decimal that is rounded to the number.
* `Spells.denotes`: such a text is an expression; a sign in front of it is the operator of a negation.
* `Number.display_denotes`: so the value of the text is the number itself, and no two numbers share a text.
-/

namespace Lox

open Lexer (IsDigit)

/-- The whole text is an expression, and always has this value. -/
def Denotes (text : String) (v : Value) : Prop :=
  ∃ ts last e, scan text = .ok (ts ++ [last]) ∧
    (∀ depth, 3 ≤ depth → Parser.assignment depth ⟨ts ++ [last], 0, []⟩ =
      .done e ⟨[last], ts.length, []⟩) ∧
    ∀ config frames m, 2 ≤ frames → evaluate config frames e m = .ok v m

/-- A text has one value at most. -/
theorem Denotes.unique {text : String} {v w : Value} (hv : Denotes text v) (hw : Denotes text w) :
    v = w := by
  obtain ⟨ts, last, e, hscan, hparse, heval⟩ := hv
  obtain ⟨ts', last', e', hscan', hparse', heval'⟩ := hw
  obtain ⟨rfl, hlast⟩ := List.append_inj' (Except.ok.inj (hscan.symm.trans hscan')) rfl
  cases hlast
  obtain ⟨rfl, -⟩ := Parser.Outcome.done.inj ((hparse 3 (by decide)).symm.trans (hparse' 3 (by decide)))
  exact (Result.ok.inj ((heval default 2 default (by decide)).symm.trans
    (heval' default 2 default (by decide)))).1

/-! ### Digits with and without a point -/

/-- Digits, one at least. -/
def Digits (cs : List Char) : Prop := cs ≠ [] ∧ ∀ c ∈ cs, IsDigit c

/-- A text of the form `[0-9]+(\.[0-9]+)?`, and the decimal that it stands for. -/
inductive Spells : List Char → Decimal → Prop where
  | whole {ds : List Char} (h : Digits ds) : Spells ds (.ofPlaces ds [])
  | places {ds es : List Char} (hd : Digits ds) (he : Digits es) :
      Spells (ds ++ '.' :: es) (.ofPlaces ds es)

namespace Spells

variable {cs : List Char} {d : Decimal}

/-- The text is a terminal of the language, and its value is the number nearest to the decimal. -/
theorem isTerminal (h : Spells cs d) :
    Lexer.Chunk.IsTerminal ⟨some .number, cs, .float (d.toNumber false)⟩ ∧
      Lexer.literalOf .number cs = .float (d.toNumber false) := by
  cases h with
  | whole h =>
      refine ⟨.whole h.1 h.2, congrArg Json.float (Lexer.numeralValue_whole fun c hc => ?_)⟩
      exact Lexer.isDigit_iff.mpr (h.2 c hc)
  | places hd he =>
      refine ⟨.fraction hd.1 hd.2 he.1 he.2,
        congrArg Json.float (Lexer.numeralValue_fraction fun c hc => ?_)⟩
      exact Lexer.isDigit_iff.mpr (hd.2 c hc)

/-- The text alone is cut into one number, which is read as a literal. -/
theorem piece? (h : Spells cs d) : Lexer.piece? cs = some ⟨some .number, cs, []⟩ :=
  Lexer.piece?_lexed_end h.isTerminal.1

end Spells

theorem digits_toDigits (n : ℕ) : Digits (Nat.toDigits 10 n) :=
  ⟨Nat.toDigits_ne_nil, fun _ hc => Lexer.isDigit_iff.mp (isDigit_of_mem_toDigits hc)⟩

/-! ### What is printed -/

/-- A finite number without a fractional part is rounded from its own digits. -/
theorem Number.magnitude_integral {x : Number} (hx : x.isIntegral = true) :
    (Decimal.ofPlaces (Nat.toDigits 10 (x.fraction.1 / x.fraction.2)) []).magnitude =
      x.magnitude := by
  obtain ⟨hfinite, hmod⟩ : x.isFinite = true ∧ x.fraction.1 % x.fraction.2 = 0 := by
    simpa [Number.isIntegral] using hx
  have hdvd : x.fraction.2 ∣ x.fraction.1 := Nat.dvd_of_mod_eq_zero hmod
  have hden : 0 < x.fraction.2 := Nat.pow_pos Nat.two_pos
  rw [Decimal.ofPlaces, List.append_nil, Decimal.valueOf_toDigits]
  by_cases h0 : x.magnitude = 0
  · have hzero : x.fraction.1 = 0 := by simp [Number.fraction, Number.significand, h0, Number.hiddenBit]
    rw [hzero, Nat.zero_div, h0]
    rfl
  · have hnum : 0 < x.fraction.1 := Nat.mul_pos (Number.significand_pos h0) (Nat.pow_pos Nat.two_pos)
    have hdigits : x.fraction.1 / x.fraction.2 ≠ 0 :=
      (Nat.div_pos (Nat.le_of_dvd hnum hdvd) hden).ne'
    have hvalue : ((x.fraction.1 / x.fraction.2 : ℕ) : ℚ) = x.significand * (2 : ℚ) ^ x.exponent := by
      rw [Nat.cast_div hdvd (by exact_mod_cast hden.ne'), two_zpow_eq_div]
      simp only [Number.fraction, Nat.pow_eq]
      push_cast
      ring
    unfold Decimal.magnitude
    rw [if_neg hdigits, if_neg (by simp), if_neg (by simp only [List.length_nil]; omega)]
    exact Number.nearestMagnitude_of_value hfinite h0 (by simp [Decimal.fraction])
      (by simpa [Decimal.fraction] using hvalue)

/-- **What is printed for a finite number** is its sign and the digits of a decimal that is rounded to it. -/
theorem Number.display_spells {x : Number} (hx : x.isFinite = true) :
    ∃ cs d, x.display.toList = (if x.isNegative then ['-'] else []) ++ cs ∧ Spells cs d ∧
      d.magnitude = x.magnitude := by
  have hlt : x.magnitude < Number.infinityMagnitude := of_decide_eq_true hx
  have hsign : (if x.isNegative then "-" else "").toList = if x.isNegative then ['-'] else [] := by
    split <;> rfl
  unfold Number.display
  rw [if_neg (Number.not_isNaN hx)]
  dsimp only
  rw [if_neg (Number.not_isInfinite hx)]
  by_cases hint : x.isIntegral = true
  · refine ⟨_, _, ?_, .whole (digits_toDigits _), Number.magnitude_integral hint⟩
    rw [if_pos hint, String.toList_append, hsign, Nat.toString_eq_repr, Nat.toList_repr]
  · have h0 : x.magnitude ≠ 0 := fun h0 => hint <| by
      simp [Number.isIntegral, hx, Number.fraction, Number.significand, h0, Number.hiddenBit]
    have hshort := Number.magnitude_shortest hx h0
    have hdigits : x.shortest.digits ≠ 0 := fun hzero => h0 (hshort.symm.trans (if_pos hzero))
    -- a larger exponent would make the decimal infinite
    have h400 : x.shortest.exponent ≤ 400 := by
      by_contra hlarge
      rw [Decimal.magnitude, if_neg hdigits, if_pos (by omega)] at hshort
      omega
    obtain ⟨whole, places, htext, hwhole, hplaces, hne, hmagnitude⟩ :=
      Decimal.positional_eq (Nat.pos_of_ne_zero hdigits) h400
    refine ⟨_, _, ?_, .places ?_ ⟨hne, fun c hc => Lexer.isDigit_iff.mp (hplaces c hc)⟩,
      hmagnitude.trans hshort⟩
    · rw [if_neg hint, String.toList_append, hsign, htext]
    · obtain rfl | ⟨hall, c, cs, rfl, -⟩ := hwhole
      · exact ⟨by simp, by simp [IsDigit]⟩
      · exact ⟨by simp, fun c hc => Lexer.isDigit_iff.mp (hall c hc)⟩

/-! ### What it denotes -/

/-- A bit above all bits of a number is added by turning it over. -/
theorem xor_two_pow {m k : ℕ} (h : m < 2 ^ k) : m ^^^ 2 ^ k = 2 ^ k + m := by
  refine Nat.eq_of_testBit_eq fun i => ?_
  have hsum := Nat.two_pow_add_eq_or_of_lt h 1
  rw [Nat.mul_one] at hsum
  rw [hsum, Nat.testBit_xor, Nat.testBit_or, Nat.testBit_two_pow]
  by_cases hi : k = i
  · subst hi
    simp [Nat.testBit_lt_two_pow h]
  · simp [hi]

/-- A negation turns the sign of a rounded decimal over. -/
theorem Decimal.neg_toNumber (d : Decimal) : (d.toNumber false).neg = d.toNumber true := by
  have hle : d.magnitude ≤ 2047 * 2 ^ 52 := d.magnitude_le
  have hlow : d.magnitude < 2 ^ 63 := by omega
  have hlt : ∀ n, n ≤ 2 ^ 63 → n + d.magnitude < UInt64.size := fun n hn => by
    show _ < 2 ^ 64
    omega
  have hxor : UInt64.ofNat (0 + d.magnitude) ^^^ 0x8000000000000000 =
      UInt64.ofNat (2 ^ 63 + d.magnitude) := by
    apply UInt64.toNat_inj.mp
    rw [UInt64.toNat_xor, UInt64.toNat_ofNat_of_lt' (hlt 0 (by decide)),
      UInt64.toNat_ofNat_of_lt' (hlt (2 ^ 63) (by decide)), Nat.zero_add]
    exact xor_two_pow hlow
  exact congrArg Number.mk hxor

/-- An expression that is nested twice at most, with a value that takes two steps at most. -/
theorem denotes_of_expression {text : String} {ts : List Token} {line : Nat} {e : Node} {v : Value}
    (hscan : scan text = .ok (ts ++ [Lexer.endToken line]))
    (hexpression : ∀ n, Grammar.Expression (n + 3) ts e)
    (hvalue : ∀ config frames m, evaluate config (frames + 2) e m = .ok v m) : Denotes text v := by
  have heof : Kind.eof ∉ Parser.goesOn := by decide
  refine ⟨ts, _, e, hscan, fun depth hdepth => ?_, fun config frames m hframes => ?_⟩
  · obtain ⟨n, rfl⟩ := Nat.exists_eq_add_of_le' hdepth
    have hreads := Parser.assignment_reads (hexpression n)
      (Parser.clear_cons (t := Lexer.endToken line) heof []) 0 []
    rwa [Nat.zero_add] at hreads
  · obtain ⟨n, rfl⟩ := Nat.exists_eq_add_of_le' hframes
    exact hvalue config n m

/-- A number by itself is an operand. -/
theorem unary_number (n : Nat) {t : Token} (h : t.kind = .number) :
    Grammar.Unary (n + 1) [t] (.literal (Node.ofLiteral t.literal)) := by
  rw [Grammar.Unary]
  exact .call (.primary (.number h))

/-- An operand by itself is an expression. -/
theorem expression_of_unary {n : Nat} {ts : List Token} {e : Node} (h : Grammar.Unary n ts e) :
    Grammar.Expression (n + 1) ts e := by
  rw [Grammar.Expression]
  exact .plain (.of_operand h)

/-- **Signed digits are an expression**, whose value is the number nearest to the decimal. -/
theorem Spells.denotes {cs : List Char} {d : Decimal} (h : Spells cs d) {negative : Bool}
    {text : String} (htext : text.toList = (if negative then ['-'] else []) ++ cs) :
    Denotes text (.number (d.toNumber negative)) := by
  have hliteral := h.isTerminal.2
  cases negative with
  | false =>
      have hcuts : Lexer.Cuts .start text.toList [Lexer.tokenOf .number cs 1]
          (Position.start.after cs) := by
        rw [htext]
        exact .piece h.piece? .nil
      refine denotes_of_expression (e := .literal (Node.ofLiteral (Lexer.literalOf .number cs)))
        (scan_eq_ok_iff.mpr ⟨_, _, hcuts, rfl⟩) (fun n => ?_) fun config frames m => ?_
      · exact expression_of_unary (unary_number (n + 1) rfl)
      · rw [hliteral]
        rfl
  | true =>
      have hoperator : Kind.minus ∈ [Kind.bang, Kind.minus] := by decide
      have hminus : Lexer.piece? ('-' :: cs) = some ⟨some .minus, ['-'], cs⟩ := rfl
      have hcuts : Lexer.Cuts .start text.toList
          [Lexer.tokenOf .minus ['-'] 1, Lexer.tokenOf .number cs 1]
          ((Position.start.after ['-']).after cs) := by
        rw [htext]
        exact .piece hminus (.piece h.piece? .nil)
      refine denotes_of_expression (e := .unary (Lexer.tokenOf .minus ['-'] 1)
        (.literal (Node.ofLiteral (Lexer.literalOf .number cs))))
        (scan_eq_ok_iff.mpr ⟨_, _, hcuts, rfl⟩) (fun n => ?_) fun config frames m => ?_
      · refine expression_of_unary ?_
        rw [Grammar.Unary]
        exact .operator hoperator (unary_number n rfl)
      · rw [← d.neg_toNumber, hliteral]
        rfl

/-- A text of the form `-?[0-9]+(\.[0-9]+)?`. -/
def IsPlain (text : String) : Prop :=
  ∃ sign whole point, text.toList = sign ++ whole ++ point ∧ (sign = [] ∨ sign = ['-']) ∧ Digits whole ∧
    (point = [] ∨ ∃ places, Digits places ∧ point = '.' :: places)

/-- **Printed numbers are expressions.**  What is printed for a finite number has no exponent, its value is
the number bit for bit, and no other finite number is printed like it. -/
theorem Number.display_denotes {x : Number} (hx : x.isFinite = true) :
    IsPlain x.display ∧ Denotes x.display (.number x) ∧
      ∀ y : Number, y.isFinite = true → y.display = x.display → y = x := by
  have hdenotes : ∀ y : Number, y.isFinite = true → Denotes y.display (.number y) := fun y hy => by
    obtain ⟨cs, d, htext, hspells, hmagnitude⟩ := Number.display_spells hy
    have h := hspells.denotes htext
    rwa [Decimal.toNumber_eq hmagnitude] at h
  refine ⟨?_, hdenotes x hx, fun y hy heq => ?_⟩
  · obtain ⟨cs, d, htext, hspells, -⟩ := Number.display_spells hx
    have hsign : (if x.isNegative then ['-'] else []) = [] ∨
        (if x.isNegative then ['-'] else []) = ['-'] := by
      cases x.isNegative
      · exact .inl rfl
      · exact .inr rfl
    cases hspells with
    | whole h => exact ⟨_, cs, [], by rw [htext, List.append_nil], hsign, h, .inl rfl⟩
    | @places ds es hd he =>
        exact ⟨_, ds, _, by rw [htext, List.append_assoc], hsign, hd, .inr ⟨es, he, rfl⟩⟩
  · exact Value.number.inj ((heq ▸ hdenotes y hy).unique (hdenotes x hx))

/-- A negative zero, and a small number that has an exponent in its short spelling. -/
theorem Number.display_denotes_small :
    (IsPlain "-0" ∧ Denotes "-0" (.number ⟨0x8000000000000000⟩)) ∧
      IsPlain "-0.0000001" ∧ Denotes "-0.0000001" (.number ⟨0xbe7ad7f29abcaf48⟩) := by
  have hzero : Number.display ⟨0x8000000000000000⟩ = "-0" := by decide +kernel
  have hsmall : Number.display ⟨0xbe7ad7f29abcaf48⟩ = "-0.0000001" := by decide +kernel
  have h := @Number.display_denotes ⟨0x8000000000000000⟩ (by decide +kernel)
  have h' := @Number.display_denotes ⟨0xbe7ad7f29abcaf48⟩ (by decide +kernel)
  rw [hzero] at h
  rw [hsmall] at h'
  exact ⟨⟨h.1, h.2.1⟩, h'.1, h'.2.1⟩

end Lox
