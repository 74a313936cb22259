import Lox.Number.Decimal
import Lox.Proofs.Number.Nearest

/-!
# The decimal of a number

`Number.shortest` offers a decimal for every finite number, and that decimal is rounded to the
number itself (`Number.magnitude_shortest`).  Where no short decimal was found it is the exact one,
and then the claim is about rounding a value that a pattern stands for.
-/

namespace Lox

namespace Number

/-! ### A pattern and its value -/

theorem significand_pos {x : Number} (h0 : x.magnitude ≠ 0) : 0 < x.significand := by
  unfold significand hiddenBit
  split <;> omega

/-- A significand has 53 bits at most. -/
theorem significand_lt (x : Number) : x.significand < 2 ^ 53 := by
  unfold significand hiddenBit
  split <;> omega

theorem neg_le_exponent (x : Number) : -1074 ≤ x.exponent := by
  unfold exponent hiddenBit
  split <;> omega

/-- It has exactly this many, unless the exponent is the least one. -/
theorem significand_normal (x : Number) : 2 ^ 52 ≤ x.significand ∨ x.exponent = -1074 := by
  unfold significand exponent hiddenBit
  split
  · exact .inr rfl
  · left
    omega

/-- The pattern is put together from the significand and the exponent. -/
theorem magnitude_eq (x : Number) :
    (x.exponent + 1074).toNat * hiddenBit + x.significand = x.magnitude := by
  unfold significand exponent hiddenBit
  split <;> omega

/-- A fraction with the value of a finite number is rounded to that number. -/
theorem nearestMagnitude_of_value {x : Number} (hx : x.isFinite) (h0 : x.magnitude ≠ 0)
    {num den : ℕ} (hd : 0 < den) (hv : (num : ℚ) / den = x.significand * (2 : ℚ) ^ x.exponent) :
    nearestMagnitude num den = x.magnitude := by
  have hlt : x.magnitude < infinityMagnitude := of_decide_eq_true hx
  rw [nearestMagnitude_eq (significand_pos h0) hd hv (neg_le_exponent x) (significand_lt x)
    (significand_normal x), magnitude_eq, min_eq_left hlt.le]

/-! ### Decimals that are rounded to a number -/

/-- The exact decimal of a finite number is rounded to it. -/
theorem magnitude_exactDecimal {x : Number} (hx : x.isFinite) (h0 : x.magnitude ≠ 0) :
    x.exactDecimal.magnitude = x.magnitude := by
  have hpos := significand_pos h0
  unfold exactDecimal
  split
  · rename_i he
    obtain ⟨n, hn⟩ := Int.eq_ofNat_of_zero_le he
    have hdigits : x.significand * Nat.pow 2 x.exponent.toNat ≠ 0 :=
      (Nat.mul_pos hpos (Nat.pow_pos Nat.two_pos)).ne'
    unfold Decimal.magnitude
    rw [if_neg hdigits, if_neg (by dsimp only; omega), if_neg (by dsimp only; omega)]
    refine nearestMagnitude_of_value hx h0 (by simp [Decimal.fraction]) ?_
    simp [Decimal.fraction, hn]
  · rename_i he
    obtain ⟨k, hk⟩ : ∃ k : ℕ, x.exponent = -(k : ℤ) := ⟨x.exponent.natAbs, by omega⟩
    have hdigits : x.significand * Nat.pow 5 (-x.exponent).toNat ≠ 0 :=
      (Nat.mul_pos hpos (Nat.pow_pos (by decide))).ne'
    -- five to the power of `k` has too many digits for the value to be taken for zero
    have hlog : k ≤ (x.significand * Nat.pow 5 (-x.exponent).toNat).log2 := by
      rw [Nat.le_log2 hdigits, hk, neg_neg, Int.toNat_natCast]
      calc 2 ^ k ≤ 5 ^ k := Nat.pow_le_pow_left (by decide) k
        _ ≤ x.significand * 5 ^ k := Nat.le_mul_of_pos_left _ hpos
    unfold Decimal.magnitude
    rw [if_neg hdigits, if_neg (by dsimp only; omega), if_neg (by dsimp only; omega)]
    refine nearestMagnitude_of_value hx h0 (Nat.pow_pos (by decide)) ?_
    simp only [Decimal.fraction, hk, neg_neg, Int.toNat_natCast, Int.toNat_neg_natCast, Nat.pow_eq,
      pow_zero, mul_one, zpow_neg, zpow_natCast]
    push_cast
    rw [show (10 : ℚ) = 5 * 2 by norm_num, mul_pow]
    field_simp

/-- **The shortest decimal of a finite number is rounded to it.** -/
theorem magnitude_shortest {x : Number} (hx : x.isFinite) (h0 : x.magnitude ≠ 0) :
    x.shortest.magnitude = x.magnitude := by
  unfold shortest
  dsimp only
  generalize hhit : List.findSome? _ _ = hit
  cases hit with
  | none => exact magnitude_exactDecimal hx h0
  | some d =>
      -- a short decimal was read back before it was chosen
      obtain ⟨n, -, hn⟩ := List.exists_of_findSome?_eq_some hhit
      simpa using List.find?_some hn

end Number

/-- A decimal is rounded to a finite number or to infinity. -/
theorem Decimal.magnitude_le (d : Decimal) : d.magnitude ≤ Number.infinityMagnitude := by
  unfold Decimal.magnitude
  split
  · exact Nat.zero_le _
  · split
    · exact le_rfl
    · split
      · exact Nat.zero_le _
      · unfold Number.nearestMagnitude
        split
        · exact Nat.zero_le _
        · exact min_le_right _ _

/-- A decimal is rounded to a number. -/
theorem Decimal.isNaN_toNumber (d : Decimal) (negative : Bool) :
    (d.toNumber negative).isNaN = false := by
  have hle := d.magnitude_le
  have hlt : (if negative then Number.signBit else 0) + d.magnitude < 2 ^ 64 := by
    unfold Number.infinityMagnitude Number.hiddenBit at hle
    unfold Number.signBit
    split <;> omega
  unfold Number.isNaN Decimal.toNumber Number.ofMagnitude Number.magnitude
  rw [UInt64.toNat_ofNat_of_lt' hlt, decide_eq_false_iff_not]
  unfold Number.infinityMagnitude Number.hiddenBit Number.signBit at *
  split <;> omega

end Lox
