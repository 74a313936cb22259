import Mathlib.Data.Int.Log
import Mathlib.Data.Rat.Floor
import Mathlib.Tactic.FieldSimp
import Mathlib.Tactic.Linarith
import Mathlib.Tactic.Positivity
import Mathlib.Tactic.Ring
import Lox.Number

/-!
# Rounding to the nearest number

`Number.nearestMagnitude` is given a fraction, but what it gives depends only on its value.

* `floorLog2_eq_log`: `floorLog2` is the integer logarithm of the value.
* `Number.nearestMagnitude_mul`: cancelling a factor changes nothing.
* `Number.nearestMagnitude_eq`: a value that a pattern stands for is rounded to that pattern.
-/

namespace Lox

/-! ### Finite numbers -/

section Finite

variable {x : Number}

theorem Number.not_isNaN (hx : x.isFinite) : ¬ x.isNaN := fun h =>
  Nat.lt_asymm (of_decide_eq_true hx) (of_decide_eq_true h)

theorem Number.not_isInfinite (hx : x.isFinite) : ¬ x.isInfinite := fun h =>
  Nat.ne_of_lt (of_decide_eq_true hx) (of_decide_eq_true h)

end Finite

/-! ### Powers of two -/

/-- A power of two as a fraction of natural numbers. -/
theorem two_zpow_eq_div (e : ℤ) : (2 : ℚ) ^ e = 2 ^ e.toNat / 2 ^ (-e).toNat := by
  obtain ⟨n, rfl | rfl⟩ := e.eq_nat_or_neg
  · simp
  · simp

theorem two_zpow_pos (e : ℤ) : (0 : ℚ) < 2 ^ e := zpow_pos (by norm_num) e

/-- Powers of two are compared by the logarithm. -/
theorem two_zpow_le_iff {r : ℚ} (hr : 0 < r) (e : ℤ) : (2 : ℚ) ^ e ≤ r ↔ e ≤ Int.log 2 r :=
  Int.zpow_le_iff_le_log Nat.one_lt_two hr

theorem lt_two_zpow_iff {r : ℚ} (hr : 0 < r) (e : ℤ) : r < (2 : ℚ) ^ e ↔ Int.log 2 r < e :=
  Int.lt_zpow_iff_log_lt Nat.one_lt_two hr

/-- The comparison of scaled whole numbers is one of fractions. -/
theorem scaled_le_iff {num den : ℕ} (hd : 0 < den) (e : ℤ) :
    den * 2 ^ e.toNat ≤ num * 2 ^ (-e).toNat ↔ (2 : ℚ) ^ e ≤ (num : ℚ) / den := by
  rw [two_zpow_eq_div, div_le_div_iff₀ (by positivity) (by positivity), mul_comm ((2 : ℚ) ^ e.toNat)]
  exact_mod_cast Iff.rfl

/-- The value of a positive fraction lies between two powers of two. -/
theorem log2_bounds {num den : ℕ} (hn : 0 < num) (hd : 0 < den) :
    (2 : ℚ) ^ ((num.log2 : ℤ) - den.log2 - 1) ≤ (num : ℚ) / den ∧
      (num : ℚ) / den < (2 : ℚ) ^ ((num.log2 : ℤ) - den.log2 + 1) := by
  have hn₁ : (2 : ℚ) ^ num.log2 ≤ num := by exact_mod_cast Nat.log2_self_le hn.ne'
  have hn₂ : (num : ℚ) < 2 ^ (num.log2 + 1) := by exact_mod_cast Nat.lt_log2_self
  have hd₁ : (2 : ℚ) ^ den.log2 ≤ den := by exact_mod_cast Nat.log2_self_le hd.ne'
  have hd₂ : (den : ℚ) < 2 ^ (den.log2 + 1) := by exact_mod_cast Nat.lt_log2_self
  have hden : (0 : ℚ) < den := by exact_mod_cast hd
  constructor
  · rw [show (num.log2 : ℤ) - den.log2 - 1 = (num.log2 : ℤ) - ((den.log2 + 1 : ℕ) : ℤ) by
        push_cast; ring, zpow_sub₀ (by norm_num), zpow_natCast, zpow_natCast]
    exact div_le_div₀ (by positivity) hn₁ hden hd₂.le
  · rw [show (num.log2 : ℤ) - den.log2 + 1 = ((num.log2 + 1 : ℕ) : ℤ) - (den.log2 : ℤ) by
        push_cast; ring, zpow_sub₀ (by norm_num), zpow_natCast, zpow_natCast]
    exact div_lt_div₀ hn₂ hd₁ (by positivity) (by positivity)

/-- `floorLog2` is the integer logarithm of a fraction's value. -/
theorem floorLog2_eq_log {num den : ℕ} (hn : 0 < num) (hd : 0 < den) :
    floorLog2 num den = Int.log 2 ((num : ℚ) / den) := by
  have hpos : (0 : ℚ) < (num : ℚ) / den := by positivity
  obtain ⟨hlow, hup⟩ := log2_bounds hn hd
  have hle := (two_zpow_le_iff hpos _).mp hlow
  have hlt := (lt_two_zpow_iff hpos _).mp hup
  unfold floorLog2
  dsimp only
  split
  · rename_i h
    have h' := (two_zpow_le_iff hpos _).mp ((scaled_le_iff hd _).mp h)
    omega
  · rename_i h
    have h' := mt ((scaled_le_iff hd _).trans (two_zpow_le_iff hpos _)).mpr h
    omega

/-! ### Rounding a fraction -/

/-- A common factor does not change how a fraction is rounded. -/
theorem roundHalfEven_mul {k : ℕ} (hk : 0 < k) (num den : ℕ) :
    roundHalfEven (k * num) (k * den) = roundHalfEven num den := by
  unfold roundHalfEven
  dsimp only
  rw [Nat.mul_div_mul_left _ _ hk, Nat.mul_mod_mul_left, mul_left_comm 2 k]
  simp only [Nat.mul_lt_mul_left hk]

/-- A fraction that is a whole number is rounded to it. -/
theorem roundHalfEven_exact {num den m : ℕ} (hd : 0 < den) (h : num = m * den) :
    roundHalfEven num den = m := by
  unfold roundHalfEven
  dsimp only
  rw [h, Nat.mul_div_cancel _ hd, Nat.mul_mod_left, if_pos (by omega)]

namespace Number

/-- What `nearestMagnitude` gives does not depend on a common factor. -/
theorem nearestMagnitude_mul {k num den : ℕ} (hk : 0 < k) (hd : 0 < den) :
    nearestMagnitude (k * num) (k * den) = nearestMagnitude num den := by
  unfold nearestMagnitude
  by_cases hn : num = 0
  · simp [hn]
  · have hn' : 0 < num := Nat.pos_of_ne_zero hn
    have hk' : (k : ℚ) ≠ 0 := by exact_mod_cast hk.ne'
    have hlog : floorLog2 (k * num) (k * den) = floorLog2 num den := by
      rw [floorLog2_eq_log (by positivity) (by positivity), floorLog2_eq_log hn' hd]
      push_cast
      rw [mul_div_mul_left _ _ hk']
    rw [if_neg (by positivity), if_neg hn, hlog]
    dsimp only
    rw [mul_assoc, mul_assoc, roundHalfEven_mul hk]

/-- A significand times a power of two is rounded to its own pattern. -/
theorem nearestMagnitude_eq {num den m : ℕ} {e : ℤ} (hm : 0 < m) (hd : 0 < den)
    (hv : (num : ℚ) / den = m * (2 : ℚ) ^ e) (he : -1074 ≤ e) (hup : m < 2 ^ 53)
    (hlow : 2 ^ 52 ≤ m ∨ e = -1074) :
    nearestMagnitude num den = min ((e + 1074).toNat * hiddenBit + m) infinityMagnitude := by
  have hden : (den : ℚ) ≠ 0 := by exact_mod_cast hd.ne'
  have hpos : (0 : ℚ) < m * (2 : ℚ) ^ e := mul_pos (by exact_mod_cast hm) (two_zpow_pos e)
  have hn : 0 < num := by
    rcases Nat.eq_zero_or_pos num with rfl | h
    · rw [Nat.cast_zero, zero_div] at hv
      exact absurd hv hpos.ne
    · exact h
  -- the logarithm of the value places the significand exactly at `e`
  have hq : max (floorLog2 num den - 52) (-1074) = e := by
    have hm₂ : (m : ℚ) < 2 ^ 53 := by exact_mod_cast hup
    have hlt : Int.log 2 ((num : ℚ) / den) < 53 + e := by
      rw [hv, ← lt_two_zpow_iff hpos, zpow_add₀ (by norm_num)]
      exact mul_lt_mul_of_pos_right (by exact_mod_cast hm₂) (two_zpow_pos e)
    rw [floorLog2_eq_log hn hd]
    rcases hlow with hm₁ | rfl
    · have hm₁' : (2 : ℚ) ^ 52 ≤ m := by exact_mod_cast hm₁
      have hle : 52 + e ≤ Int.log 2 ((num : ℚ) / den) := by
        rw [hv, ← two_zpow_le_iff hpos, zpow_add₀ (by norm_num)]
        exact mul_le_mul_of_nonneg_right (by exact_mod_cast hm₁') (two_zpow_pos e).le
      omega
    · omega
  -- at that place nothing is left to round
  have hround : num * 2 ^ (-e).toNat = m * (den * 2 ^ e.toNat) := by
    rw [two_zpow_eq_div] at hv
    have h : (num : ℚ) * 2 ^ (-e).toNat = m * (den * 2 ^ e.toNat) := by
      field_simp at hv
      linarith
    exact_mod_cast h
  unfold nearestMagnitude
  rw [if_neg hn.ne']
  dsimp only
  rw [hq]
  have hexact : roundHalfEven (num * 2 ^ (-e).toNat) (den * 2 ^ e.toNat) = m :=
    roundHalfEven_exact (by positivity) hround
  exact congrArg (fun r => min ((e + 1074).toNat * hiddenBit + r) infinityMagnitude) hexact

end Number

end Lox
