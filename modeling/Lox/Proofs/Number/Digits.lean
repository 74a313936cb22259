import Lox.Number.Text
import Lox.Proofs.Number.Shortest

/-!
# Decimals as digits

The digits of a natural number are read as that number, also with zeros in front of them or behind
them.  `Decimal.positional_eq`: the positional spelling of a decimal is digits around a point, and
these stand for a decimal that is rounded to the same number.
-/

namespace Lox

/-! ### Digits -/

/-- The first digit of a positive number is not zero. -/
theorem toDigits_eq_cons {n : ℕ} (hn : 0 < n) :
    ∃ c cs, Nat.toDigits 10 n = c :: cs ∧ c ≠ '0' := by
  induction n using Nat.strongRecOn with
  | ind n ih =>
      by_cases h : n < 10
      · refine ⟨n.digitChar, [], Nat.toDigits_of_lt_base h, ?_⟩
        rw [Ne, Nat.digitChar_eq_zero]
        exact hn.ne'
      · obtain ⟨c, cs, hcs, hc⟩ := ih (n / 10) (by omega) (by omega)
        refine ⟨c, cs ++ [(n % 10).digitChar], ?_, hc⟩
        rw [Nat.toDigits_of_base_le (by decide) (by omega), hcs, List.cons_append]

theorem isDigit_of_mem_toDigits {n : ℕ} {c : Char} (h : c ∈ Nat.toDigits 10 n) : c.isDigit :=
  Nat.isDigit_of_mem_toDigits (by decide) (by decide) h

namespace Decimal

/-- Digits are read as the number that was written. -/
@[simp] theorem valueOf_toDigits (n : ℕ) : valueOf (Nat.toDigits 10 n) = n :=
  Nat.ofDigitChars_ten_toDigits

/-- Zeros in front do not count. -/
@[simp] theorem valueOf_zeros_append (n : ℕ) (ds : List Char) :
    valueOf (List.replicate n '0' ++ ds) = valueOf ds := by
  have h := Nat.ofDigitChars_append (b := 10) (l := List.replicate n '0') (m := ds) 0
  rw [Nat.ofDigitChars_replicate_zero, Nat.mul_zero] at h
  exact h

/-- Zeros behind multiply by ten each. -/
@[simp] theorem valueOf_append_zeros (n : ℕ) (ds : List Char) :
    valueOf (ds ++ List.replicate n '0') = 10 ^ n * valueOf ds := by
  have h := Nat.ofDigitChars_append (b := 10) (l := ds) (m := List.replicate n '0') 0
  rw [Nat.ofDigitChars_replicate_zero] at h
  exact h

theorem ofPlaces_leading (k : ℕ) (ds : List Char) :
    ofPlaces ['0'] (List.replicate k '0' ++ ds) = ⟨valueOf ds, -(k + ds.length : ℕ)⟩ := by
  have hvalue := valueOf_zeros_append (k + 1) ds
  rw [List.replicate_succ, List.cons_append] at hvalue
  simp [ofPlaces, hvalue]

theorem ofPlaces_trailing (k : ℕ) (ds : List Char) :
    ofPlaces (ds ++ List.replicate k '0') ['0'] = ⟨10 ^ (k + 1) * valueOf ds, -1⟩ := by
  have hvalue := valueOf_append_zeros (k + 1) ds
  rw [List.replicate_succ'] at hvalue
  simp [ofPlaces, hvalue]

/-- Digits on both sides of the point. -/
theorem ofPlaces_split {k : ℕ} {ds : List Char} (h : k ≤ ds.length) :
    ofPlaces (ds.take k) (ds.drop k) = ⟨valueOf ds, k - ds.length⟩ := by
  simp only [ofPlaces, List.take_append_drop, List.length_drop, Nat.cast_sub h, neg_sub]

/-- A zero moved from the exponent to the digits changes nothing. -/
theorem magnitude_shift {n : ℕ} {e : ℤ} (h0 : 0 ≤ e) (h400 : e ≤ 400) :
    magnitude ⟨10 ^ (e.toNat + 1) * n, -1⟩ = magnitude ⟨n, e⟩ := by
  unfold magnitude
  by_cases hn : n = 0
  · simp [hn]
  · have hpos : 10 ^ (e.toNat + 1) * n ≠ 0 := by positivity
    rw [if_neg hpos, if_neg hn, if_neg (by dsimp only; omega), if_neg (by dsimp only; omega),
      if_neg (by dsimp only; omega), if_neg (by dsimp only; omega)]
    have he : (-e).toNat = 0 := by omega
    have hten := @Number.nearestMagnitude_mul 10 (n * 10 ^ e.toNat) 1 (by decide) (by decide)
    simp only [fraction, he, Nat.pow_eq, pow_zero] at hten ⊢
    rw [← hten]
    congr 1
    change 10 ^ (e.toNat + 1) * n * 10 ^ 0 = 10 * (n * 10 ^ e.toNat)
    ring

/-! ### The positional spelling -/

/-- Digits that may stand before a point: a single zero, or digits that start with another one. -/
def IsWhole (ds : List Char) : Prop :=
  ds = ['0'] ∨ (∀ c ∈ ds, c.isDigit) ∧ ∃ c cs, ds = c :: cs ∧ c ≠ '0'

theorem isWhole_toDigits (n : ℕ) : IsWhole (Nat.toDigits 10 n) := by
  rcases Nat.eq_zero_or_pos n with rfl | hn
  · exact .inl rfl
  · exact .inr ⟨fun _ => isDigit_of_mem_toDigits, toDigits_eq_cons hn⟩

/-- **The positional spelling of a decimal is a decimal of the same value**, wherever the point is. -/
theorem positional_eq {d : Decimal} (hd : 0 < d.digits) (h400 : d.exponent ≤ 400) :
    ∃ whole places, d.positional.toList = whole ++ '.' :: places ∧ IsWhole whole ∧
      (∀ c ∈ places, c.isDigit) ∧ places ≠ [] ∧
      (ofPlaces whole places).magnitude = d.magnitude := by
  have hdigits : ∀ c ∈ Nat.toDigits 10 d.digits, c.isDigit := fun _ => isDigit_of_mem_toDigits
  obtain ⟨c, cs, hcs, hc⟩ := toDigits_eq_cons hd
  have hvalue := valueOf_toDigits d.digits
  unfold positional
  simp only [Nat.toString_eq_repr, Nat.toList_repr]
  generalize Nat.toDigits 10 d.digits = ds at *
  have hne : ds ≠ [] := by simp [hcs]
  split
  · -- only zeros stand before the first digit
    rename_i hpoint
    refine ⟨['0'], List.replicate (-(ds.length + d.exponent)).toNat '0' ++ ds, by simp, .inl rfl,
      by simp_all [or_imp], by simp [hne], ?_⟩
    have hexp : -((-(ds.length + d.exponent)).toNat + ds.length : ℕ) = d.exponent := by omega
    rw [ofPlaces_leading, hvalue, hexp]
  · split
    · -- zeros stand behind the last digit, one of them behind the point
      refine ⟨ds ++ List.replicate d.exponent.toNat '0', ['0'], by simp, .inr ⟨?_, ?_⟩, by simp,
        by simp, ?_⟩
      · simp_all [or_imp]
      · exact ⟨c, cs ++ List.replicate d.exponent.toNat '0', by simp [hcs], hc⟩
      · rw [ofPlaces_trailing, hvalue, magnitude_shift (by omega) h400]
    · -- the point stands between two digits
      rename_i hlow hhigh
      obtain ⟨k, hk⟩ : ∃ k : ℕ, (ds.length : ℤ) + d.exponent = k + 1 :=
        ⟨(ds.length + d.exponent - 1).toNat, by omega⟩
      have hpoint : ((ds.length : ℤ) + d.exponent).toNat = k + 1 := by omega
      have hexp : ((k + 1 : ℕ) : ℤ) - ds.length = d.exponent := by omega
      rw [hpoint]
      refine ⟨ds.take (k + 1), ds.drop (k + 1), by simp, .inr ⟨?_, ?_⟩, ?_, by simp; omega, ?_⟩
      · exact fun c hc => hdigits c (List.mem_of_mem_take hc)
      · exact ⟨c, cs.take k, by simp [hcs], hc⟩
      · exact fun c hc => hdigits c (List.mem_of_mem_drop hc)
      · rw [ofPlaces_split (by omega), hvalue, hexp]

end Decimal

/-! ### Signs -/

/-- A number is its sign and its magnitude. -/
theorem Number.ofMagnitude_magnitude (x : Number) :
    Number.ofMagnitude x.isNegative x.magnitude = x := by
  have hlt : x.bits.toNat < 2 ^ 64 := x.bits.toNat_lt
  have hsum : (if x.isNegative then Number.signBit else 0) + x.magnitude = x.bits.toNat := by
    unfold Number.isNegative Number.magnitude Number.signBit
    simp only [decide_eq_true_eq]
    split <;> omega
  unfold Number.ofMagnitude
  rw [hsum, UInt64.ofNat_toNat]

/-- A decimal that is rounded to a number is that number, once the sign is put back. -/
theorem Decimal.toNumber_eq {d : Decimal} {x : Number} (h : d.magnitude = x.magnitude) :
    d.toNumber x.isNegative = x := by
  rw [Decimal.toNumber, h, Number.ofMagnitude_magnitude]

end Lox
