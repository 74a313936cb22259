import Mathlib.Data.List.TakeWhile
import Lox.Json.Printer
import Lox.Json.Reader
import Lox.Proofs.Number.Digits

/-!
# Numbers in JSON

A number that was written is read back, whatever follows it, as long as that cannot be taken for
more of the number (`Reader.EndsNumber`).

* `Reader.number_int`: an integer with at most as many digits as may be read.
* `Reader.number_short`: the short spelling of a finite number, in each of its four forms.
-/

namespace Lox

namespace Json.Reader

/-! ### The parts of a number -/

/-- What follows cannot be taken for more of a number. -/
def EndsNumber (rest : List Char) : Prop :=
  ∀ c ∈ rest.head?, c.isDigit = false ∧ c ≠ '.' ∧ c ≠ 'e' ∧ c ≠ 'E'

/-- What follows cannot be taken for another digit. -/
def EndsDigits (rest : List Char) : Prop := ∀ c ∈ rest.head?, c.isDigit = false

theorem EndsNumber.endsDigits {rest : List Char} (h : EndsNumber rest) : EndsDigits rest :=
  fun c hc => (h c hc).1

section
variable {ds rest : List Char}

/-- Digits are taken up to where they end. -/
theorem takeWhile_digits (hds : ∀ c ∈ ds, c.isDigit) (h : EndsDigits rest) :
    (ds ++ rest).takeWhile Char.isDigit = ds := by
  rw [List.takeWhile_append_of_pos hds]
  cases rest with
  | nil => simp
  | cons c cs => simp [h c rfl]

/-- What follows the digits is left. -/
theorem dropWhile_digits (hds : ∀ c ∈ ds, c.isDigit) (h : EndsDigits rest) :
    (ds ++ rest).dropWhile Char.isDigit = rest := by
  rw [List.dropWhile_append_of_pos hds]
  cases rest with
  | nil => simp
  | cons c cs => simp [h c rfl]

/-- The whole part of a number, without zeros in front. -/
theorem wholeDigits?_append (hds : Decimal.IsWhole ds) (h : EndsDigits rest) :
    wholeDigits? (ds ++ rest) = some (ds, rest) := by
  rcases hds with rfl | ⟨hds, c, cs, rfl, hc⟩
  · rfl
  · have htake := takeWhile_digits hds h
    have hdrop := dropWhile_digits hds h
    rw [List.cons_append] at htake hdrop
    rw [List.cons_append, wholeDigits?, if_neg hc, if_pos (hds c (by simp)), htake, hdrop]

theorem placeDigits_point (hds : ∀ c ∈ ds, c.isDigit) (hne : ds ≠ []) (h : EndsDigits rest) :
    placeDigits ('.' :: (ds ++ rest)) = (ds, rest) := by
  have hne' : ds.isEmpty = false := by simpa using hne
  simp only [placeDigits, takeWhile_digits hds h, dropWhile_digits hds h, hne']
  rfl

/-- Without a point there are no places. -/
theorem placeDigits_none (h : ∀ c ∈ rest.head?, c ≠ '.') : placeDigits rest = ([], rest) := by
  unfold placeDigits
  split
  · exact absurd rfl (h _ rfl)
  · rfl

/-- Without a mark there is no exponent. -/
theorem exponentPart_none (h : ∀ c ∈ rest.head?, c ≠ 'e' ∧ c ≠ 'E') :
    exponentPart rest = (none, rest) := by
  unfold exponentPart
  split
  · simp [h _ rfl]
  · rfl

/-- An exponent is read with its sign. -/
theorem exponentPart_mark {power : ℤ} (hds : ∀ c ∈ ds, c.isDigit) (hne : ds ≠ [])
    (hvalue : Decimal.valueOf ds = power.natAbs) (h : EndsDigits rest) :
    exponentPart ('e' :: (if power < 0 then '-' else '+') :: (ds ++ rest)) = (some power, rest) := by
  have hne' : ds.isEmpty = false := by simpa using hne
  by_cases hp : power < 0
  · simp [exponentPart, exponentSign, hp, takeWhile_digits hds h, dropWhile_digits hds h, hne',
      hvalue, abs_of_neg hp]
  · simp [exponentPart, exponentSign, hp, takeWhile_digits hds h, dropWhile_digits hds h, hne',
      hvalue, abs_of_nonneg (not_lt.mp hp)]

theorem endsDigits_point (cs : List Char) : EndsDigits ('.' :: cs) := by
  rintro c hc
  cases hc
  rfl

theorem endsDigits_mark (cs : List Char) : EndsDigits ('e' :: cs) := by
  rintro c hc
  cases hc
  rfl

/-! ### Numbers without a sign -/

variable {whole places : List Char} {negative : Bool}

/-- Digits alone are an integer. -/
theorem unsigned_whole (hwhole : Decimal.IsWhole whole) (h : EndsNumber rest) :
    unsigned negative (whole ++ rest) = integer negative whole rest := by
  rw [unsigned, wholeDigits?_append hwhole h.endsDigits]
  dsimp only
  rw [placeDigits_none fun c hc => (h c hc).2.1]
  dsimp only
  rw [exponentPart_none fun c hc => (h c hc).2.2]
  rfl

/-- Digits around a point are a decimal. -/
theorem unsigned_places (hwhole : Decimal.IsWhole whole) (hplaces : ∀ c ∈ places, c.isDigit)
    (hne : places ≠ []) (h : EndsNumber rest) :
    unsigned negative (whole ++ '.' :: (places ++ rest)) =
      .ok (.float ((Decimal.ofPlaces whole places).toNumber negative), rest) := by
  have hne' : places.isEmpty = false := by simpa using hne
  rw [unsigned, wholeDigits?_append hwhole (endsDigits_point _)]
  dsimp only
  rw [placeDigits_point hplaces hne h.endsDigits]
  dsimp only
  rw [exponentPart_none fun c hc => (h c hc).2.2]
  simp only [hne']
  rfl

/-- The spelling with an exponent, with or without a point. -/
theorem unsigned_power {power : ℤ} {ds : List Char} (hwhole : Decimal.IsWhole whole)
    (hplaces : ∀ c ∈ places, c.isDigit) (hds : ∀ c ∈ ds, c.isDigit) (hne : ds ≠ [])
    (hvalue : Decimal.valueOf ds = power.natAbs) (h : EndsNumber rest) :
    unsigned negative (whole ++ ((if places.isEmpty then [] else '.' :: places) ++
        'e' :: (if power < 0 then '-' else '+') :: (ds ++ rest))) =
      .ok (.float (Decimal.toNumber negative
        ⟨Decimal.valueOf (whole ++ places), -places.length + power⟩), rest) := by
  have hmark := exponentPart_mark hds hne hvalue h.endsDigits
  cases places with
  | nil =>
      rw [unsigned, List.isEmpty_nil, if_pos rfl, List.nil_append,
        wholeDigits?_append hwhole (endsDigits_mark _)]
      dsimp only
      rw [placeDigits_none (by simp)]
      dsimp only
      rw [hmark]
      rfl
  | cons c cs =>
      rw [unsigned, List.isEmpty_cons, if_neg (by decide), List.cons_append,
        wholeDigits?_append hwhole (endsDigits_point _)]
      dsimp only
      rw [placeDigits_point hplaces (List.cons_ne_nil c cs) (endsDigits_mark _)]
      dsimp only
      rw [hmark]
      rfl

/-- The positional spelling of a decimal is read back as a decimal of the same value. -/
theorem unsigned_positional {d : Decimal} (hd : 0 < d.digits) (h400 : d.exponent ≤ 400)
    (h : EndsNumber rest) :
    unsigned negative (d.positional.toList ++ rest) = .ok (.float (d.toNumber negative), rest) := by
  obtain ⟨whole, places, htext, hwhole, hplaces, hne, hvalue⟩ := Decimal.positional_eq hd h400
  rw [htext, List.append_assoc, List.cons_append, unsigned_places hwhole hplaces hne h,
    Decimal.toNumber, hvalue, Decimal.toNumber]

/-- The spelling with an exponent is read back as the decimal. -/
theorem unsigned_scientific {d : Decimal} (hd : 0 < d.digits) (h : EndsNumber rest) :
    unsigned negative (d.scientific.toList ++ rest) =
      .ok (.float (d.toNumber negative), rest) := by
  have hdigits : ∀ c ∈ Nat.toDigits 10 d.digits, c.isDigit := fun _ => isDigit_of_mem_toDigits
  obtain ⟨c, cs, hcs, hc⟩ := toDigits_eq_cons hd
  have hvalue := Decimal.valueOf_toDigits d.digits
  unfold Decimal.scientific
  simp only [Nat.toString_eq_repr, Nat.toList_repr]
  generalize Nat.toDigits 10 d.digits = ds at *
  subst hcs
  generalize hpower : ((c :: cs).length : ℤ) + d.exponent - 1 = power
  -- an exponent of one digit has a zero in front, which says nothing
  obtain ⟨width, hwidth, hw, hwne, hwvalue⟩ : ∃ width,
      (if (Nat.toDigits 10 power.natAbs).length < 2 then '0' :: Nat.toDigits 10 power.natAbs
        else Nat.toDigits 10 power.natAbs) = width ∧
      (∀ c ∈ width, c.isDigit) ∧ width ≠ [] ∧ Decimal.valueOf width = power.natAbs := by
    refine ⟨_, rfl, ?_⟩
    have hall : ∀ c ∈ Nat.toDigits 10 power.natAbs, c.isDigit := fun _ => isDigit_of_mem_toDigits
    have hzero := Decimal.valueOf_zeros_append 1 (Nat.toDigits 10 power.natAbs)
    split
    · exact ⟨by simpa using hall, by simp, hzero.trans (Decimal.valueOf_toDigits _)⟩
    · exact ⟨hall, by simp, Decimal.valueOf_toDigits _⟩
  rw [hwidth]
  have hread := @unsigned_power rest [c] cs negative power width
    (.inr ⟨by simpa using hdigits c (by simp), c, [], rfl, hc⟩)
    (fun c hc => hdigits c (by simp [hc])) hw hwne hwvalue h
  -- the digits behind the point are taken off the exponent again
  have hexp : -(cs.length : ℤ) + power = d.exponent := by
    rw [← hpower, List.length_cons]
    omega
  simp only [List.singleton_append, hvalue, hexp] at hread
  cases cs with
  | nil => simpa using hread
  | cons c' cs => simpa using hread

end

/-! ### Numbers -/

/-- What is read as a number without a sign starts with a digit. -/
theorem unsigned_head {negative : Bool} {cs : List Char} {r : Json × List Char}
    (h : unsigned negative cs = .ok r) : ∃ c rest, cs = c :: rest ∧ c.isDigit := by
  cases cs with
  | nil => cases h
  | cons c rest =>
      refine ⟨c, rest, rfl, ?_⟩
      by_contra hc
      have hzero : c ≠ '0' := by rintro rfl; exact hc rfl
      simp [unsigned, wholeDigits?, hzero, hc] at h

/-- A sign may stand in front of digits. -/
theorem number_sign {negative : Bool} {cs : List Char} {r : Json × List Char}
    (h : unsigned negative cs = .ok r) :
    number ((if negative then ['-'] else []) ++ cs) = .ok r := by
  obtain ⟨c, rest, rfl, hc⟩ := unsigned_head h
  cases negative with
  | true =>
      have hI : 'I' ≠ c := by rintro rfl; exact absurd hc (by decide)
      simpa [number, afterWord?, hI] using h
  | false =>
      have hminus : c ≠ '-' := by rintro rfl; exact absurd hc (by decide)
      simpa [number, hminus] using h

/-- What is read as a number starts with a digit or a sign, and so with nothing else. -/
theorem number_head {cs : List Char} {r : Json × List Char} (h : number cs = .ok r) :
    ∃ c rest, cs = c :: rest ∧ ∀ d : Char, d.isDigit = false → d ≠ '-' → c ≠ d := by
  unfold number at h
  split at h
  · exact ⟨_, _, rfl, fun d _ hminus => hminus.symm⟩
  · obtain ⟨c, rest, hcs, hc⟩ := unsigned_head h
    refine ⟨c, rest, hcs, ?_⟩
    rintro d hd - rfl
    exact absurd hc (by simp [hd])

/-- An integer is written as a sign and its digits. -/
theorem toList_toString_int (n : ℤ) :
    (toString n).toList = (if decide (n < 0) then ['-'] else []) ++ Nat.toDigits 10 n.natAbs := by
  rw [Int.toString_eq_repr, Int.repr_eq_if]
  split
  · rename_i h
    have hneg : ¬ n < 0 := by omega
    have habs : n.toNat = n.natAbs := by omega
    simp [hneg, habs]
  · rename_i h
    have hneg : n < 0 := by omega
    have habs : (-n).toNat = n.natAbs := by omega
    simp [hneg, habs]

/-- **An integer is read back**, unless it has too many digits. -/
theorem number_int {n : ℤ} (hn : n.natAbs < 10 ^ integerDigitLimit) {rest : List Char}
    (h : EndsNumber rest) : number ((toString n).toList ++ rest) = .ok (.int n, rest) := by
  have hlength : (Nat.toDigits 10 n.natAbs).length ≤ integerDigitLimit :=
    (Nat.length_toDigits_le_iff (by decide) (by decide)).mpr hn
  rw [toList_toString_int, List.append_assoc]
  apply number_sign
  rw [unsigned_whole (Decimal.isWhole_toDigits n.natAbs) h, integer, if_neg (not_lt.mpr hlength),
    Decimal.valueOf_toDigits]
  by_cases hneg : n < 0
  · simp [hneg, abs_of_neg hneg]
  · simp [hneg, abs_of_nonneg (not_lt.mp hneg)]

/-- **The short spelling of a finite number is read back** as the number itself. -/
theorem number_short {x : Number} (hx : x.isFinite) {rest : List Char} (h : EndsNumber rest) :
    number ((x.short numberNames).toList ++ rest) = .ok (.float x, rest) := by
  have hlt : x.magnitude < Number.infinityMagnitude := of_decide_eq_true hx
  have hsign : (if x.isNegative then "-" else "").toList = if x.isNegative then ['-'] else [] := by
    split <;> rfl
  unfold Number.short
  rw [if_neg (Number.not_isNaN hx)]
  dsimp only
  rw [if_neg (Number.not_isInfinite hx)]
  by_cases h0 : x.magnitude = 0
  · rw [if_pos h0, String.toList_append, hsign, List.append_assoc]
    apply number_sign
    have hread := @unsigned_places rest ['0'] ['0'] x.isNegative (.inl rfl) (by simp) (by simp) h
    have hzero : (Decimal.ofPlaces ['0'] ['0']).magnitude = x.magnitude := h0.symm
    rwa [Decimal.toNumber_eq hzero] at hread
  · have hshort := Number.magnitude_shortest hx h0
    have hdigits : 0 < x.shortest.digits := by
      by_contra hzero
      exact h0 (hshort.symm.trans (if_pos (by omega)))
    rw [if_neg h0]
    split
    · rename_i hpower
      -- notation with all places is for powers close to zero only
      have h400 : x.shortest.exponent ≤ 400 := by
        have hlength := @Nat.length_repr_pos x.shortest.digits
        simp only [Decimal.leadingPower, Nat.toString_eq_repr] at hpower
        omega
      rw [String.toList_append, hsign, List.append_assoc]
      apply number_sign
      rw [unsigned_positional hdigits h400 h, Decimal.toNumber_eq hshort]
    · rw [String.toList_append, hsign, List.append_assoc]
      apply number_sign
      rw [unsigned_scientific hdigits h, Decimal.toNumber_eq hshort]

end Json.Reader

end Lox
