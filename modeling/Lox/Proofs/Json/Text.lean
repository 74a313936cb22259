import Lox.Json.Printer
import Lox.Json.Reader
import Lox.Proofs.Text

/-!
# Text in JSON

A string is read back from its escapes (`Reader.text_writeText`), and no written text holds a carriage
return, so reading a file line by line leaves it alone.

The reader collects code units and puts them together afterwards, because an escape may be half of a
pair.  The units of a written string are characters, and a character is never half of a pair.  Of other
texts the statement is false: two halves that stand beside each other are read back as a pair.
-/

namespace Lox

namespace Json

namespace Reader

/-- No character is the second half of a pair. -/
theorem isLowUnit_toNat (c : Char) : isLowUnit c.toNat = false := by
  have hvalid : c.toNat.isValidChar := c.valid
  simp only [isLowUnit, Bool.and_eq_false_iff, decide_eq_false_iff_not]
  rcases hvalid with h | h <;> omega

/-- The unit of a character is this character. -/
theorem unitPoint_toNat (c : Char) : unitPoint c.toNat = .char c := by
  have hvalid : c.toNat.isValidChar := c.valid
  have hcode : Half.ofCode? c.toNat = none := by
    unfold Half.ofCode? Half.first
    rw [dif_neg]
    rcases hvalid with h | h <;> omega
  simp [unitPoint, hcode]

/-- The units of characters are put together to these characters. -/
theorem joinUnits_map_toNat (units : List Char) (points : List Text.Point) :
    joinUnits (units.map Char.toNat) points = units.reverse.map .char ++ points := by
  induction units generalizing points with
  | nil => rfl
  | cons c units ih =>
      cases units with
      | nil => simp [joinUnits, unitPoint_toNat]
      | cons d units =>
          rw [List.map_cons, List.map_cons, joinUnits, isLowUnit_toNat, unitPoint_toNat]
          simpa using ih (.char c :: points)

/-- The escapes of control characters have two zeros in front. -/
theorem toList_hexadecimal : ∀ n < 0x20,
    (hexadecimal 4 n).toList = ['0', '0', (n / 16).digitChar, (n % 16).digitChar] := by
  decide

theorem hexUnit?_digitChar : ∀ n < 0x20,
    hexUnit? '0' '0' (n / 16).digitChar (n % 16).digitChar = some n := by
  decide

/-- A character that is written as it stands is read as it stands. -/
theorem units?_cons {c : Char} (hquote : c ≠ '"') (hslash : c ≠ '\\') (hcontrol : ¬ c.toNat < 0x20)
    (rest : List Char) (units : List Nat) :
    units? (c :: rest) units = units? rest (c.toNat :: units) := by
  rw [units?, if_neg hcontrol]
  · exact hquote
  · intro _ _ _ _ _ h
    exact absurd h hslash
  · intro _ _ h
    exact absurd h hslash

/-- One character of a written text is read as its unit. -/
theorem units?_writeChar (c : Char) (rest : List Char) (units : List Nat) :
    units? (writeChar c rest) units = units? rest (c.toNat :: units) := by
  by_cases hletter : c ∈ ['"', '\\', '\n', '\r', '\t', '\x08', '\x0c']
  · -- an escape of one letter
    simp only [List.mem_cons, List.not_mem_nil, or_false] at hletter
    rcases hletter with rfl | rfl | rfl | rfl | rfl | rfl | rfl <;> rfl
  · simp only [List.mem_cons, List.not_mem_nil, or_false, not_or] at hletter
    obtain ⟨h₁, h₂, h₃, h₄, h₅, h₆, h₇⟩ := hletter
    unfold writeChar
    rw [if_neg h₁, if_neg h₂, if_neg h₃, if_neg h₄, if_neg h₅, if_neg h₆, if_neg h₇]
    split
    · rename_i hcontrol
      rw [toList_hexadecimal _ hcontrol]
      simp only [List.cons_append, List.nil_append]
      rw [units?, hexUnit?_digitChar _ hcontrol]
    · rename_i hcontrol
      exact units?_cons h₁ h₂ hcontrol rest units

/-- The characters of a string are collected one by one, each from its own escape. -/
theorem units?_foldr_writePoint (cs rest : List Char) (units : List Nat) :
    units? ((cs.map Text.Point.char).foldr writePoint ('"' :: rest)) units =
      some ((cs.map Char.toNat).reverse ++ units, rest) := by
  induction cs generalizing units with
  | nil => rfl
  | cons c cs ih =>
      rw [List.map_cons, List.foldr_cons, writePoint, units?_writeChar, ih]
      simp

/-- **A written string is read back.** -/
theorem text_writeText {t : Text} (ht : t.isProper) (rest : List Char) :
    text (t.points.foldr writePoint ('"' :: rest)) = .ok (t, rest) := by
  obtain ⟨s, rfl⟩ := Text.isProper_iff.mp ht
  rw [Text.points_mk, text, units?_foldr_writePoint, List.append_nil, ← List.map_reverse]
  dsimp only
  rw [joinUnits_map_toNat, List.reverse_reverse, List.append_nil, Text.ofPoints_map_char,
    String.ofList_toList]

end Reader

end Json

end Lox
