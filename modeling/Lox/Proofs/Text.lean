import Lox.Text

/-!
# Texts without halves

A text without halves is a string (`Text.isProper_iff`), and what is put together of such texts is one
(`Text.isProper_append`).  A text is made of its characters and halves (`Text.ofPoints_points`).
-/

namespace Lox

namespace Text

variable {a b t : Text} {s : String}

@[simp] theorem isProper_mk (s : String) : (⟨s, []⟩ : Text).isProper = true := rfl

/-- A text is proper exactly when it is a string. -/
theorem isProper_iff : t.isProper = true ↔ ∃ s : String, t = s := by
  obtain ⟨head, tail⟩ := t
  simp only [isProper, List.isEmpty_iff, mk.injEq]
  exact ⟨fun h => ⟨head, rfl, h⟩, fun ⟨_, _, h⟩ => h⟩

/-- A text put behind halves has these halves. -/
theorem isProper_joinTail (s : String) (b : Text) (tail : List (Half × String)) :
    (joinTail s b tail).isProper = (tail.isEmpty && b.isProper) := by
  cases tail <;> rfl

/-- Texts put together are proper exactly when both are. -/
@[simp] theorem isProper_append (a b : Text) : (a ++ b).isProper = (a.isProper && b.isProper) :=
  isProper_joinTail a.head b a.tail

/-! ### Characters and halves -/

@[simp] theorem points_mk (s : String) : (⟨s, []⟩ : Text).points = s.toList.map .char := by
  simp [points]

/-- Characters in front come before the first half. -/
theorem split_map_char_append (cs : List Char) (points : List Point) :
    split (cs.map .char ++ points) = (cs ++ (split points).1, (split points).2) := by
  induction cs with
  | nil => rfl
  | cons c cs ih => simp [split, ih]

/-- Characters alone make a string. -/
@[simp] theorem ofPoints_map_char (cs : List Char) :
    ofPoints (cs.map .char) = (String.ofList cs : Text) := by
  have h := split_map_char_append cs []
  rw [List.append_nil] at h
  simp [ofPoints, h, split]

/-- Halves and the characters behind them are told apart again. -/
theorem split_halves (tail : List (Half × String)) :
    split (tail.flatMap fun (h, s) => .half h :: s.toList.map .char) = ([], tail) := by
  induction tail with
  | nil => rfl
  | cons part tail ih =>
      rw [List.flatMap_cons, List.cons_append, split, split_map_char_append, ih]
      simp

/-- **A text is made of its characters and halves.** -/
theorem ofPoints_points (t : Text) : ofPoints t.points = t := by
  rw [ofPoints, points, split_map_char_append, split_halves]
  simp

end Text

end Lox
