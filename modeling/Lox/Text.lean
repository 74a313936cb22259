/-!
# Texts

A text is a sequence of characters in which halves of surrogate pairs may stand alone.  No file holds
such a half, since no character stands for it, but an escape in a stored tree can name one, and what
is made of it can be printed, compared and joined like any other text.  A text without halves is a
string.
-/

namespace Lox

/-- A half of a surrogate pair that stands alone, by its place among the halves. -/
structure Half where
  place : Fin 0x800
deriving DecidableEq, Inhabited, Repr

namespace Half

/-- The code of the first half. -/
def first : Nat := 0xd800

/-- The code of a half. -/
def code (h : Half) : Nat := first + h.place

/-- The half with a code, if the code is that of a half. -/
def ofCode? (code : Nat) : Option Half :=
  if h : first ≤ code ∧ code - first < 0x800 then some ⟨⟨code - first, h.2⟩⟩ else none

end Half

/-- A text: the characters up to the first half, and then every half with the characters up to the
next one. -/
structure Text where
  head : String
  tail : List (Half × String) := []
deriving DecidableEq, Inhabited, Repr

namespace Text

/-- A string is a text. -/
instance : Coe String Text := ⟨fun s => ⟨s, []⟩⟩

/-- Whether a text is a string: no half stands in it. -/
def isProper (t : Text) : Bool := t.tail.isEmpty

/-- The string that a text is. -/
def string? (t : Text) : Option String := if t.isProper then some t.head else none

/-- Whether nothing stands in a text. -/
def isEmpty (t : Text) : Bool := t.head.isEmpty && t.tail.isEmpty

/-! ### Joining -/

/-- The halves of a text and what is behind them, with another text at the end. -/
def joinTail (s : String) (behind : Text) : List (Half × String) → Text
  | [] => ⟨s ++ behind.head, behind.tail⟩
  | (h, s') :: rest =>
    let joined := joinTail s' behind rest
    ⟨s, (h, joined.head) :: joined.tail⟩

/-- One text behind another. -/
def append (a b : Text) : Text := joinTail a.head b a.tail

instance : Append Text := ⟨append⟩

@[simp] theorem mk_append_mk (a b : String) (tail : List (Half × String)) :
    (⟨a, []⟩ ++ ⟨b, tail⟩ : Text) = ⟨a ++ b, tail⟩ := rfl

/-- Texts one behind another. -/
def join (texts : List Text) : Text := texts.foldl (· ++ ·) ""

/-- Texts one behind another, with another text between them. -/
def intercalate (between : Text) : List Text → Text
  | [] => ""
  | [t] => t
  | t :: rest => t ++ between ++ intercalate between rest

/-! ### Characters and halves -/

/-- What a text is made of. -/
inductive Point where
  | char (c : Char)
  | half (h : Half)
deriving DecidableEq, Inhabited, Repr

/-- The characters and halves of a text. -/
def points (t : Text) : List Point :=
  t.head.toList.map .char ++
    t.tail.flatMap fun (h, s) => .half h :: s.toList.map .char

/-- The characters in front of the first half, and the halves with what is behind each. -/
def split : List Point → List Char × List (Half × String)
  | [] => ([], [])
  | .char c :: rest => (c :: (split rest).1, (split rest).2)
  | .half h :: rest => ([], (h, String.ofList (split rest).1) :: (split rest).2)

/-- The text made of some characters and halves. -/
def ofPoints (points : List Point) : Text :=
  match split points with
  | (cs, tail) => ⟨String.ofList cs, tail⟩

end Text

end Lox
