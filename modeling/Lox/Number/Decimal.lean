import Lox.Number

/-!
# Decimals

A decimal is a natural number times a power of ten.  `Decimal.toNumber` rounds one to the nearest
number, and `Number.shortest` goes back: the decimal with the fewest digits that rounds to the
number, the nearest such decimal when there are two, and the even one when they are equally near.
Every decimal that `shortest` offers was read back before it is chosen.
-/

namespace Lox

/-- The value `digits * 10 ^ exponent`. -/
structure Decimal where
  digits : Nat
  exponent : Int
deriving DecidableEq, Inhabited, Repr

namespace Decimal

/-- The value as a fraction of natural numbers. -/
def fraction (d : Decimal) : Nat × Nat :=
  (d.digits * Nat.pow 10 d.exponent.toNat, Nat.pow 10 (-d.exponent).toNat)

/-- The pattern, without sign, of the number nearest to the decimal.  An exponent so large or so
small that the digits cannot bring the value back into range is settled without the fraction. -/
def magnitude (d : Decimal) : Nat :=
  if d.digits = 0 then 0
  else if 400 < d.exponent then Number.infinityMagnitude
  else if d.exponent < -(401 + (d.digits.log2 : Int)) then 0
  else Number.nearestMagnitude d.fraction.1 d.fraction.2

/-- The number nearest to the decimal, with the given sign. -/
def toNumber (negative : Bool) (d : Decimal) : Number := Number.ofMagnitude negative d.magnitude

/-- Moves trailing zeros of the digits into the exponent, at most `fuel` of them. -/
def trim : Nat → Decimal → Decimal
  | 0, d => d
  | fuel + 1, d =>
    if d.digits % 10 = 0 then trim fuel ⟨d.digits / 10, d.exponent + 1⟩ else d

/-- Reads decimal digits, most significant first. -/
def valueOf (digits : List Char) : Nat :=
  digits.foldl (fun n c => 10 * n + (c.toNat - '0'.toNat)) 0

/-- The decimal written with these digits before and after the point. -/
def ofPlaces (whole places : List Char) : Decimal :=
  ⟨valueOf (whole ++ places), -(places.length : Int)⟩

end Decimal

/-- The largest `k` with `10 ^ k ≤ num / den`, for a positive fraction of a number. -/
def floorLog10 (num den : Nat) : Int :=
  let k := (floorLog2 num den * 30103).fdiv 100000
  if den * Nat.pow 10 (k + 1).toNat ≤ num * Nat.pow 10 (-(k + 1)).toNat then k + 1 else k

namespace Number

/-- The two neighbours of a fraction on the grid of multiples of `10 ^ place`, the nearer first;
at equal distance the even one comes first. -/
def neighbours (num den : Nat) (place : Int) : List Decimal :=
  let a := num * Nat.pow 10 (-place).toNat
  let b := den * Nat.pow 10 place.toNat
  let low := a / b
  let twice := 2 * (a % b)
  let lowFirst := decide (twice < b) || (decide (twice = b) && decide (low % 2 = 0))
  let trimmed := fun n => Decimal.trim 20 ⟨n, place⟩
  if lowFirst then [trimmed low, trimmed (low + 1)] else [trimmed (low + 1), trimmed low]

/-- Every digit of a finite number. -/
def exactDecimal (x : Number) : Decimal :=
  if 0 ≤ x.exponent then ⟨x.significand * Nat.pow 2 x.exponent.toNat, 0⟩
  else ⟨x.significand * Nat.pow 5 (-x.exponent).toNat, x.exponent⟩

/-- The decimal with the fewest digits that reads back as the absolute value of a finite number,
and of those the nearest. -/
def shortest (x : Number) : Decimal :=
  let num := x.fraction.1
  let den := x.fraction.2
  let top := floorLog10 num den
  let hit := (List.range 17).findSome? fun n : Nat =>
    (neighbours num den (top - (n : Int))).find? fun d => d.magnitude = x.magnitude
  hit.getD x.exactDecimal

end Number

end Lox
