/-!
# Numbers

A number is an IEEE-754 binary64 pattern.  This file holds the pattern, its reading as a sign, a
significand and a power of two, the arithmetic of the language, and the rounding of a fraction of
natural numbers to the nearest pattern (`nearestMagnitude`), with a half going to the even
neighbour.
-/

namespace Lox

/-- A number is its binary64 pattern, so two numbers are the same exactly when their bits are. -/
structure Number where
  bits : UInt64
deriving DecidableEq, Inhabited, Repr

/-- Divides and rounds to the nearest integer; a half goes to the even one. -/
def roundHalfEven (num den : Nat) : Nat :=
  let whole := num / den
  let twice := 2 * (num % den)
  if twice < den then whole
  else if den < twice then whole + 1
  else whole + whole % 2

/-- The largest `e` with `2 ^ e ≤ num / den`, for a positive fraction. -/
def floorLog2 (num den : Nat) : Int :=
  let e : Int := (num.log2 : Int) - den.log2
  if den * Nat.pow 2 e.toNat ≤ num * Nat.pow 2 (-e).toNat then e else e - 1

namespace Number

/-! ### The pattern -/

/-- The place of the sign in a pattern. -/
def signBit : Nat := 0x8000000000000000

/-- The leading digit of a significand, which a pattern leaves out. -/
def hiddenBit : Nat := 0x10000000000000

/-- The pattern of positive infinity; larger patterns without the sign bit are not numbers. -/
def infinityMagnitude : Nat := 2047 * hiddenBit

/-- The pattern without its sign bit. -/
def magnitude (x : Number) : Nat := x.bits.toNat % signBit

/-- The sign bit. -/
def isNegative (x : Number) : Bool := signBit ≤ x.bits.toNat

/-- The number with the given sign bit and remaining pattern. -/
def ofMagnitude (negative : Bool) (magnitude : Nat) : Number :=
  ⟨UInt64.ofNat ((if negative then signBit else 0) + magnitude)⟩

/-- Positive or negative infinity. -/
def infinity (negative : Bool) : Number := ofMagnitude negative infinityMagnitude

/-- The pattern that stands for the result of an operation without one. -/
def notANumber : Number := ⟨0x7ff8000000000000⟩

/-- Not a number: the result of an operation without one. -/
def isNaN (x : Number) : Bool := infinityMagnitude < x.magnitude

/-- One of the two infinities. -/
def isInfinite (x : Number) : Bool := x.magnitude = infinityMagnitude

/-- Neither infinite nor undefined. -/
def isFinite (x : Number) : Bool := x.magnitude < infinityMagnitude

/-- The significand of a finite pattern: its value is `significand * 2 ^ exponent`. -/
def significand (x : Number) : Nat :=
  if x.magnitude < hiddenBit then x.magnitude else hiddenBit + x.magnitude % hiddenBit

/-- The power of two that belongs to `significand`. -/
def exponent (x : Number) : Int :=
  if x.magnitude < hiddenBit then -1074 else (x.magnitude / hiddenBit : Nat) - 1075

/-- The absolute value of a finite number as a fraction of natural numbers. -/
def fraction (x : Number) : Nat × Nat :=
  (x.significand * Nat.pow 2 x.exponent.toNat, Nat.pow 2 (-x.exponent).toNat)

/-- A finite number without a fractional part. -/
def isIntegral (x : Number) : Bool :=
  x.isFinite && x.fraction.1 % x.fraction.2 = 0

/-- The integer that a number is, if it is one. -/
def integer? (x : Number) : Option Int :=
  if x.isIntegral then
    let n : Int := (x.fraction.1 / x.fraction.2 : Nat)
    some (if x.isNegative then -n else n)
  else none

/-! ### Rounding to the nearest number -/

/-- The pattern, without sign, of the number nearest to `num / den`; infinity beyond the range. -/
def nearestMagnitude (num den : Nat) : Nat :=
  if num = 0 then 0
  else
    let q := max (floorLog2 num den - 52) (-1074)
    let m := roundHalfEven (num * Nat.pow 2 (-q).toNat) (den * Nat.pow 2 q.toNat)
    min ((q + 1074).toNat * hiddenBit + m) infinityMagnitude

/-- The number nearest to an integer, or `none` beyond the range. -/
def ofInt? (n : Int) : Option Number :=
  let m := nearestMagnitude n.natAbs 1
  if m < infinityMagnitude then some (ofMagnitude (decide (n < 0)) m) else none

/-- The number nearest to a natural number. -/
def ofNat (n : Nat) : Number := ofMagnitude false (nearestMagnitude n 1)

/-! ### Arithmetic and comparison -/

/-- The machine number with this pattern. -/
def toFloat (x : Number) : Float := Float.ofBits x.bits

/-- The pattern of a machine number. -/
def ofFloat (f : Float) : Number := ⟨f.toBits⟩

/-- Addition, rounded to nearest. -/
def add (x y : Number) : Number := ofFloat (x.toFloat + y.toFloat)

/-- Subtraction, rounded to nearest. -/
def sub (x y : Number) : Number := ofFloat (x.toFloat - y.toFloat)

/-- Multiplication, rounded to nearest. -/
def mul (x y : Number) : Number := ofFloat (x.toFloat * y.toFloat)

/-- Division, rounded to nearest; by zero it is an infinity or not a number. -/
def div (x y : Number) : Number := ofFloat (x.toFloat / y.toFloat)

/-- Negation turns the sign bit over. -/
def neg (x : Number) : Number := ⟨x.bits ^^^ 0x8000000000000000⟩

/-- Equality of values: both zeros are equal, and not-a-number equals nothing. -/
def sameValue (x y : Number) : Bool := x.toFloat == y.toFloat

/-- Less than, false when either side is not a number. -/
def lt (x y : Number) : Bool := decide (x.toFloat < y.toFloat)

/-- At most, false when either side is not a number. -/
def le (x y : Number) : Bool := decide (x.toFloat ≤ y.toFloat)

end Number

end Lox
