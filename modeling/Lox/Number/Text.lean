import Lox.Number.Decimal

/-!
# Numbers as text

Two spellings of a number.  `display` is what a program prints: an integral number with all its
digits, any other with the fewest digits that read back, and never an exponent.  `short` is the
spelling used in tree files and in quoted data: the fewest digits that read back, with an exponent
below `1e-4` and from `1e16` on.
-/

namespace Lox

namespace Decimal

/-- The digits with a point put in its place, and at least one digit on either side of it. -/
def positional (d : Decimal) : String :=
  let ds := (toString d.digits).toList
  let point : Int := (ds.length : Int) + d.exponent
  if point ≤ 0 then
    String.ofList ('0' :: '.' :: List.replicate (-point).toNat '0' ++ ds)
  else if (ds.length : Int) ≤ point then
    String.ofList (ds ++ List.replicate d.exponent.toNat '0' ++ ['.', '0'])
  else
    String.ofList (ds.take point.toNat ++ '.' :: ds.drop point.toNat)

/-- One digit, the others behind a point, and an exponent of at least two digits. -/
def scientific (d : Decimal) : String :=
  let ds := (toString d.digits).toList
  let power : Int := (ds.length : Int) + d.exponent - 1
  let places := match ds with
    | [] => []
    | [c] => [c]
    | c :: rest => c :: '.' :: rest
  let sign := if power < 0 then '-' else '+'
  let width := (toString power.natAbs).toList
  let padded := if width.length < 2 then '0' :: width else width
  String.ofList (places ++ 'e' :: sign :: padded)

/-- The power of ten of the first digit. -/
def leadingPower (d : Decimal) : Int := ((toString d.digits).length : Int) + d.exponent - 1

end Decimal

namespace Number

/-- What a printed number looks like. -/
def display (x : Number) : String :=
  if x.isNaN then "NaN"
  else
    let sign := if x.isNegative then "-" else ""
    if x.isInfinite then sign ++ "inf"
    else if x.isIntegral then sign ++ toString (x.fraction.1 / x.fraction.2)
    else sign ++ x.shortest.positional

/-- The names of the values that have no digits. -/
structure Names where
  nan : String
  infinity : String

/-- The short spelling, with the given names for what has no digits. -/
def short (names : Names) (x : Number) : String :=
  if x.isNaN then names.nan
  else
    let sign := if x.isNegative then "-" else ""
    if x.isInfinite then sign ++ names.infinity
    else if x.magnitude = 0 then sign ++ "0.0"
    else
      let d := x.shortest
      if -4 ≤ d.leadingPower ∧ d.leadingPower < 16 then sign ++ d.positional
      else sign ++ d.scientific

end Number

end Lox
