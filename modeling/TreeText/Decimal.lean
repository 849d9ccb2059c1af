import TreeText.Numeral
import TreeText.Reader

/-!
# Decimal fractions

A decimal fraction is a signed whole number times a power of ten. It is written as digits with an
optional point and an optional exponent. As a floating-point number it is the nearest one; what is
too large becomes infinite and too large becomes infinite and what is too small becomes zero.
-/

namespace TreeText

/-- The number `± mantissa * 10 ^ scale`. -/
structure Decimal where
  negative : Bool
  mantissa : Nat
  scale : Int
  deriving DecidableEq, Repr

namespace Decimal

/-- The fraction with the given digits before and behind the point. -/
def ofDigits (negative : Bool) (whole fraction : List Char) (exponent : Int) : Decimal :=
  ⟨negative, Numeral.value 10 (whole ++ fraction), exponent - fraction.length⟩

/-- The signed number of an exponent. -/
def signed (negative : Bool) (ds : List Char) : Int :=
  if negative then -(Numeral.value 10 ds : Int) else Numeral.value 10 ds

/-- A sign, or none; whether it is a minus. -/
def sign : Reader Bool
  | '-' :: rest => some (true, rest)
  | '+' :: rest => some (false, rest)
  | s => some (false, s)

/-- An exponent: its letter, a sign, and digits as `digits` reads them. -/
def exponent (digits : Reader (List Char)) : Reader Int := do
  let _ ← Reader.satisfy fun c => c = 'e' || c = 'E'
  let negative ← sign
  let ds ← digits
  pure (signed negative ds)

/-- One more than the decimal exponent of the first digit: `|x| < 10 ^ order x`. -/
def order (x : Decimal) : Int :=
  (toString x.mantissa).length + x.scale

/-- The nearest floating-point number. Orders beyond 400 are decided at once: there, all numbers are
infinite or zero. -/
def toFloat (x : Decimal) : Float :=
  let magnitude : Float :=
    if x.mantissa = 0 then 0.0
    else if x.order > 400 then 1.0 / 0.0
    else if x.order < -400 then 0.0
    else if x.scale < 0 then Float.ofScientific x.mantissa true x.scale.natAbs
    else Float.ofScientific x.mantissa false x.scale.natAbs
  if x.negative then -magnitude else magnitude

end Decimal

end TreeText
