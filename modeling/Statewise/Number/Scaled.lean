import Statewise.Number.Decimal

/-!
# Doubles by scaling

A quick way from a decimal number to a double: as many of its digits as fit into 64 bits are rounded to
a double, and that is multiplied or divided by a power of ten. The result is the nearest double when
the digits and the power are doubles themselves; otherwise it is rounded more than once and may miss
the nearest double by a little.
-/

namespace Float

/-- `x * 10 ^ n`. Powers beyond the largest double leave zero alone and take all else to infinity. -/
def scaleUp (x : Float) (n : Nat) : Float :=
  if n ≤ 308 then x * .ofScientific 1 false n
  else if x == 0.0 then x
  else 1.0 / 0.0

/-- `x / 10 ^ n`. Powers beyond the largest double are divided by in steps of `10 ^ 308`. -/
def scaleDown (x : Float) (n : Nat) : Float :=
  if n ≤ 308 then x / .ofScientific 1 false n
  else if x == 0.0 then x
  else scaleDown (x / 1e308) (n - 308)
termination_by n

end Float

namespace Statewise.NumeralText

/-- Digits appended to a number as long as it stays below `2 ^ 64`, and the digits that are left. -/
def appendDigits (n : Nat) : List Char → Nat × List Char
  | [] => (n, [])
  | c :: cs =>
    let next := 10 * n + (c.toNat - '0'.toNat)
    if next < 18446744073709551616 then appendDigits next cs else (n, c :: cs)

/-- The number by scaling, infinite beyond the range of doubles. Digits of the whole part that find no
place count as powers of ten; those of the fraction are dropped. -/
def scaled (t : NumeralText) : Float :=
  let fraction := t.fraction.getD []
  let (whole, wholeLeft) := appendDigits 0 t.whole
  let (significand, fractionLeft) := appendDigits whole fraction
  let exponent : Int := t.exponent.getD 0 + wholeLeft.length - (fraction.length - fractionLeft.length)
  if 0 ≤ exponent then (Float.ofNat significand).scaleUp exponent.toNat
  else (Float.ofNat significand).scaleDown exponent.natAbs

/-- The double nearest to the number, infinite beyond the range of doubles. -/
def nearest (t : NumeralText) : Float := (t.toNumeral false).toFloat

end Statewise.NumeralText
