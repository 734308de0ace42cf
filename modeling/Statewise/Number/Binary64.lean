import Statewise.Number.Word

/-!
# Doubles as integers times powers of two

`Float.parts?` takes a finite double apart into a sign, a whole mantissa and a binary exponent.
Rounding to integers and the decimal texts are computed from these parts with whole numbers only.
-/

namespace Statewise

/-- The bit of a mantissa that is not stored, `2 ^ 52`. -/
def hiddenBit : Nat := 4503599627370496

/-- The finite double `± mantissa * 2 ^ exponent`. -/
structure Parts where
  negative : Bool
  mantissa : Nat
  exponent : Int
deriving DecidableEq, Repr

/-- The greatest integer that is not above the double. -/
def Parts.floor (p : Parts) : Int :=
  let signed : Int := if p.negative then -p.mantissa else p.mantissa
  if 0 ≤ p.exponent then signed * Nat.pow 2 p.exponent.toNat
  else Int.fdiv signed (Nat.pow 2 (-p.exponent).toNat)

/-- Whether the double is a whole number. -/
def Parts.isWhole (p : Parts) : Bool :=
  decide (0 ≤ p.exponent) || p.mantissa % Nat.pow 2 (-p.exponent).toNat == 0

end Statewise

namespace Float

open Statewise (hiddenBit)

/-- The set sign bit; also of `-0.0`. -/
def isNegative (x : Float) : Bool := 9223372036854775808 ≤ x.toBits.toNat

/-- The parts of a finite double; infinities and NaN have none. -/
def parts? (x : Float) : Option Statewise.Parts :=
  let bits := x.toBits.toNat
  let field : Nat := bits / hiddenBit % 2048
  let fraction : Nat := bits % hiddenBit
  if field = 2047 then none
  else if field = 0 then some ⟨x.isNegative, fraction, -1074⟩
  else some ⟨x.isNegative, fraction + hiddenBit, (field : Int) - 1075⟩

/-- The word nearest to the greatest integer that is not above `x`; 0 for NaN. -/
def floorWord (x : Float) : Int64 :=
  match x.parts? with
  | some p => .saturate p.floor
  | none => if x.isNaN then 0 else if x.isNegative then .minValue else .maxValue

/-- The word nearest to the least integer that is not below `x`; 0 for NaN. -/
def ceilWord (x : Float) : Int64 :=
  match x.parts? with
  | some p => .saturate (-Statewise.Parts.floor { p with negative := !p.negative })
  | none => if x.isNaN then 0 else if x.isNegative then .minValue else .maxValue

/-- The smaller of two doubles; NaN gives way to the other operand. -/
def lesser (x y : Float) : Float :=
  if x.isNaN then y else if y.isNaN then x else if y < x then y else x

/-- The greater of two doubles; NaN gives way to the other operand. -/
def greater (x y : Float) : Float :=
  if x.isNaN then y else if y.isNaN then x else if x < y then y else x

end Float

/-- The double nearest to a word. -/
def Int64.toDouble (n : Int64) : Float :=
  let magnitude := (UInt64.ofNat n.toInt.natAbs).toFloat
  if n.toInt < 0 then -magnitude else magnitude
