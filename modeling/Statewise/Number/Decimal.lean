import Statewise.Number.Shortest

/-!
# Decimal texts of doubles

Two ways of writing a double, both with the fewest digits that read back and ties upwards:
`Float.plain`, which never uses an exponent, and `Float.scientific`, which always does. `Numeral` is a
decimal number as it was written; `Numeral.toFloat` is the double nearest to it.
-/

namespace Statewise

/-- The sign in front of a number. -/
def signText (negative : Bool) : String := if negative then "-" else ""

namespace Decimal

/-- Positional notation, without a point for a whole number. -/
def plain (d : Decimal) : String :=
  let digits := toString d.digits
  let places := (-d.exponent).toNat
  if places = 0 then digits ++ "".pushn '0' (if d.digits = 0 then 0 else d.exponent.toNat)
  else if places < digits.length then
    ((digits.take (digits.length - places)).toString ++ "." ++ (digits.drop (digits.length - places)).toString)
  else "0." ++ "".pushn '0' (places - digits.length) ++ digits

/-- One digit, the others behind a point, and the power of ten. -/
def scientific (d : Decimal) : String :=
  let digits := toString d.digits
  let rest := (digits.drop 1).toString
  let exponent := if d.digits = 0 then 0 else d.exponent + digits.length - 1
  (digits.take 1).toString ++ (if rest.isEmpty then "" else "." ++ rest) ++ "e" ++ toString exponent

end Decimal

end Statewise

namespace Float

open Statewise

/-- The text of a number without a finite value. -/
def nonFiniteText (x : Float) : String :=
  if x.isNaN then "NaN" else if x.isNegative then "-inf" else "inf"

/-- The fewest digits that read back, in positional notation: `0.1`, `1`, `-0`, `100000`. -/
def plain (x : Float) : String :=
  match x.parts? with
  | some p => signText p.negative ++ (p.shortest .upper).plain
  | none => x.nonFiniteText

/-- The fewest digits that read back, as a power of ten: `1e-1`, `1.25e3`, `0e0`. -/
def scientific (x : Float) : String :=
  match x.parts? with
  | some p => signText p.negative ++ (p.shortest .upper).scientific
  | none => x.nonFiniteText

end Float

namespace Statewise

/-- The decimal number `± digits * 10 ^ exponent`, as it was written. -/
structure Numeral where
  negative : Bool
  digits : Nat
  exponent : Int
deriving DecidableEq, Repr

/-- The pieces of an unsigned numeral `whole.fraction e exponent`. -/
structure NumeralText where
  whole : List Char
  fraction : Option (List Char)
  exponent : Option Int

namespace NumeralText

/-- The number that a row of digits spells. -/
def natOfDigits (cs : List Char) : Nat :=
  cs.foldl (fun n c => 10 * n + (c.toNat - '0'.toNat)) 0

/-- A sign, if there is one, and the characters behind it. -/
def splitSign : List Char → Bool × List Char
  | '-' :: cs => (true, cs)
  | '+' :: cs => (false, cs)
  | cs => (false, cs)

/-- A possibly signed integer that is all of the text. -/
def integer? (cs : List Char) : Option Int :=
  let (negative, digits) := splitSign cs
  if digits.isEmpty || !digits.all Char.isDigit then none
  else some (if negative then -natOfDigits digits else natOfDigits digits)

/-- The exponent part: `e` or `E` and an integer, or nothing at all. -/
def exponent? : List Char → Option (Option Int)
  | [] => some none
  | c :: cs => if c = 'e' ∨ c = 'E' then (integer? cs).map some else none

/-- The pieces of a text that is an unsigned numeral from end to end. -/
def ofChars? (cs : List Char) : Option NumeralText :=
  let whole := cs.takeWhile Char.isDigit
  match cs.dropWhile Char.isDigit with
  | '.' :: rest =>
    (exponent? (rest.dropWhile Char.isDigit)).map fun e => ⟨whole, some (rest.takeWhile Char.isDigit), e⟩
  | rest => (exponent? rest).map fun e => ⟨whole, none, e⟩

def toNumeral (t : NumeralText) (negative : Bool) : Numeral :=
  let fraction := t.fraction.getD []
  ⟨negative, natOfDigits (t.whole ++ fraction), t.exponent.getD 0 - fraction.length⟩

end NumeralText

namespace Numeral

/-- The nearest double, ties to the even mantissa. Magnitudes far outside the range of doubles are
recognised by their exponent alone. -/
def toFloat (n : Numeral) : Float :=
  let top := n.exponent + (toString n.digits).length
  let magnitude : Float :=
    if n.digits = 0 ∨ top < -400 then 0.0
    else if 400 < top then 1.0 / 0.0
    else .ofScientific n.digits (n.exponent < 0) n.exponent.natAbs
  if n.negative then -magnitude else magnitude

/-- A decimal number as people type it: a sign of either kind, digits on at least one side of the
point, an exponent. -/
def ofTyped? (s : String) : Option Numeral := do
  let (negative, cs) := NumeralText.splitSign s.toList
  let t ← NumeralText.ofChars? cs
  if t.whole.isEmpty && (t.fraction.getD []).isEmpty then none
  else some (t.toNumeral negative)

end Numeral

/-- A double as people type it: a decimal number, or the name of an infinity or of NaN in letters of
either case. -/
def typedFloat? (s : String) : Option Float :=
  match Numeral.ofTyped? s with
  | some n => some n.toFloat
  | none =>
    let (negative, cs) := NumeralText.splitSign s.toList
    let signed (x : Float) : Float := if negative then -x else x
    match String.ofList (cs.map Char.toLower) with
    | "inf" => some (signed (1.0 / 0.0))
    | "infinity" => some (signed (1.0 / 0.0))
    | "nan" => some (signed (0.0 / 0.0))
    | _ => none

/-- A 64-bit integer as people type it. -/
def typedWord? (s : String) : Option Int64 :=
  (NumeralText.integer? s.toList).bind Int64.ofIntExact?

end Statewise
