import Statewise.Number.Binary64

/-!
# The fewest digits that read back

Every double stands for the interval of reals that round to it. `Parts.shortest` looks for the
coarsest decimal grid with a point in that interval: that point has the fewest digits, and of two
such points on one grid the nearer is taken. Where both are equally near, as for `0.25` more than a
whole number of sixteen digits, the text format decides by its `Tie`.
-/

namespace Statewise

/-- The non-negative decimal number `digits * 10 ^ exponent`. -/
structure Decimal where
  digits : Nat
  exponent : Int
deriving DecidableEq, Repr

/-- Which of two neighbours on a grid stands for a number half-way between them. -/
inductive Tie where
  | upper
  /-- The one whose last digit is even. -/
  | even
deriving DecidableEq, Repr

/-- The choice between `c` and `c + 1` on a tie. -/
def Tie.choose (t : Tie) (c : Nat) : Nat :=
  match t with
  | upper => c + 1
  | even => if c % 2 = 0 then c else c + 1

namespace Parts

/-- The double as a quotient of whole numbers, with the two ends of its interval: all three over
one denominator. -/
structure Interval where
  low : Nat
  value : Nat
  high : Nat
  denominator : Nat
  /-- Whether the ends themselves round to the double: they do when its mantissa is even. -/
  closed : Bool

/-- The reals that round to the double. The gap below a power of two is half as wide as the gap above
it, except at the smallest exponent. -/
def interval (p : Parts) : Interval :=
  let below := if p.mantissa = hiddenBit ∧ -1074 < p.exponent then 1 else 2
  let quarter := p.exponent - 2
  let scale := Nat.pow 2 quarter.toNat
  { low := (4 * p.mantissa - below) * scale
    value := 4 * p.mantissa * scale
    high := (4 * p.mantissa + 2) * scale
    denominator := Nat.pow 2 (-quarter).toNat
    closed := p.mantissa % 2 == 0 }

/-- The one of `c * unit` and `(c + 1) * unit` that is nearer to a value between them. -/
def nearer (t : Tie) (value unit c : Nat) : Nat :=
  let below := value - c * unit
  let above := (c + 1) * unit - value
  if below < above then c else if above < below then c + 1 else t.choose c

/-- The point of the grid of multiples of `10 ^ e` that stands for the double, if one does: one of the
double's two neighbours on the grid that lies in the interval, the nearer one if both do. -/
def Interval.onGrid? (i : Interval) (t : Tie) (e : Int) : Option Decimal :=
  let up := Nat.pow 10 (-e).toNat
  let unit := i.denominator * Nat.pow 10 e.toNat
  let value := i.value * up
  let within (c : Nat) : Bool :=
    if i.closed then i.low * up ≤ c * unit && c * unit ≤ i.high * up
    else i.low * up < c * unit && c * unit < i.high * up
  let c := value / unit
  match within c, within (c + 1) with
  | false, false => none
  | true, false => some ⟨c, e⟩
  | false, true => some ⟨c + 1, e⟩
  | true, true => some ⟨nearer t value unit c, e⟩

/-- A power of ten that is above the double. -/
def topExponent (p : Parts) : Int :=
  Int.fdiv ((p.mantissa.log2 + 1 + p.exponent) * 30103) 100000 + 2

/-- All digits of the double. -/
def expansion (p : Parts) : Decimal :=
  if 0 ≤ p.exponent then ⟨p.mantissa * Nat.pow 2 p.exponent.toNat, 0⟩
  else ⟨p.mantissa * Nat.pow 5 (-p.exponent).toNat, p.exponent⟩

/-- The decimal number with the fewest digits that reads back as the double. Seventeen digits always
suffice, so the search ends within the grids it looks at. -/
def shortest (p : Parts) (t : Tie) : Decimal :=
  if p.mantissa = 0 then ⟨0, 0⟩
  else
    let top := p.topExponent
    ((List.range 26).findSome? fun (i : Nat) => p.interval.onGrid? t (top - i)).getD p.expansion

end Parts

end Statewise
