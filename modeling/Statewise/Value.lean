import Statewise.Number.Decimal

/-!
# Scalar values

A value is a truth value, a 64-bit integer or a double. Integers widen to doubles; nothing else is
converted.
-/

namespace Statewise

/-- The static types of expressions. -/
inductive ValueType where
  | bool | int | double
deriving DecidableEq, Repr, Inhabited

namespace ValueType

def isNumeric : ValueType → Bool
  | bool => false
  | int | double => true

/-- The type of a combination of two numbers: an integer only of two integers. -/
def join : ValueType → ValueType → ValueType
  | int, int => int
  | _, _ => double

/-- The type of a choice: equal types stay, two different numeric types give a double, and otherwise the
first one stands. -/
def choice (t e : ValueType) : ValueType :=
  if t == e || !t.isNumeric || !e.isNumeric then t else double

def name : ValueType → String
  | bool => "bool"
  | int => "int"
  | double => "double"

def all : List ValueType := [bool, int, double]

def ofName? (s : String) : Option ValueType := all.find? (·.name == s)

end ValueType

inductive Value where
  | bool (b : Bool)
  | int (n : Int64)
  | double (x : Float)
deriving DecidableEq, Inhabited

namespace Value

def type : Value → ValueType
  | bool _ => .bool
  | int _ => .int
  | double _ => .double

/-- False, 0 or 0.0. -/
def zero : ValueType → Value
  | .bool => bool false
  | .int => int 0
  | .double => double 0.0

def bool? : Value → Option Bool
  | bool b => some b
  | _ => none

def int? : Value → Option Int64
  | int n => some n
  | _ => none

/-- The number as a double. -/
def float? : Value → Option Float
  | bool _ => none
  | int n => some n.toDouble
  | double x => some x

def isZero : Value → Bool
  | bool b => !b
  | int n => n == 0
  | double x => x == 0.0

/-- The value as one of the given type, if it has that type or widens to it. -/
def coerce? : Value → ValueType → Option Value
  | bool b, .bool => some (bool b)
  | int n, .int => some (int n)
  | int n, .double => some (double n.toDouble)
  | double x, .double => some (double x)
  | _, _ => none

/-- The text of a double: whole numbers below `10^15` keep one decimal place. -/
def doubleText (x : Float) : String :=
  match x.parts? with
  | some p => if p.isWhole && p.floor.natAbs < 1000000000000000 then x.plain ++ ".0" else x.plain
  | none => if x.isNaN then "NaN" else signText x.isNegative ++ "Infinity"

def text : Value → String
  | bool b => if b then "true" else "false"
  | int n => toString n.toInt
  | double x => doubleText x

/-- Equality of results: as values compare, except that NaN is the same as NaN. -/
def same : Value → Value → Bool
  | bool a, bool b => a == b
  | int a, int b => a == b
  | double x, double y => x == y || (x.isNaN && y.isNaN)
  | _, _ => false

/-- A value as people type it: an integer if it can be one, else a double, else a truth value. -/
def ofTyped? (s : String) : Option Value :=
  match typedWord? s, typedFloat? s with
  | some n, _ => some (int n)
  | none, some x => some (double x)
  | none, none =>
    match s with
    | "true" => some (bool true)
    | "false" => some (bool false)
    | _ => none

@[simp] theorem type_zero (t : ValueType) : (zero t).type = t := by cases t <;> rfl

theorem type_of_coerce? {v w : Value} {t : ValueType} (h : v.coerce? t = some w) : w.type = t := by
  cases v <;> cases t <;> simp [coerce?] at h <;> subst h <;> rfl

@[simp] theorem coerce?_type (v : Value) : v.coerce? v.type = some v := by cases v <;> rfl

end Value

end Statewise
