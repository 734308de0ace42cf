import Statewise.Operator

/-!
# Operators on values

What the operators and functions do to values. Integer arithmetic is exact: a result outside 64 bits
is an overflow and never wraps. Division always yields a double.
-/

namespace Statewise

/-- Why a value could not be computed. -/
inductive EvalError where
  | typeMismatch (expected found : ValueType)
  /-- A number was needed. -/
  | notNumeric (found : ValueType)
  /-- The function does not take two arguments. -/
  | notBinary (f : Function)
  | moduloZero
  | negativeModulus (divisor : Int64)
  | overflow (operation : String)
  | negativeExponent (exponent : Int64)
  | nonFinite (x : Float)
  /-- The vector is a set of points and holds nothing for single states. -/
  | noPerStateValues
  | emptyReduction
  | lengthMismatch (expected found : Nat)
  /-- A sum or a mean reached behind the end of a vector of numbers. -/
  | outOfBounds (length index : Nat)
deriving DecidableEq, Inhabited

namespace EvalError

def message : EvalError → String
  | typeMismatch expected found => "type mismatch: expected " ++ expected.name ++ ", found " ++ found.name
  | notNumeric found => "type mismatch: expected numeric, found " ++ found.name
  | notBinary f => "type mismatch: expected binary function, found " ++ f.name
  | moduloZero => "attempt to compute modulo zero"
  | negativeModulus d => "negative modulus " ++ toString d.toInt ++ " not allowed"
  | overflow op => "integer overflow in " ++ op
  | negativeExponent e => "negative exponent " ++ toString e.toInt ++ " not allowed for integer power"
  | nonFinite x => "cannot convert non-finite value " ++ x.plain ++ " to an integer"
  | noPerStateValues => "vector has no per-state values (multi-objective frontier)"
  | emptyReduction => "reduction over an empty set of states"
  | lengthMismatch expected found =>
    "vector length mismatch: expected " ++ toString expected ++ ", found " ++ toString found
  | outOfBounds length index =>
    "index out of bounds: the len is " ++ toString length ++ " but the index is " ++ toString index

end EvalError

namespace Value

/-! ## Operands of a needed type -/

def expectBool : Value → Except EvalError Bool
  | bool b => .ok b
  | v => .error (.typeMismatch .bool v.type)

def expectInt : Value → Except EvalError Int64
  | int n => .ok n
  | v => .error (.typeMismatch .int v.type)

def expectFloat : Value → Except EvalError Float
  | bool _ => .error (.notNumeric .bool)
  | int n => .ok n.toDouble
  | double x => .ok x

/-! ## Integers -/

/-- The integer as a value, if it fits. -/
def ofExact (operation : String) (n : Int) : Except EvalError Value :=
  match Int64.ofIntExact? n with
  | some w => .ok (int w)
  | none => .error (.overflow operation)

/-- The integer power, for an exponent that is not negative. Exponents of more than 32 bits count as an
overflow whatever the base. A base of magnitude at least 2 overflows at every exponent above 64, so no
larger power is ever formed. -/
def intPow (base exponent : Int64) : Except EvalError Value :=
  if exponent < 0 then .error (.negativeExponent exponent)
  else if 4294967295 < exponent.toInt then .error (.overflow "pow")
  else if base.toInt.natAbs ≤ 1 then
    ofExact "pow" (Int.pow base.toInt (if exponent.toInt = 0 then 0 else 2 - exponent.toInt.toNat % 2))
  else if 64 < exponent.toInt then .error (.overflow "pow")
  else ofExact "pow" (Int.pow base.toInt exponent.toInt.toNat)

/-- The remainder that is not negative, for a positive divisor. -/
def intMod (a b : Int64) : Except EvalError Value :=
  if b = 0 then .error .moduloZero
  else if b < 0 then .error (.negativeModulus b)
  else .ok (int (Int64.ofInt (a.toInt % b.toInt)))

/-! ## Operators -/

/-- Equality: exact on two truth values or two integers, else on doubles. -/
def equals (a b : Value) : Except EvalError Bool :=
  match a, b with
  | bool x, bool y => .ok (x == y)
  | int x, int y => .ok (x == y)
  | a, b => do return (← a.expectFloat) == (← b.expectFloat)

/-- A comparison: exact on integers, else on doubles. -/
def compareWith (intHolds : Int64 → Int64 → Bool) (floatHolds : Float → Float → Bool)
    (a b : Value) : Except EvalError Value :=
  match a, b with
  | int x, int y => .ok (bool (intHolds x y))
  | a, b => do return bool (floatHolds (← a.expectFloat) (← b.expectFloat))

/-- Addition, subtraction or multiplication: exact on integers, else on doubles. -/
def arithmetic (op : BinaryOp) (onInt : Int → Int → Int) (onFloat : Float → Float → Float)
    (a b : Value) : Except EvalError Value :=
  match a, b with
  | int x, int y => ofExact op.symbol (onInt x.toInt y.toInt)
  | a, b => do return double (onFloat (← a.expectFloat) (← b.expectFloat))

/-- The value of a binary operator. The right operand of a connective that the left one decides is not
looked at. -/
def applyBinary (op : BinaryOp) (a b : Value) : Except EvalError Value :=
  match op with
  | .implies => do if ← a.expectBool then return bool (← b.expectBool) else return bool true
  | .iff => do return bool ((← a.expectBool) == (← b.expectBool))
  | .or => do if ← a.expectBool then return bool true else return bool (← b.expectBool)
  | .and => do if ← a.expectBool then return bool (← b.expectBool) else return bool false
  | .eq => do return bool (← a.equals b)
  | .ne => do return bool (!(← a.equals b))
  | .gt => compareWith (fun x y => y < x) (fun x y => y < x) a b
  | .ge => compareWith (fun x y => y ≤ x) (fun x y => y ≤ x) a b
  | .lt => compareWith (fun x y => x < y) (fun x y => x < y) a b
  | .le => compareWith (fun x y => x ≤ y) (fun x y => x ≤ y) a b
  | .plus => arithmetic op (· + ·) (· + ·) a b
  | .minus => arithmetic op (· - ·) (· - ·) a b
  | .times => arithmetic op (· * ·) (· * ·) a b
  | .divide => do return double ((← a.expectFloat) / (← b.expectFloat))

def applyUnary (op : UnaryOp) (a : Value) : Except EvalError Value :=
  match op, a with
  | .not, a => do return bool (!(← a.expectBool))
  | .minus, int n => ofExact "-" (-n.toInt)
  | .minus, a => do return double (-(← a.expectFloat))
  | .parenth, a => .ok a

/-! ## Functions -/

/-- A function of one argument. Integers are already whole; halves are rounded up, and results beyond 64
bits stop at the nearer end. Functions other than `floor` and `ceil` round to the nearest integer. -/
def applyFunction1 (f : Function) (a : Value) : Except EvalError Value :=
  match a with
  | int n => .ok (int n)
  | a => do
    let x ← a.expectFloat
    if !x.isFinite then throw (.nonFinite x)
    match f with
    | .floor => return int x.floorWord
    | .ceil => return int x.ceilWord
    | _ => return int (x + 0.5).floorWord

/-- One of two numbers: picked exactly among integers, else among doubles. -/
def pick (onInt : Int64 → Int64 → Int64) (onFloat : Float → Float → Float)
    (a b : Value) : Except EvalError Value :=
  match a, b with
  | int x, int y => .ok (int (onInt x y))
  | a, b => do return double (onFloat (← a.expectFloat) (← b.expectFloat))

/-- A function of two arguments. -/
def applyFunction2 (f : Function) (a b : Value) : Except EvalError Value :=
  match f with
  | .min => pick min Float.lesser a b
  | .max => pick max Float.greater a b
  | .pow =>
    match a, b with
    | int x, int y => intPow x y
    | a, b => do return double ((← a.expectFloat).pow (← b.expectFloat))
  | .mod => do intMod (← a.expectInt) (← b.expectInt)
  | .log => do return double ((← a.expectFloat).log / (← b.expectFloat).log)
  | .floor | .ceil | .round | .multi => .error (.notBinary f)

/-- The branch that a condition picks. -/
def applyIte (condition thenValue elseValue : Value) : Except EvalError Value := do
  if ← condition.expectBool then return thenValue else return elseValue

end Value

end Statewise
