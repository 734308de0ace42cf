import Statewise.Vector.Basic

/-!
# Reductions

What a vector amounts to over a set of states: extremes, sums, counts, and the states whose value is
close to a given one. States are visited in increasing order.
-/

namespace Statewise

namespace StateVector

/-! ## Extremes -/

/-- The smaller of two values; of truth values the conjunction. -/
def lesserValue (a b : Value) : Except EvalError Value :=
  match a, b with
  | .bool x, .bool y => .ok (.bool (x && y))
  | .int x, .int y => .ok (.int (min x y))
  | a, b => do return .double ((← a.expectFloat).lesser (← b.expectFloat))

/-- The greater of two values; of truth values the disjunction. -/
def greaterValue (a b : Value) : Except EvalError Value :=
  match a, b with
  | .bool x, .bool y => .ok (.bool (x || y))
  | .int x, .int y => .ok (.int (max x y))
  | a, b => do return .double ((← a.expectFloat).greater (← b.expectFloat))

/-- The values over the states combined from the first to the last. -/
def foldOver (v : StateVector) (combine : Value → Value → Except EvalError Value) (states : StateSet) :
    Except EvalError Value :=
  match states.toList with
  | [] => .error .emptyReduction
  | s :: rest => do
    rest.foldlM (fun acc s => do combine acc (← v.valueAt s)) (← v.valueAt s)

def minOver (v : StateVector) (states : StateSet) : Except EvalError Value := v.foldOver lesserValue states

def maxOver (v : StateVector) (states : StateSet) : Except EvalError Value := v.foldOver greaterValue states

/-- The least and the greatest value. -/
def rangeOver (v : StateVector) (states : StateSet) : Except EvalError (Value × Value) := do
  return (← v.minOver states, ← v.maxOver states)

/-- The value in the least state. -/
def firstIn (v : StateVector) (states : StateSet) : Except EvalError Value :=
  match states.first? with
  | some s => v.valueAt s
  | none => .error .emptyReduction

/-! ## Sums -/

/-- An entry of an array that sums take without asking for the length first. -/
def rawEntry {α : Type} (xs : Array α) (s : Nat) : Except EvalError α :=
  match xs[s]? with
  | some x => .ok x
  | none => .error (.outOfBounds xs.size s)

/-- The sum of doubles from the first to the last. The empty sum is `-0.0`, which changes no sum. -/
def floatSum (f : Nat → Except EvalError Float) (states : StateSet) : Except EvalError Float :=
  states.toList.foldlM (fun acc s => do return acc + (← f s)) (-0.0)

/-- The sum of integers from the first to the last; every partial sum has to fit. -/
def intSum (xs : Array Int64) (states : StateSet) : Except EvalError Int64 :=
  states.toList.foldlM (fun acc s => do
    let x ← rawEntry xs s
    match Int64.ofIntExact? (acc.toInt + x.toInt) with
    | some n => return n
    | none => throw (.overflow "sum")) 0

def sumOver (v : StateVector) (states : StateSet) : Except EvalError Value :=
  match v.entries with
  | .ints xs => (intSum xs states).map .int
  | .doubles xs => (floatSum (rawEntry xs) states).map .double
  | .bools .. => .error (.notNumeric .bool)
  | .frontier .. => .error .noPerStateValues

/-- The mean, as a double. -/
def avgOver (v : StateVector) (states : StateSet) : Except EvalError Value :=
  if states.isEmpty then .error .emptyReduction
  else
    let mean (sum : Float) : Value := .double (sum / Float.ofNat states.size)
    match v.entries with
    | .ints xs => (floatSum (fun s => (rawEntry xs s).map Int64.toDouble) states).map mean
    | .doubles xs => (floatSum (rawEntry xs) states).map mean
    | .bools .. => .error (.notNumeric .bool)
    | .frontier .. => .error .noPerStateValues

/-! ## Truth values -/

/-- The number of the states where the vector holds. -/
def countOver (v : StateVector) (states : StateSet) : Except EvalError Nat := do
  let members ← v.satisfaction
  return states.toList.countP members.contains

def forAllOver (v : StateVector) (states : StateSet) : Except EvalError Bool := do
  return states.subset (← v.satisfaction)

def existsOver (v : StateVector) (states : StateSet) : Except EvalError Bool := do
  return states.toList.any (← v.satisfaction).contains

/-! ## Lists of states -/

/-- Whether an entry is as good as `target`: exactly on truth values and integers, else within the
tolerance. -/
def isClose (t : Tolerance) (target entry : Value) : Except EvalError Bool :=
  match entry, target with
  | .bool a, .bool b => .ok (a == b)
  | .int a, .int b => .ok (a == b)
  | entry, target => do return t.close (← target.expectFloat) (← entry.expectFloat)

/-- The states whose value is as good as `target`, among those given. -/
def closeStates (v : StateVector) (target : Value) (t : Tolerance) (within : Option StateSet) :
    Except EvalError StateSet := do
  let states := match within with
    | some d => d.toList
    | none => List.range v.size
  return .ofList (← states.filterM fun s => do isClose t target (← v.valueAt s))

/-- One line per state, its description and its value. Without `includeZeros` the states where the value
is false or zero are left out. -/
def format (v : StateVector) (states : StateSet) (includeZeros : Bool) (describe : Nat → String) :
    Except EvalError (List String) := do
  let lines ← states.toList.mapM fun s => do
    let x ← v.valueAt s
    return if includeZeros || !x.isZero then some (describe s ++ ":" ++ x.text) else none
  return lines.filterMap id

end StateVector

end Statewise
