import Statewise.Arithmetic
import Statewise.StateSet
import Statewise.Vector.Accuracy

/-!
# Vectors over the states

A state vector holds one value per state of a model. Truth values are kept as the set of the states
where they hold. A frontier, the result of a query for several objectives, has a length but no value
for single states.

A vector is usually computed over a domain only. The entries elsewhere are false or zero and mean
nothing.
-/

namespace Statewise

inductive Entries where
  | bools (members : StateSet) (size : Nat)
  | ints (values : Array Int64)
  | doubles (values : Array Float)
  | frontier (points : List (List Float)) (size : Nat)
deriving DecidableEq

structure StateVector where
  entries : Entries
  accuracy : Option Accuracy
deriving DecidableEq

namespace StateVector

/-! ## Making vectors -/

/-- The vector of a truth value per state. -/
def ofSet (members : StateSet) (size : Nat) : StateVector := ⟨.bools members size, none⟩

def ofInts (values : List Int64) : StateVector := ⟨.ints values.toArray, none⟩

def ofDoubles (values : List Float) : StateVector := ⟨.doubles values.toArray, none⟩

def frontier (points : List (List Float)) (size : Nat) : StateVector := ⟨.frontier points size, none⟩

/-- The vector with one value everywhere. -/
def constant (v : Value) (size : Nat) : StateVector :=
  match v with
  | .bool b => ofSet (if b then .full size else .empty) size
  | .int n => ⟨.ints (.replicate size n), none⟩
  | .double x => ⟨.doubles (.replicate size x), none⟩

/-- False or zero everywhere. -/
def zero (t : ValueType) (size : Nat) : StateVector := constant (.zero t) size

instance : Inhabited StateVector := ⟨zero .bool 0⟩

/-! ## Reading vectors -/

def size (v : StateVector) : Nat :=
  match v.entries with
  | .bools _ n | .frontier _ n => n
  | .ints xs => xs.size
  | .doubles xs => xs.size

/-- The type of the entries; a frontier counts as doubles. -/
def type (v : StateVector) : ValueType :=
  match v.entries with
  | .bools .. => .bool
  | .ints _ => .int
  | .doubles _ | .frontier .. => .double

def isFrontier (v : StateVector) : Bool :=
  match v.entries with
  | .frontier .. => true
  | _ => false

def points? (v : StateVector) : Option (List (List Float)) :=
  match v.entries with
  | .frontier ps _ => some ps
  | _ => none

/-- The entry of an array, or a complaint that the vector is too short to hold one for the state. -/
def entryAt {α : Type} (xs : Array α) (s : Nat) : Except EvalError α :=
  match xs[s]? with
  | some x => .ok x
  | none => .error (.lengthMismatch xs.size (s + 1))

/-- The value in a state. -/
def valueAt (v : StateVector) (s : Nat) : Except EvalError Value :=
  match v.entries with
  | .bools members n => if s < n then .ok (.bool (members.contains s)) else .error (.lengthMismatch n (s + 1))
  | .ints xs => (entryAt xs s).map .int
  | .doubles xs => (entryAt xs s).map .double
  | .frontier _ n => if s < n then .error .noPerStateValues else .error (.lengthMismatch n (s + 1))

/-- All values in the order of the states. -/
def values (v : StateVector) : Except EvalError (List Value) := (List.range v.size).mapM v.valueAt

/-- The states where a vector of truth values holds. -/
def stateSet? (v : StateVector) : Option StateSet :=
  match v.entries with
  | .bools members _ => some members
  | _ => none

/-- The satisfaction set, or the reason why the vector has none. -/
def satisfaction (v : StateVector) : Except EvalError StateSet :=
  match v.entries with
  | .bools members _ => .ok members
  | .frontier .. => .error .noPerStateValues
  | .ints _ | .doubles _ => .error (.typeMismatch .bool v.type)

def withAccuracy (v : StateVector) (a : Option Accuracy) : StateVector := { v with accuracy := a }

/-- Equality with doubles compared as numbers: `0.0` equals `-0.0`, and NaN differs from itself. -/
def agrees (v w : StateVector) : Bool :=
  (match v.accuracy, w.accuracy with
    | none, none => true
    | some a, some b => a.agrees b
    | _, _ => false) &&
  match v.entries, w.entries with
  | .bools a n, .bools b k => a == b && n == k
  | .ints xs, .ints ys => xs == ys
  | .doubles xs, .doubles ys => xs == ys
  | .frontier ps n, .frontier qs k => ps == qs && n == k
  | _, _ => false

@[simp] theorem size_ofSet (a : StateSet) (n : Nat) : (ofSet a n).size = n := rfl

@[simp] theorem size_constant (v : Value) (n : Nat) : (constant v n).size = n := by
  cases v <;> simp [constant, size, ofSet]

@[simp] theorem type_constant (v : Value) (n : Nat) : (constant v n).type = v.type := by
  cases v <;> rfl

@[simp] theorem size_zero (t : ValueType) (n : Nat) : (zero t n).size = n := size_constant ..

@[simp] theorem type_zero (t : ValueType) (n : Nat) : (zero t n).type = t := by simp [zero]

@[simp] theorem size_withAccuracy (v : StateVector) (a : Option Accuracy) :
    (v.withAccuracy a).size = v.size := rfl

@[simp] theorem valueAt_withAccuracy (v : StateVector) (a : Option Accuracy) (s : Nat) :
    (v.withAccuracy a).valueAt s = v.valueAt s := rfl

end StateVector

end Statewise
