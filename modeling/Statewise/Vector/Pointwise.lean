import Statewise.Vector.Basic

/-!
# Computing state by state

`StateVector.tabulate` computes the entries over a domain one after the other, in increasing order of
the states, and stops at the first that fails. The pointwise combinations of vectors are made from it.
-/

namespace Statewise

namespace StateVector

/-- The states of a domain in increasing order; all states of the vector without one. -/
def statesOf (size : Nat) (domain : Option StateSet) : List Nat :=
  match domain with
  | some d => d.toList
  | none => List.range size

/-- The array with the given entries and `zero` everywhere else. -/
def fill {α : Type} (size : Nat) (zero : α) (entries : List (Nat × α)) : Array α :=
  entries.foldl (fun xs e => xs.setIfInBounds e.1 e.2) (.replicate size zero)

/-- The entries over a domain: `f` gives the value in a state and `take` makes it an entry. -/
def entriesOver {α ε : Type} (lift : EvalError → ε) (take : Value → Except EvalError α)
    (size : Nat) (domain : Option StateSet) (f : Nat → Except ε Value) : Except ε (List (Nat × α)) :=
  (statesOf size domain).mapM fun s => do
    let v ← f s
    if size ≤ s then throw (lift (.lengthMismatch size (s + 1)))
    match take v with
    | .ok x => return (s, x)
    | .error e => throw (lift e)

/-- The vector of a type whose entry in each state of the domain is the value of `f` there, widened to
the type if need be. -/
def tabulate {ε : Type} (lift : EvalError → ε) (t : ValueType) (size : Nat) (domain : Option StateSet)
    (f : Nat → Except ε Value) : Except ε StateVector :=
  match t with
  | .bool => do
    let es ← entriesOver lift Value.expectBool size domain f
    return ofSet (.ofList (es.filterMap fun e => if e.2 then some e.1 else none)) size
  | .int => do
    let es ← entriesOver lift Value.expectInt size domain f
    return ⟨.ints (fill size 0 es), none⟩
  | .double => do
    let es ← entriesOver lift Value.expectFloat size domain f
    return ⟨.doubles (fill size 0.0 es), none⟩

/-- The vectors have one length. -/
def checkSize (v w : StateVector) : Except EvalError Unit :=
  if v.size = w.size then .ok () else .error (.lengthMismatch v.size w.size)

/-- One operand, state by state. The accuracy stays. -/
def map1 (v : StateVector) (t : ValueType) (domain : Option StateSet)
    (f : Value → Except EvalError Value) : Except EvalError StateVector := do
  let out ← tabulate id t v.size domain fun s => do f (← v.valueAt s)
  return out.withAccuracy v.accuracy

/-- Two operands, state by state. -/
def map2 (v w : StateVector) (t : ValueType) (domain : Option StateSet)
    (f : Value → Value → Except EvalError Value) : Except EvalError StateVector := do
  v.checkSize w
  tabulate id t v.size domain fun s => do f (← v.valueAt s) (← w.valueAt s)

/-- Three operands, state by state. -/
def map3 (u v w : StateVector) (t : ValueType) (domain : Option StateSet)
    (f : Value → Value → Value → Except EvalError Value) : Except EvalError StateVector := do
  u.checkSize v
  u.checkSize w
  tabulate id t u.size domain fun s => do f (← u.valueAt s) (← v.valueAt s) (← w.valueAt s)

end StateVector

end Statewise
