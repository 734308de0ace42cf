import Statewise.Check.Checker
import Statewise.Expr.Printer
import Statewise.Vector.Reduction

/-!
# Filters

A filter is evaluated in three steps. `Filter.select` makes the satisfaction set of the selector the
states of the filter, `Filter.reduce` combines the values of the operand over these states, and
`Filter.record` leaves the result behind as the answer. Between the first two the operand is evaluated
over the states of the filter.
-/

namespace Statewise

/-- A filter without its operand. -/
structure Filter where
  op : FilterOp
  selector : Option Expr
  invisible : Bool
  explained : Bool

/-- The states of a filter, and how they came about. -/
structure Selection where
  states : StateSet
  /-- The selector holds in all states. -/
  isAll : Bool
  /-- The selector is the label of the initial states. -/
  isInit : Bool
  /-- And there is only one initial state. -/
  isOnlyInit : Bool

/-- What a filter yields: its vector, and what it reports. -/
structure Reduced where
  vector : StateVector
  value : Option ResultValue
  accuracy : Option Accuracy
  explanation : Option String

namespace Reduced

/-- Nothing is reported. -/
def vectorOnly (v : StateVector) : Reduced := ⟨v, none, none, none⟩

/-- One value, reported and everywhere in the vector. -/
def single (numStates : Nat) (v : Value) (accuracy : Option Accuracy) (explanation : String) : Reduced :=
  ⟨(StateVector.constant v numStates).withAccuracy accuracy, some (.value v), accuracy, some explanation⟩

end Reduced

namespace Filter

def selectorText (f : Filter) : String := (f.selector.map Expr.text).getD "true"

/-- The answer is about one state if the filter is for one state, or asks about the only initial one. -/
def hint (f : Filter) (s : Selection) : Option Hint :=
  match f.op with
  | .state => s.states.first?.map (⟨f.op, ·⟩)
  | .forAll | .first => if s.isOnlyInit then s.states.first?.map (⟨f.op, ·⟩) else none
  | _ => none

/-- The states of the filter, given those that satisfy its selector. -/
def select (f : Filter) (m : Model) (satisfying : StateSet) : Check Selection := do
  if satisfying.isEmpty then throw .emptyFilter
  let isInit := Expr.selectsInit f.selector
  if !f.invisible && !isInit then
    Check.message ("States satisfying filter " ++ f.selectorText ++ ": " ++ toString satisfying.size)
  let selection : Selection :=
    { states := if f.op = .first then satisfying.retainFirst else satisfying
      isAll := satisfying.isFull m.numStates
      isInit
      isOnlyInit := isInit && m.numInitial == 1 }
  if f.op = .state ∧ selection.states.size ≠ 1 then
    throw (.filterCardinality f.selectorText selection.states.size)
  Check.setHint (f.hint selection)
  return selection

/-! ## Reductions -/

/-- List the states that share an extreme value. -/
def showMatching (settings : Settings) (m : Model) (matching : StateSet) (v : Value) : Check Unit := do
  let approximately := if v.type = .double then "(approximately) " else ""
  Check.message ("There are " ++ toString matching.size ++ " states with " ++ approximately ++ "this value")
  if settings.verbose then matching.toList.forM fun s => Check.message (m.describe s)
  else
    if settings.maxShown < matching.size then
      Check.message ("The first " ++ toString settings.maxShown ++ " states are displayed below. " ++
        "To view them all, enable verbose mode or use a print filter.")
    (matching.toList.take settings.maxShown).forM fun s => Check.message (m.describe s)

/-- Report a value under the words that explain it. -/
def report (explanation : String) (value : String) : Check Unit :=
  Check.message (explanation ++ ": " ++ value)

variable (f : Filter) (settings : Settings) (m : Model) (s : Selection) (v : StateVector)

/-- The states that a reduction is said to be over. -/
def scope : String := if s.isAll then "all states" else "states satisfying filter"

def reducePrint (includeZeros : Bool) : Check Reduced := do
  let lines ← Check.ofEval (v.format s.states includeZeros m.describe)
  if v.type = .bool then
    if s.isAll then Check.message "Satisfying states:"
    else Check.message ("Satisfying states that are also in filter " ++ f.selectorText ++ ":")
  else
    Check.message ("Results (" ++ (if includeZeros then "including zeros" else "non-zero only") ++
      ") for filter " ++ f.selectorText ++ ":")
  lines.forM Check.message
  return .vectorOnly v

def reduceStore : Check Reduced := do
  modify fun r => { r with answer := { r.answer with vector := some v } }
  return .vectorOnly v

/-- The states whose value is as good as the extreme one. -/
def matching (extreme : Value) : Check StateSet :=
  Check.ofEval (v.closeStates extreme settings.tolerance (some s.states))

def reduceExtreme (kind : String) (extreme : Except EvalError Value) : Check Reduced := do
  let value ← Check.ofEval extreme
  let explanation := kind ++ " value over " ++ scope s
  report explanation value.text
  showMatching settings m (← matching settings s v value) value
  return .single m.numStates value none explanation

def reduceArgument (capital kind : String) (extreme : Except EvalError Value) : Check Reduced := do
  let value ← Check.ofEval extreme
  report (capital ++ " value over " ++ scope s) value.text
  let states ← matching settings s v value
  Check.message ("Number of states with " ++ kind ++ " value: " ++ toString states.size)
  return .vectorOnly (.ofSet states m.numStates)

def reduceSingle (value : Except EvalError Value) (accuracy : Option Accuracy) (explanation : String) :
    Check Reduced := do
  let value ← Check.ofEval value
  report explanation value.text
  return .single m.numStates value accuracy explanation

def reduceRange : Check Reduced := do
  let (low, high) ← Check.ofEval (v.rangeOver s.states)
  let explanation := "Range of values over " ++ if s.isInit then "initial states" else scope s
  let value := ResultValue.range low high
  report explanation value.text
  return ⟨v, some value, none, some explanation⟩

/-- A frontier passes as it is; it has no truth values that could be combined. -/
def reduceForAll : Check Reduced := do
  match v.points? with
  | some points =>
    Check.message "Pareto set computation result evaluated"
    return ⟨.constant (.bool true) m.numStates, some (.frontier points), none, none⟩
  | none =>
    let holds ← Check.ofEval (v.forAllOver s.states)
    let satisfied ← Check.ofEval (v.countOver s.states)
    let (whom, of) :=
      if s.isOnlyInit then ("the initial state", "initial states")
      else if s.isInit then ("all initial states", "initial states")
      else if s.isAll then ("all states", "states")
      else ("all filter states", "filter states")
    Check.message ("Property satisfied in " ++ toString satisfied ++ " of " ++ toString s.states.size ++
      " " ++ of)
    return .single m.numStates (.bool holds) none
      ("Property " ++ (if holds then "" else "not ") ++ "satisfied in " ++ whom)

def reduceExists : Check Reduced := do
  let holds ← Check.ofEval (v.existsOver s.states)
  let whom := match s.isAll, holds with
    | true, true => "at least one state"
    | true, false => "no states"
    | false, true => "at least one filter state"
    | false, false => "no filter states"
  let explanation := "Property satisfied in " ++ whom
  Check.message explanation
  return .single m.numStates (.bool holds) none explanation

/-- Combine the values of the operand over the states of the filter. -/
def reduce : Check Reduced :=
  match f.op with
  | .print => reducePrint f m s v false
  | .printAll => reducePrint f m s v true
  | .store => reduceStore v
  | .min => reduceExtreme settings m s v "Minimum" (v.minOver s.states)
  | .max => reduceExtreme settings m s v "Maximum" (v.maxOver s.states)
  | .argmin => reduceArgument settings m s v "Minimum" "minimum" (v.minOver s.states)
  | .argmax => reduceArgument settings m s v "Maximum" "maximum" (v.maxOver s.states)
  | .count =>
    reduceSingle m ((v.countOver s.states).map fun n => .int (Int64.ofNat n)) none
      (if s.isAll then "Count of satisfying states" else "Count of satisfying states also in filter")
  | .sum => reduceSingle m (v.sumOver s.states) none ("Sum over " ++ scope s)
  | .avg => reduceSingle m (v.avgOver s.states) none ("Average over " ++ scope s)
  | .first =>
    reduceSingle m (v.firstIn s.states) none
      (if s.isOnlyInit then "Value in the initial state"
        else if s.isInit then "Value in first initial state"
        else if s.isAll then "Value in the first state"
        else "Value in first state satisfying filter")
  | .range => reduceRange s v
  | .forAll => reduceForAll m s v
  | .thereIs => reduceExists m s v
  | .state =>
    reduceSingle m (v.firstIn s.states) v.accuracy
      (if s.isInit then "Value in the initial state" else "Value in the filter state")

/-- Leave the result behind as the answer; the vector of the filter goes on. -/
def record (parameters : Option String) (r : Reduced) : Check StateVector := do
  let explanation := if settings.explanations && f.explained then r.explanation.map (·.toLower) else none
  modify fun run => { run with answer :=
    { value := r.value, accuracy := r.accuracy, explanation, vector := run.answer.vector, parameters } }
  return r.vector

end Filter

end Statewise
