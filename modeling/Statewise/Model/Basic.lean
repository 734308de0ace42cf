import Statewise.Model.Kind
import Statewise.NameMap
import Statewise.StateSet
import Statewise.Value

/-!
# Explicit models

A model lists its states one by one: the values of the variables in each, its successors, and which
states are initial. Labels name sets of states. An operation that cannot be carried out leaves no new
model behind, only its error.
-/

namespace Statewise

inductive ModelError where
  | duplicateLabel (name : String)
  | stateOutOfRange (state numStates : Nat)
  | valuationArity (state expected found : Nat)
deriving DecidableEq

def ModelError.message : ModelError → String
  | duplicateLabel name => "label \"" ++ name ++ "\" already exists"
  | stateOutOfRange s n =>
    "state " ++ toString s ++ " out of range (model has " ++ toString n ++ " states)"
  | valuationArity s expected found =>
    "state " ++ toString s ++ " has " ++ toString found ++ " variable values, expected " ++ toString expected

/-- One state: the values of the variables in it and its successors, each once, in the order in which
they were added. -/
structure StateData where
  values : List Value
  successors : List Nat
deriving Inhabited

structure Model where
  kind : ModelKind
  variableNames : List String
  states : Array StateData
  initial : StateSet
  labels : NameMap StateSet
  /-- The observations of the states, as far as they were given. -/
  observations : Array (List Value)

namespace Model

def empty (kind : ModelKind) (names : List String) : Model :=
  ⟨kind, names, #[], .empty, .empty, #[]⟩

/-! ## Reading a model -/

def numStates (m : Model) : Nat := m.states.size

def numInitial (m : Model) : Nat := m.initial.size

def isInitial (m : Model) (s : Nat) : Bool := m.initial.contains s

def successors (m : Model) (s : Nat) : List Nat := (m.states[s]?.map (·.successors)).getD []

/-- A state without successors. -/
def isDeadlock (m : Model) (s : Nat) : Bool := m.states[s]?.any (·.successors.isEmpty)

def labelStates? (m : Model) (name : String) : Option StateSet := m.labels.get? name

def hasLabel (m : Model) (name : String) : Bool := m.labels.contains name

/-- The value of the variable at a place of the valuation. -/
def value? (m : Model) (s index : Nat) : Option Value := m.states[s]?.bind (·.values[index]?)

/-- The value of an observable in the observation of a state, in models whose states carry one. -/
def observation? (m : Model) (s index : Nat) : Option Value :=
  if m.kind.isPartiallyObservable then m.observations[s]?.bind (·[index]?) else none

def variableIndex? (m : Model) (name : String) : Option Nat := m.variableNames.findIdx? (· == name)

/-- The valuation of a state, or its index if there is no such state. -/
def stateText (m : Model) (s : Nat) : String :=
  match m.states[s]? with
  | some d =>
    "(" ++ ",".intercalate (List.zipWith (fun n v => n ++ "=" ++ v.text) m.variableNames d.values) ++ ")"
  | none => "(" ++ toString s ++ ")"

/-- The index and the valuation of a state. -/
def describe (m : Model) (s : Nat) : String := toString s ++ ":" ++ m.stateText s

/-! ## Building a model -/

/-- `s`, if it is a state. -/
def checkState (m : Model) (s : Nat) : Except ModelError Unit :=
  if s < m.numStates then .ok () else .error (.stateOutOfRange s m.numStates)

/-- The model with one more state, which has one value per variable. -/
def addState (m : Model) (values : List Value) : Except ModelError Model :=
  if values.length = m.variableNames.length then .ok { m with states := m.states.push ⟨values, []⟩ }
  else .error (.valuationArity m.numStates m.variableNames.length values.length)

def addInitial (m : Model) (s : Nat) : Except ModelError Model := do
  m.checkState s
  return { m with initial := m.initial.insert s }

/-- The model with a transition. One that is there already is not added again. -/
def addTransition (m : Model) (source target : Nat) : Except ModelError Model := do
  m.checkState source
  m.checkState target
  let link (d : StateData) : StateData :=
    if d.successors.contains target then d else { d with successors := d.successors ++ [target] }
  return { m with states := m.states.modify source link }

/-- The model with the observation of a state. States so far without one get an empty one. -/
def setObservation (m : Model) (s : Nat) (observation : List Value) : Except ModelError Model := do
  m.checkState s
  let padded := m.observations ++ Array.replicate (m.numStates - m.observations.size) []
  return { m with observations := padded.set! s observation }

def addLabel (m : Model) (name : String) (states : StateSet) : Except ModelError Model :=
  if m.hasLabel name then .error (.duplicateLabel name)
  else .ok { m with labels := m.labels.insert name states }

/-! ## Fresh names -/

/-- The names that are tried for a new label: `base`, `base_0`, `base_1`, … -/
def candidate (base : String) : Nat → String
  | 0 => base
  | i + 1 => base ++ "_" ++ toString i

/-- The first candidate that is not taken. Among one candidate more than there are taken names there is a
free one. -/
def freshName (base : String) (taken : List String) : String :=
  (((List.range (taken.length + 1)).map (candidate base)).find? fun n => !taken.contains n).getD base

/-- The model with a label under a name that neither it nor `defined` uses, and that name. -/
def addUniqueLabel (m : Model) (base : String) (states : StateSet) (defined : List String) :
    Except ModelError (String × Model) := do
  let name := freshName base (m.labels.names ++ defined)
  return (name, ← m.addLabel name states)

end Model

end Statewise
