import Statewise.Check.Definitions
import Statewise.Check.Error
import Statewise.Check.Outcome

/-!
# The checker and those it asks

A checker holds definitions, settings and up to three collaborators: a solver for quantities, a source
of reward structures and a minimiser of models. Collaborators are functions; a solver may let its
answers depend on what was asked before.

`Check` is a computation that may ask collaborators, leave messages, set the hint and the answer, and
fail. What was asked and said is kept also if it fails.
-/

namespace Statewise

structure Settings where
  /-- List all states with an extreme value. -/
  verbose : Bool := false
  /-- Keep the vector of every checked expression. -/
  storeVector : Bool := false
  /-- Minimise models before checking. -/
  minimise : Bool := false
  /-- When a value counts as the extreme one. -/
  tolerance : Tolerance := {}
  /-- How many states with an extreme value are listed otherwise. -/
  maxShown : Nat := 10
  explanations : Bool := true

structure Rewards where
  index : UInt64
  stateRewards : List Float
  hasTransitionRewards : Bool

/-- What a solver is asked for. The state formulas in the operand have been replaced by labels, whose
sets are in `labels` and not on the model. -/
structure Request where
  model : Model
  measure : Measure
  query : Query
  operand : Expr
  labels : List (String × StateSet)
  rewards : Option Rewards
  /-- The states for which values are needed; all without one. -/
  domain : Option StateSet
  hint : Option Hint

namespace Request

/-- The operator that is to be computed. -/
def expr (r : Request) : Expr := .quant r.measure r.query r.operand

/-- The states of a label in the operand: the labels of the request come before those of the model. -/
def labelStates? (r : Request) (name : String) : Option StateSet :=
  match r.labels.lookup name with
  | some states => some states
  | none => r.model.labelStates? name

end Request

/-- A question to a collaborator. -/
inductive Call where
  | quant (request : Request)
  | multi (args : List Expr) (domain : Option StateSet)
  | rewards (index : UInt64) (allowNegative expected : Bool)
  | minimise (labels : List (String × StateSet))

/-- Computes quantities, knowing the questions asked before. Not every solver knows about several
objectives. -/
structure Solver where
  quant : List Call → Request → Except CheckError StateVector
  multi : Option (List Call → Model → List Expr → Option StateSet → Except CheckError StateVector)

/-- Builds the reward structure of an index; says whether rewards may be negative and whether expected
values are asked for. -/
abbrev RewardSource := Model → UInt64 → Bool → Bool → Except CheckError Rewards

/-- Gives a smaller model that keeps the given sets apart and carries them as labels. -/
abbrev Minimiser := Model → List (String × StateSet) → Except CheckError Model

structure Checker where
  definitions : Definitions
  settings : Settings
  solver : Option Solver
  rewards : Option RewardSource
  minimiser : Option Minimiser

/-! ## Computations -/

/-- What a computation has left behind so far. -/
structure Run where
  hint : Option Hint
  answer : Answer
  /-- All questions to collaborators, the last one first. -/
  calls : List Call
  /-- All messages, the last one first. -/
  messages : List String

/-- Nothing asked and nothing said. -/
def Run.start : Run := ⟨none, .none none, [], []⟩

abbrev Check (α : Type) := ExceptT CheckError (StateM Run) α

namespace Check

/-- Start afresh, with what was asked and said so far. -/
def restart (parameters : Option String) : Check Unit :=
  modify fun r => { r with hint := none, answer := .none parameters }

def message (text : String) : Check Unit := modify fun r => { r with messages := text :: r.messages }

/-- Note a question; what was asked before it is the answer. -/
def ask (c : Call) : Check (List Call) :=
  modifyGet fun r => (r.calls, { r with calls := c :: r.calls })

def setHint (h : Option Hint) : Check Unit := modify fun r => { r with hint := h }

/-- The outcome of a pure computation. -/
def ofExcept {α : Type} : Except CheckError α → Check α
  | .ok a => pure a
  | .error e => throw e

/-- The outcome of a computation on values. -/
def ofEval {α : Type} : Except EvalError α → Check α
  | .ok a => pure a
  | .error e => throw (.eval e)

def ofModel {α : Type} : Except ModelError α → Check α
  | .ok a => pure a
  | .error e => throw (.model e)

end Check

end Statewise
