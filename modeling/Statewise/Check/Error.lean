import Statewise.Arithmetic
import Statewise.Model.Basic

/-!
# Errors of checking

Every reason for which checking an expression can fail. An error ends the call in which it arises.
-/

namespace Statewise

/-- What some kinds of models, or some checkers, cannot do. -/
inductive Feature where
  | observables | multiObjective | quantities | rewardStructures | transitionRewards
deriving DecidableEq, Repr

def Feature.text : Feature → String
  | observables => "observables"
  | multiObjective => "multi-objective model checking"
  | quantities => "quantitative operators"
  | rewardStructures => "reward structures"
  | transitionRewards => "expected transition rewards"

/-- The two sorts of definitions that may refer to themselves. -/
inductive ReferenceSort where
  | property | label
deriving DecidableEq, Repr

def ReferenceSort.text : ReferenceSort → String
  | property => "property"
  | label => "label"

inductive CheckError where
  | unresolvedIdentifier (name : String)
  | unexpandedFormula (name : String)
  /-- A path formula outside a quantity. -/
  | strayPath (op : PathOp)
  | wrongArity (f : Function) (count : Nat)
  | unknownLabel (name : String)
  | unknownProperty (name : String)
  | unknownConstant (name : String)
  | unknownObservable (name : String)
  | cyclicReference (sort : ReferenceSort) (name : String)
  | missingValue (name : String) (state : Nat)
  | emptyFilter
  /-- A filter for one state selects more than one. -/
  | filterCardinality (selector : String) (count : Nat)
  | unsupported (feature : Feature) (kind : ModelKind)
  | eval (e : EvalError)
  | model (e : ModelError)
  | solver (message : String)
  | minimisation (message : String)
deriving DecidableEq

namespace CheckError

def message : CheckError → String
  | unresolvedIdentifier n => "unknown identifier \"" ++ n ++ "\""
  | unexpandedFormula n => "unexpanded formula \"" ++ n ++ "\""
  | strayPath op => "couldn't check path operator " ++ op.symbol ++ " outside a P, R or S operator"
  | wrongArity f count =>
    "couldn't check function \"" ++ f.name ++ "\" with " ++ toString count ++ " argument(s)"
  | unknownLabel n => "unknown label \"" ++ n ++ "\""
  | unknownProperty n => "unknown property reference \"" ++ n ++ "\""
  | unknownConstant n => "undefined constant \"" ++ n ++ "\""
  | unknownObservable n => "unknown observable \"" ++ n ++ "\""
  | cyclicReference s n => s.text ++ " \"" ++ n ++ "\" refers to itself"
  | missingValue n s => "no value for \"" ++ n ++ "\" in state " ++ toString s
  | emptyFilter => "filter satisfies no states"
  | filterCardinality sel count =>
    "filter should be satisfied in exactly 1 state (but " ++ sel ++ " is true in " ++ toString count ++
      " states)"
  | unsupported f k => f.text ++ " not supported for " ++ k.text ++ " models"
  | eval e => "evaluation error: " ++ e.message
  | model e => "model error: " ++ e.message
  | solver m => "solver error: " ++ m
  | minimisation m => "minimisation failed: " ++ m

end CheckError

end Statewise
