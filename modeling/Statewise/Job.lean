import Statewise.Check.Definitions
import Statewise.Expr.Stored
import Statewise.Json.Reader
import Statewise.Model.Basic
import Statewise.Number.Scaled

/-!
# Jobs

A job is a model together with the definitions that it is checked with, stored as JSON. `Job.ofJson?`
reads one and `Job.load` builds the model, checking that everything in it refers to states that there
are.
-/

namespace Statewise

/-- A model as it is stored. -/
structure ModelSpec where
  kind : String
  variableNames : List String
  /-- The values of the variables in each state. -/
  states : List (List Value)
  initial : List Nat
  transitions : List (Nat × Nat)
  labels : NameMap (List Nat)
  /-- The observations of the states, of all or of none. -/
  observations : List (List Value)

structure Job where
  model : ModelSpec
  definitions : Definitions

inductive JobError where
  | modelKind (name : String)
  | labelState (label : String) (state numStates : Nat)
  | observations (found numStates : Nat)
  | model (e : ModelError)
deriving DecidableEq

def JobError.message : JobError → String
  | modelKind name => ModelKind.unknownText name
  | labelState l s n =>
    "label \"" ++ l ++ "\" refers to state " ++ toString s ++ ", but the model has " ++ toString n ++ " states"
  | observations found n => toString found ++ " observations given for " ++ toString n ++ " states"
  | model e => e.message

/-! ## Loading -/

namespace ModelSpec

def liftModel {α : Type} : Except ModelError α → Except JobError α := Except.mapError .model

/-- The set of the states of a label, all of which have to be below `n`. -/
def labelSet (label : String) (n : Nat) (states : List Nat) : Except JobError StateSet :=
  states.foldlM (fun a s => if s < n then .ok (a.insert s) else .error (.labelState label s n)) .empty

/-- The model with the observations of its states, one each. -/
def observe (spec : ModelSpec) (m : Model) : Except JobError Model :=
  if spec.observations.isEmpty then .ok m
  else if spec.observations.length ≠ m.numStates then
    .error (.observations spec.observations.length m.numStates)
  else spec.observations.zipIdx.foldlM (fun m (o, s) => liftModel (m.setObservation s o)) m

/-- The model that is described. States come first, then initial states, transitions, labels and
observations. -/
def build (spec : ModelSpec) : Except JobError Model := do
  match ModelKind.ofTyped? spec.kind with
  | none => throw (.modelKind spec.kind)
  | some kind =>
    let m ← liftModel (spec.states.foldlM Model.addState (Model.empty kind spec.variableNames))
    let m ← liftModel (spec.initial.foldlM Model.addInitial m)
    let m ← liftModel (spec.transitions.foldlM (fun m t => m.addTransition t.1 t.2) m)
    let m ← spec.labels.toList.foldlM (fun m (name, states) => do
      liftModel (m.addLabel name (← labelSet name spec.states.length states))) m
    spec.observe m

end ModelSpec

/-- The model of the job and its definitions, with the names of the model's labels added to those of the
definitions. -/
def Job.load (j : Job) : Except JobError (Model × Definitions) := do
  let m ← j.model.build
  let known := j.definitions.modelLabels
  let more := j.model.labels.names.filter fun n => !known.contains n
  return (m, { j.definitions with modelLabels := known ++ more })

/-! ## Reading -/

namespace Json

/-- The items of an array, each read by `read`. -/
def list? {α : Type} (read : Json → Option α) (j : Json) : Option (List α) := j.items?.bind (·.mapM read)

/-- A non-negative integer of 64 bits. -/
def index? (j : Json) : Option Nat := j.uint64?.map (·.toNat)

/-- An object as a map; of two members of one name the later one counts. -/
def map? {α : Type} (read : Json → Option α) (j : Json) : Option (NameMap α) := do
  return .ofList (← (← j.members?).mapM fun (name, v) => do return (name, ← read v))

end Json

namespace ModelSpec

def pair? (j : Json) : Option (Nat × Nat) := do
  match ← j.items? with
  | [a, b] => return (← a.index?, ← b.index?)
  | _ => none

/-- The names of the fields of a stored model. -/
def fieldNames : List String :=
  ["type", "vars", "states", "initial", "transitions", "labels", "observations"]

/-- A stored model. Members of other names are refused. -/
def ofJson? (j : Json) : Option ModelSpec := do
  let ms ← j.record? fieldNames
  if !ms.all fun m => fieldNames.contains m.1 then none
  return {
    kind := ← (← Members.required? ms "type").string?
    variableNames := ← Members.getD? ms "vars" [] (Json.list? Json.string?)
    states := ← (← Members.required? ms "states").list? (Json.list? Value.ofJson?)
    initial := ← Members.getD? ms "initial" [] (Json.list? Json.index?)
    transitions := ← Members.getD? ms "transitions" [] (Json.list? pair?)
    labels := ← Members.getD? ms "labels" .empty (Json.map? (Json.list? Json.index?))
    observations := ← Members.getD? ms "observations" [] (Json.list? (Json.list? Value.ofJson?)) }

end ModelSpec

namespace Definitions

def definition? (j : Json) : Option Definition := do
  let ms ← j.record? ["name", "expr"]
  return ⟨← (← Members.required? ms "name").string?, ← Expr.ofJson? (← Members.required? ms "expr")⟩

/-- The names of the fields of stored definitions. -/
def fieldNames : List String :=
  ["labels", "properties", "constants", "observables", "model_label_names", "parameters"]

/-- Stored definitions. Members of other names are ignored. -/
def ofJson? (j : Json) : Option Definitions := do
  let ms ← j.record? fieldNames
  return {
    labels := ← Members.getD? ms "labels" [] (Json.list? definition?)
    properties := ← Members.getD? ms "properties" [] (Json.list? definition?)
    constants := ← Members.getD? ms "constants" .empty (Json.map? Value.ofJson?)
    observables := ← Members.getD? ms "observables" [] (Json.list? Json.string?)
    modelLabels := ← Members.getD? ms "model_label_names" [] (Json.list? Json.string?)
    parameters := ← Members.optional? ms "parameters" Json.string? }

end Definitions

namespace Job

/-- The names of the fields of a stored job. -/
def fieldNames : List String := ["model", "info"]

/-- A stored job. Members of other names are refused. -/
def ofJson? (j : Json) : Option Job := do
  let ms ← j.record? fieldNames
  if !ms.all fun m => fieldNames.contains m.1 then none
  return ⟨← ModelSpec.ofJson? (← Members.required? ms "model"),
    ← Members.getD? ms "info" .empty Definitions.ofJson?⟩

/-- Job files have containers at most 127 deep and numbers that are read by scaling. -/
def format : Json.Format := ⟨127, NumeralText.scaled⟩

def ofText? (text : String) : Option Job := (Json.read? format text).bind ofJson?

end Job

end Statewise
