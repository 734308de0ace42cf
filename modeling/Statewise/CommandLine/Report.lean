import Statewise.Check.Outcome
import Statewise.Check.Error
import Statewise.Job
import Statewise.Json.Writer
import Statewise.Vector.Reduction

/-!
# Reports

What a command prints and how it ends. A failure may come with output, because the results that there are
get printed all the same. `PropertyReport` is the part about one property, as lines or as JSON.
-/

namespace Statewise

/-- Why a command does not succeed. -/
inductive Failure where
  | usage
  | unreadable (file : String)
  | malformed (file : String)
  | invalidModel (e : JobError)
  | unknownProperty (name : String) (available : List String)
  /-- An assignment without an equality sign. -/
  | constantForm (text : String)
  | constantValue (text : String)
  | incomplete (failed total : Nat)
  | check (e : CheckError)
  | vector (e : EvalError)
deriving DecidableEq

namespace Failure

def message : Failure → String
  | usage => "usage: smc [-v] (check | labels | show | extract) FILE ..."
  | unreadable file => "failed to read " ++ file
  | malformed file => "invalid job file: " ++ file
  | invalidModel e => "invalid model: " ++ e.message
  | unknownProperty name _ => "unknown property \"" ++ name ++ "\""
  | constantForm text => "invalid constant format '" ++ text ++ "', expected NAME=VALUE"
  | constantValue text => "cannot parse value '" ++ text ++ "'"
  | incomplete failed total =>
    toString failed ++ " of " ++ toString total ++ " properties could not be checked"
  | check e => e.message
  | vector e => e.message

/-- The name of the failure in diagnostics, for those that have one. -/
def code? : Failure → Option String
  | usage | constantForm _ | constantValue _ => none
  | unreadable _ => some "smc::io_error"
  | malformed _ => some "smc::job_syntax"
  | invalidModel _ => some "smc::model_error"
  | unknownProperty .. => some "smc::unknown_property"
  | incomplete .. => some "smc::check_failed"
  | check _ | vector _ => some "smc::check_error"

/-- Advice that goes with the message. -/
def help? : Failure → Option String
  | unknownProperty _ available => some ("available properties: " ++ ", ".intercalate available)
  | _ => none

def exitCode : Failure → UInt8
  | usage => 2
  | _ => 1

end Failure

structure Report where
  output : String
  /-- Whether the time that the checks took is printed behind the output. -/
  timed : Bool
  /-- What verbose users are told. -/
  messages : List String
  failure : Option Failure

namespace Report

def exitCode (r : Report) : UInt8 := (r.failure.map Failure.exitCode).getD 0

/-- Each line with its end. -/
def joinLines (lines : List String) : String := String.join (lines.map (· ++ "\n"))

def ofLines (lines : List String) : Report := ⟨joinLines lines, false, [], none⟩

def ofFailure (f : Failure) : Report := ⟨"", false, [], some f⟩

end Report

/-- What is reported about one property. -/
structure PropertyReport where
  name : String
  value : Option String
  explanation : Option String
  vector : Option (List String)
  error : Option String

namespace PropertyReport

def ofError (name : String) (e : CheckError) : PropertyReport := ⟨name, none, none, none, some e.message⟩

/-- The result of a check. A vector is listed over all states of the model. -/
def ofOutcome (m : Model) (includeZeros : Bool) (name : String) (o : Outcome) :
    Except Failure PropertyReport := do
  let vector ← match o.answer.vector with
    | none => pure none
    | some v => ((v.format (.full m.numStates) includeZeros m.describe).mapError .vector).map some
  return ⟨name, o.answer.valueText?, o.answer.explanation, vector, none⟩

def lines (r : PropertyReport) : List String :=
  ["", "Property: " ++ r.name] ++
    match r.error with
    | some e => ["  Error: " ++ e]
    | none =>
      (r.value.map ("  Result: " ++ ·)).toList ++
        (r.explanation.map fun e => "  (" ++ e ++ ")").toList ++
        match r.vector with
        | none => []
        | some entries =>
          ("  Vector (" ++ toString entries.length ++ " entries):") :: entries.map ("    " ++ ·)

/-- The report as an object; what there is nothing to say about is left out. -/
def toJson (r : PropertyReport) : Json :=
  let text (name : String) (v : Option String) := (v.map fun s => (name, Json.string s)).toList
  .object ([("name", .string r.name)] ++ text "value" r.value ++ text "explanation" r.explanation ++
    (r.vector.map fun ls => ("vector", Json.array (ls.map .string))).toList ++ text "error" r.error)

end PropertyReport

end Statewise
