import Statewise.Check.Property
import Statewise.CommandLine.Invocation
import Statewise.CommandLine.Report
import Statewise.Text.Blank

/-!
# Running a command

`Invocation.run` carries out a command on the text of its job file and reports on it. Constants that are
given on the command line replace those of the job before any property is looked up.
-/

namespace Statewise

namespace Definitions

/-- The definitions with a constant set as a text `NAME=VALUE` says. Blanks around both do not count. -/
def assign (d : Definitions) (text : String) : Except Failure Definitions :=
  let cs := text.toList
  match cs.dropWhile (· != '=') with
  | [] => .error (.constantForm text)
  | _ :: value =>
    let value := Text.trim (String.ofList value)
    match Value.ofTyped? value with
    | none => .error (.constantValue value)
    | some v =>
      let name := Text.trim (String.ofList (cs.takeWhile (· != '=')))
      .ok { d with constants := d.constants.insert name v }

/-- The properties of the given names, or all of them. -/
def select (d : Definitions) (names : List String) : Except Failure (List Definition) :=
  if names.isEmpty then .ok d.properties
  else names.mapM fun name =>
    match d.property? name with
    | some e => .ok ⟨name, e⟩
    | none => .error (.unknownProperty name (d.properties.map (·.name)))

/-- A checker for the definitions that has nobody to ask. -/
def checker (d : Definitions) (settings : Settings) : Checker := ⟨d, settings, none, none, none⟩

end Definitions

namespace Invocation

/-- The model and the definitions in the text of a job file; no text stands for a file that cannot be
read. -/
def loadJob (file : String) (content : Option String) : Except Failure (Model × Definitions) :=
  match content with
  | none => .error (.unreadable file)
  | some text =>
    match Job.ofText? text with
    | none => .error (.malformed file)
    | some job => job.load.mapError .invalidModel

/-! ## Checking -/

def settings (verbose : Bool) (o : CheckOptions) : Settings :=
  { verbose, storeVector := o.storeVector, explanations := o.explanations, tolerance := o.tolerance }

/-- The reports on some properties, one after the other, and what was said meanwhile, the last first. -/
def checkAll (c : Checker) (m : Model) (includeZeros : Bool) :
    List Definition → Run → Except Failure (List PropertyReport × Run)
  | [], run => .ok ([], run)
  | p :: ps, run => do
    let (outcome, run) := (c.check m p.body).run run
    let report ← match outcome with
      | .ok o => PropertyReport.ofOutcome m includeZeros p.name o
      | .error e => pure (.ofError p.name e)
    let (reports, run) ← checkAll c m includeZeros ps run
    return (report :: reports, run)

def reportAll (asJson : Bool) (reports : List PropertyReport) (messages : List String) : Report :=
  let failed := reports.countP (·.error.isSome)
  { output :=
      if asJson then Json.indented 0 (.array (reports.map PropertyReport.toJson)) ++ "\n"
      else Report.joinLines (reports.flatMap PropertyReport.lines ++ [""])
    timed := !asJson
    messages
    failure := if failed = 0 then none else some (.incomplete failed reports.length) }

def check (verbose : Bool) (o : CheckOptions) (m : Model) (d : Definitions) : Except Failure Report := do
  let d ← o.constants.foldlM Definitions.assign d
  let selected ← d.select o.properties
  if selected.isEmpty then return ⟨"", false, ["no properties to check"], none⟩
  let (reports, run) ← checkAll (d.checker (settings verbose o)) m o.includeZeros selected .start
  return reportAll o.asJson reports run.messages.reverse

/-! ## The other commands -/

/-- The result of a computation from a fresh start. -/
def runCheck {α : Type} (x : Check α) : Except Failure α := (x.run .start).1.mapError .check

def labels (names : List String) (m : Model) (d : Definitions) : Except Failure Report := do
  let names := if names.isEmpty then d.labelNames else names
  let sets ← runCheck ((d.checker {}).checkLabels m names)
  return .ofLines (List.zipWith (fun name states =>
    name ++ " (" ++ toString states.size ++ " states): " ++
      " ".intercalate (states.toList.map m.describe)) names sets)

/-- Lines under a heading, or nothing without any. -/
def underHeading (heading : String) (lines : List String) : List String :=
  if lines.isEmpty then [] else (heading ++ ":") :: lines

def listing (withDefaultFilter : Bool) (m : Model) (d : Definitions) : Report :=
  let shown (e : Expr) := if withDefaultFilter then Checker.withDefaultFilter m e else e
  .ofLines (
    (m.kind.text ++ " model: " ++ toString m.numStates ++ " states, " ++ toString m.numInitial ++ " initial") ::
      underHeading "constants" (d.constants.toList.map fun (name, v) => "  " ++ name ++ " = " ++ v.text) ++
      underHeading "labels" (d.labels.map fun l => "  " ++ Expr.quoted l.name ++ " = " ++ l.body.text) ++
      underHeading "properties" (d.properties.map fun p => "  " ++ p.name ++ ": " ++ (shown p.body).text))

def extract (name : String) (m : Model) (d : Definitions) : Except Failure Report := do
  let selected ← d.select [name]
  let lines ← selected.mapM fun p => do
    let (e, found) ← runCheck ((d.checker {}).extract m p.body)
    return (p.name ++ ": " ++ e.text) ::
      found.map fun (label, states) => "  " ++ Expr.quoted label ++ " = " ++ states.text
  return .ofLines lines.flatten

/-- What a command does with the text of its job file. -/
def run (i : Invocation) (content : Option String) : Report :=
  let result : Except Failure Report := do
    let (m, d) ← loadJob i.file content
    match i.command with
    | .check o => check i.verbose o m d
    | .labels names => labels names m d
    | .listing withDefaultFilter => return listing withDefaultFilter m d
    | .extract name => extract name m d
  match result with
  | .ok report => report
  | .error f => .ofFailure f

end Invocation

end Statewise
