import Statewise.CommandLine.Arguments
import Statewise.Number.Decimal
import Statewise.Vector.Accuracy

/-!
# Commands

What the program can be asked to do, and how it is asked. `Invocation.ofWords?` understands the words of a
command line or has no answer; it does not look at any file.
-/

namespace Statewise

/-- How properties are checked and their results shown. -/
structure CheckOptions where
  /-- The properties to check; all without one. -/
  properties : List String
  /-- Assignments to constants, as they were written. -/
  constants : List String
  storeVector : Bool
  includeZeros : Bool
  explanations : Bool
  tolerance : Tolerance
  asJson : Bool

inductive Command where
  | check (options : CheckOptions)
  /-- Show the states of labels; of all that are defined without a name. -/
  | labels (names : List String)
  | listing (withDefaultFilter : Bool)
  | extract (property : String)

/-- A command and the job file that it is about. -/
structure Invocation where
  verbose : Bool
  file : String
  command : Command

namespace Invocation

/-! ## Options -/

def flag (name : String) : OptionRule := ⟨name, none, false, false⟩

/-- The option that all commands have. It may stand before the name of the command as well as behind it. -/
def verboseRule : OptionRule := ⟨"verbose", some 'v', false, false⟩

def checkRules : List OptionRule :=
  [verboseRule, ⟨"property", some 'p', true, true⟩, ⟨"constant", some 'c', true, true⟩, flag "store-vector",
    flag "include-zeros", flag "no-explanations", ⟨"epsilon", none, true, false⟩, flag "absolute", flag "json"]

def labelsRules : List OptionRule := [verboseRule]

def showRules : List OptionRule := [verboseRule, flag "default-filter"]

def extractRules : List OptionRule := [verboseRule, ⟨"property", some 'p', true, false⟩]

/-! ## Commands -/

/-- The tolerance for values that count as equal: relative and `1e-5` unless given. -/
def tolerance? (args : Arguments) : Option Tolerance := do
  let epsilon ← (args.values "epsilon").foldlM (fun _ text => typedFloat? text) (1e-5 : Float)
  return ⟨epsilon, args.has "absolute"⟩

/-- The options of a check. Zeros can only be included in a vector that is stored. -/
def checkOptions? (args : Arguments) : Option CheckOptions := do
  if args.has "include-zeros" && !args.has "store-vector" then none
  return {
    properties := args.values "property"
    constants := args.values "constant"
    storeVector := args.has "store-vector"
    includeZeros := args.has "include-zeros"
    explanations := !args.has "no-explanations"
    tolerance := ← tolerance? args
    asJson := args.has "json" }

/-- A command about the file that is the first operand; `make` is given the others. -/
def about? (rules : List OptionRule) (words : List String) (make : Arguments → List String → Option Command) :
    Option Invocation := do
  let args ← Arguments.ofWords? rules words
  match args.operands with
  | [] => none
  | file :: others =>
    if file.isEmpty then none else return ⟨args.has "verbose", file, ← make args others⟩

def check? (words : List String) : Option Invocation :=
  about? checkRules words fun args others =>
    if others.isEmpty then (checkOptions? args).map .check else none

def labels? (words : List String) : Option Invocation :=
  about? labelsRules words fun _ others => some (.labels others)

def show? (words : List String) : Option Invocation :=
  about? showRules words fun args others =>
    if others.isEmpty then some (.listing (args.has "default-filter")) else none

def extract? (words : List String) : Option Invocation :=
  about? extractRules words fun args others =>
    match args.values "property" with
    | [name] => if others.isEmpty then some (.extract name) else none
    | _ => none

/-- The options in front of the name of a command, and the words from that name on. -/
def splitCommand (words : List String) : List String × List String :=
  (words.takeWhile Arguments.looksLikeOption, words.dropWhile Arguments.looksLikeOption)

/-- The meaning of a command line. -/
def ofWords? (words : List String) : Option Invocation := do
  let (front, back) := splitCommand words
  if front.contains "--" then none
  let before ← Arguments.ofWords? [verboseRule] front
  match back with
  | [] => none
  | name :: rest =>
    let invocation ← match name with
      | "check" => check? rest
      | "labels" => labels? rest
      | "show" => show? rest
      | "extract" => extract? rest
      | _ => none
    return { invocation with verbose := invocation.verbose || before.has "verbose" }

end Invocation

end Statewise
