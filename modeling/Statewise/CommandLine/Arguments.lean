/-!
# Arguments

The words of a command line, sorted into options and operands. An option has a long name and sometimes a
letter; it stands alone or takes a value. `Arguments.items?` reads the words by a list of the options
that are allowed, and `Arguments.ofWords?` refuses options that are given more often than they may be.
-/

namespace Statewise

/-- An option that a command allows. -/
structure OptionRule where
  name : String
  letter : Option Char
  takesValue : Bool
  repeatable : Bool

/-- A word or two of a command line: an operand, or an option with its value if it takes one. -/
inductive Item where
  | operand (word : String)
  | option (name : String) (value : Option String)
deriving DecidableEq

namespace Item

def isOption (name : String) : Item → Bool
  | option n _ => n == name
  | operand _ => false

def operand? : Item → Option String
  | operand word => some word
  | option .. => none

/-- The value given to the option of that name. -/
def valueOf? (name : String) : Item → Option String
  | option n v => if n == name then v else none
  | operand _ => none

end Item

/-! ## Options in one word -/

/-- What a word that starts with a dash says: options that are complete, and perhaps the name of one whose
value is the next word. -/
structure Cluster where
  items : List Item
  pending : Option String

namespace Cluster

/-- An option `--name` or `--name=value`, without its dashes. -/
def ofLong? (rules : List OptionRule) (text : List Char) : Option Cluster := do
  let name := String.ofList (text.takeWhile (· != '='))
  let rule ← rules.find? (·.name == name)
  match rule.takesValue, text.dropWhile (· != '=') with
  | false, [] => some ⟨[.option name none], none⟩
  | false, _ :: _ => none
  | true, [] => some ⟨[], some name⟩
  | true, _ :: value => some ⟨[.option name (some (String.ofList value))], none⟩

/-- Options given by their letters. All but the last stand alone; behind one that takes a value the rest of
the word is the value, with or without a `=` in front. -/
def ofLetters? (rules : List OptionRule) : List Char → Option Cluster
  | [] => some ⟨[], none⟩
  | c :: cs => do
    let rule ← rules.find? (·.letter == some c)
    if rule.takesValue then
      match cs with
      | [] => some ⟨[], some rule.name⟩
      | '=' :: value => some ⟨[.option rule.name (some (String.ofList value))], none⟩
      | value => some ⟨[.option rule.name (some (String.ofList value))], none⟩
    else
      let rest ← ofLetters? rules cs
      some { rest with items := .option rule.name none :: rest.items }

end Cluster

/-! ## All words -/

/-- The items of a command line, in order. -/
abbrev Arguments := List Item

namespace Arguments

/-- A word that cannot be the value of the option in front of it. A single dash can. -/
def looksLikeOption (word : String) : Bool := word.startsWith "-" && word != "-"

/-- The items of some words. After `--` every word is an operand. -/
def items? (rules : List OptionRule) : List String → Option Arguments
  | [] => some []
  | word :: rest =>
    match word.toList with
    | ['-', '-'] => some (rest.map .operand)
    | '-' :: c :: cs => do
      let cluster ← if c = '-' then Cluster.ofLong? rules cs else Cluster.ofLetters? rules (c :: cs)
      match cluster.pending, rest with
      | none, rest => return cluster.items ++ (← items? rules rest)
      | some _, [] => none
      | some name, value :: rest =>
        if looksLikeOption value then none
        else return cluster.items ++ .option name (some value) :: (← items? rules rest)
    | _ => do return .operand word :: (← items? rules rest)

/-- How often an option is given. -/
def count (args : Arguments) (name : String) : Nat := args.countP (Item.isOption name)

/-- The items of some words, if no option occurs too often among them. -/
def ofWords? (rules : List OptionRule) (words : List String) : Option Arguments := do
  let args ← items? rules words
  if rules.all fun r => r.repeatable || args.count r.name ≤ 1 then some args else none

def operands (args : Arguments) : List String := args.filterMap Item.operand?

/-- Whether an option is given. -/
def has (args : Arguments) (name : String) : Bool := args.any (Item.isOption name)

/-- The values given to an option, in order. -/
def values (args : Arguments) (name : String) : List String := args.filterMap (Item.valueOf? name)

end Arguments

end Statewise
