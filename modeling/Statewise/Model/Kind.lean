/-!
# Kinds of models

The families of state-transition models. A keyword names a kind in letters of either case.
-/

namespace Statewise

inductive ModelKind where
  | dtmc | ctmc | mdp | pomdp | ctmdp | csg | stpg | smg | posmg | idtmc | imdp | lts
deriving DecidableEq, Repr, Inhabited

namespace ModelKind

def all : List ModelKind :=
  [dtmc, ctmc, mdp, pomdp, ctmdp, csg, stpg, smg, posmg, idtmc, imdp, lts]

def keyword : ModelKind → String
  | dtmc => "dtmc" | ctmc => "ctmc" | mdp => "mdp" | pomdp => "pomdp" | ctmdp => "ctmdp" | csg => "csg"
  | stpg => "stpg" | smg => "smg" | posmg => "posmg" | idtmc => "idtmc" | imdp => "imdp" | lts => "lts"

/-- The keyword in capitals. -/
def text (k : ModelKind) : String := k.keyword.toUpper

/-- The kind of a keyword, whose ASCII letters may be of either case. -/
def ofTyped? (s : String) : Option ModelKind := all.find? (·.keyword == s.toLower)

/-- What is said about a text that names no kind. -/
def unknownText (s : String) : String := "unknown model type \"" ++ s.toLower ++ "\""

/-- Models whose states carry an observation. -/
def isPartiallyObservable : ModelKind → Bool
  | pomdp | posmg => true
  | _ => false

/-- Models with more than one player. -/
def isGame : ModelKind → Bool
  | csg | stpg | smg | posmg => true
  | _ => false

/-- Models whose transition probabilities are intervals. -/
def isInterval : ModelKind → Bool
  | idtmc | imdp => true
  | _ => false

end ModelKind

end Statewise
