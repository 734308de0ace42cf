import Statewise.Vector.Basic

/-!
# Results

What a check reports: a value, a range of values or a frontier, with its accuracy and an explanation.
-/

namespace Statewise

/-- The answer is about one state. Solvers may then leave the other states out. -/
structure Hint where
  op : FilterOp
  state : Nat
deriving DecidableEq

inductive ResultValue where
  | value (v : Value)
  | range (low high : Value)
  | frontier (points : List (List Float))
deriving DecidableEq

namespace ResultValue

def value? : ResultValue → Option Value
  | value v => some v
  | _ => none

def pointText (p : List Float) : String := "(" ++ ",".intercalate (p.map Float.plain) ++ ")"

def text : ResultValue → String
  | value v => v.text
  | range low high => "[" ++ low.text ++ "," ++ high.text ++ "]"
  | frontier points => "[" ++ ", ".intercalate (points.map pointText) ++ "]"

end ResultValue

/-- What the last filter left behind as the result of a check. -/
structure Answer where
  value : Option ResultValue
  accuracy : Option Accuracy
  explanation : Option String
  /-- The vector of the last filter that stores one. -/
  vector : Option StateVector
  parameters : Option String
deriving DecidableEq

namespace Answer

/-- No answer yet. -/
def none (parameters : Option String) : Answer := ⟨.none, .none, .none, .none, parameters⟩

/-- The value, with its accuracy in parentheses unless it is exact. -/
def valueText? (a : Answer) : Option String := do
  let v ← a.value
  match a.accuracy with
  | some acc => if acc.level = .exact then return v.text else return v.text ++ " (" ++ acc.text ++ ")"
  | Option.none => return v.text

/-- The line in which a result is reported; a name that says more than "Result" is mentioned. -/
def line (a : Answer) (name : String) : String :=
  let value := a.valueText?.getD "none"
  if name == "Result" then "Result: " ++ value else "Result (" ++ name.toLower ++ "): " ++ value

end Answer

/-- All that a check produces: the vector of the expression, the answer, and the state it is about. -/
structure Outcome where
  values : StateVector
  answer : Answer
  hint : Option Hint

end Statewise
