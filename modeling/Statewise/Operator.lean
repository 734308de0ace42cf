import Statewise.Value

/-!
# Operators

The operators of expressions with their keywords, symbols and result types. Keywords are the names
used in stored expressions; symbols are what is printed.
-/

namespace Statewise

/-! ## Binary and unary operators -/

inductive BinaryOp where
  | implies | iff | or | and
  | eq | ne | gt | ge | lt | le
  | plus | minus | times | divide
deriving DecidableEq, Repr, Inhabited

namespace BinaryOp

def all : List BinaryOp :=
  [implies, iff, or, and, eq, ne, gt, ge, lt, le, plus, minus, times, divide]

def keyword : BinaryOp → String
  | implies => "implies" | iff => "iff" | or => "or" | and => "and"
  | eq => "eq" | ne => "ne" | gt => "gt" | ge => "ge" | lt => "lt" | le => "le"
  | plus => "plus" | minus => "minus" | times => "times" | divide => "divide"

def ofKeyword? (s : String) : Option BinaryOp := all.find? (·.keyword == s)

def symbol : BinaryOp → String
  | implies => "=>" | iff => "<=>" | or => "|" | and => "&"
  | eq => "=" | ne => "!=" | gt => ">" | ge => ">=" | lt => "<" | le => "<="
  | plus => "+" | minus => "-" | times => "*" | divide => "/"

/-- How tightly the operator binds. -/
def precedence : BinaryOp → Nat
  | implies => 1
  | iff => 2
  | or => 3
  | and => 4
  | eq | ne => 6
  | gt | ge | lt | le => 7
  | plus | minus => 8
  | times | divide => 9

def isLogical : BinaryOp → Bool
  | implies | iff | or | and => true
  | _ => false

def isRelational : BinaryOp → Bool
  | eq | ne | gt | ge | lt | le => true
  | _ => false

/-- Division yields a double even of two integers. -/
def resultType (op : BinaryOp) (left right : ValueType) : ValueType :=
  if op.isLogical || op.isRelational then .bool
  else if op = divide then .double
  else left.join right

end BinaryOp

inductive UnaryOp where
  | not | minus
  /-- Parentheses that were written out. -/
  | parenth
deriving DecidableEq, Repr, Inhabited

namespace UnaryOp

def all : List UnaryOp := [not, minus, parenth]

def keyword : UnaryOp → String
  | not => "not"
  | minus => "minus"
  | parenth => "parenth"

def ofKeyword? (s : String) : Option UnaryOp := all.find? (·.keyword == s)

def resultType : UnaryOp → ValueType → ValueType
  | not, _ => .bool
  | minus, t | parenth, t => t

end UnaryOp

/-! ## Functions -/

inductive Function where
  | min | max | floor | ceil | round | pow | mod | log
  /-- A query for several objectives at once, which only a solver can answer. -/
  | multi
deriving DecidableEq, Repr, Inhabited

namespace Function

def all : List Function := [min, max, floor, ceil, round, pow, mod, log, multi]

def name : Function → String
  | min => "min" | max => "max" | floor => "floor" | ceil => "ceil" | round => "round"
  | pow => "pow" | mod => "mod" | log => "log" | multi => "multi"

def ofName? (s : String) : Option Function := all.find? (·.name == s)

/-- The type of the result for arguments of the given types. -/
def resultType (f : Function) (args : List ValueType) : ValueType :=
  match f with
  | min | max | pow =>
    match args with
    | [] => .int
    | t :: ts => ts.foldl ValueType.join t
  | floor | ceil | round | mod => .int
  | log | multi => .double

end Function

/-! ## Filters -/

inductive FilterOp where
  | min | max | argmin | argmax | count | sum | avg | first | range
  | forAll | thereIs | print | printAll | store | state
deriving DecidableEq, Repr, Inhabited

namespace FilterOp

def all : List FilterOp :=
  [min, max, argmin, argmax, count, sum, avg, first, range, forAll, thereIs, print, printAll, store, state]

def keyword : FilterOp → String
  | min => "min" | max => "max" | argmin => "argmin" | argmax => "argmax" | count => "count"
  | sum => "sum" | avg => "avg" | first => "first" | range => "range" | forAll => "forall"
  | thereIs => "exists" | print => "print" | printAll => "printall" | store => "store" | state => "state"

def ofKeyword? (s : String) : Option FilterOp := all.find? (·.keyword == s)

/-- The operator that a user may call by its keyword, or by `+` for the sum, `&` for all and `|` for
some. -/
def ofTyped? (s : String) : Option FilterOp :=
  match s with
  | "+" => some sum
  | "&" => some forAll
  | "|" => some thereIs
  | s => ofKeyword? s

/-- What is said about a text that names no operator. -/
def unknownText (s : String) : String := "unknown filter operator \"" ++ s ++ "\""

/-- Whether the filter counts as an answer by itself. Printing, storing and the two operators that
answer with a set of states do not. -/
def isSingleValued : FilterOp → Bool
  | print | printAll | argmin | argmax | store => false
  | _ => true

def resultType : FilterOp → ValueType → ValueType
  | argmin, _ | argmax, _ | forAll, _ | thereIs, _ => .bool
  | count, _ => .int
  | avg, _ => .double
  | _, t => t

end FilterOp

/-! ## Quantitative operators -/

/-- The quantity that a solver computes. -/
inductive Measure where
  | probability
  /-- The expected reward in the structure of that index. -/
  | reward (index : UInt64)
  | steadyState
deriving DecidableEq, Repr, Inhabited

inductive Comparison where
  | lt | le | gt | ge
deriving DecidableEq, Repr, Inhabited

namespace Comparison

def all : List Comparison := [lt, le, gt, ge]

def keyword : Comparison → String
  | lt => "lt" | le => "le" | gt => "gt" | ge => "ge"

def ofKeyword? (s : String) : Option Comparison := all.find? (·.keyword == s)

def symbol : Comparison → String
  | lt => "<" | le => "<=" | gt => ">" | ge => ">="

def holds (c : Comparison) (value bound : Float) : Bool :=
  match c with
  | lt => value < bound
  | le => value ≤ bound
  | gt => bound < value
  | ge => bound ≤ value

end Comparison

/-- What is asked about a quantity: its value, an extreme of it, or whether it keeps a bound. -/
inductive Query where
  | value | min | max
  | bound (comparison : Comparison) (threshold : Float)
deriving DecidableEq, Inhabited

namespace Query

def resultType : Query → ValueType
  | bound .. => .bool
  | _ => .double

end Query

/-- The operators of path formulas. -/
inductive PathOp where
  | next | until | eventually | always
deriving DecidableEq, Repr, Inhabited

namespace PathOp

def all : List PathOp := [.next, .until, .eventually, .always]

def keyword : PathOp → String
  | .next => "next" | .until => "until" | .eventually => "finally" | .always => "globally"

def ofKeyword? (s : String) : Option PathOp := all.find? (·.keyword == s)

def symbol : PathOp → String
  | .next => "X" | .until => "U" | .eventually => "F" | .always => "G"

end PathOp

end Statewise
