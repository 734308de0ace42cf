import Statewise.Number.Decimal

/-!
# JSON values

A number is an integer if it was written without a point and an exponent and fits 64 bits, signed or
unsigned; every other number is a double. Objects keep their members in the order they were written,
repeated names included. Text in the grammar of JSON may still say something that no value stands for;
`Json.isReadable` tells whether nothing of that kind is inside.
-/

namespace Statewise

inductive Json where
  | null
  | bool (b : Bool)
  | integer (n : Int)
  | double (x : Float)
  | string (s : String)
  | array (items : List Json)
  | object (members : List (String × Json))
  /-- What the grammar allows and no value stands for: a number beyond the largest double, a text or a
  name of a member with half a surrogate pair, a container too deep inside others. -/
  | unreadable
deriving Inhabited

namespace Json

/-- The value of a double. Infinities and NaN have no number and become null. -/
def ofFloat (x : Float) : Json := if x.isFinite then .double x else .null

/-- The integers that a number may denote: those of 64 bits, signed or unsigned. -/
def isWord (n : Int) : Bool := -9223372036854775808 ≤ n && n ≤ 18446744073709551615

mutual

/-- Whether the value and all that is inside it could be read, its numbers being words or finite. -/
def isReadable : Json → Bool
  | integer n => isWord n
  | double x => x.isFinite
  | array xs => allReadable xs
  | object ms => membersReadable ms
  | unreadable => false
  | _ => true

def allReadable : List Json → Bool
  | [] => true
  | x :: xs => x.isReadable && allReadable xs

def membersReadable : List (String × Json) → Bool
  | [] => true
  | (_, x) :: ms => x.isReadable && membersReadable ms

end

/-- The members of an object. -/
def members? : Json → Option (List (String × Json))
  | object ms => some ms
  | _ => none

def items? : Json → Option (List Json)
  | array xs => some xs
  | _ => none

def string? : Json → Option String
  | string s => some s
  | _ => none

def bool? : Json → Option Bool
  | bool b => some b
  | _ => none

/-- A number as a double. -/
def float? : Json → Option Float
  | integer n => some (Float.ofInt n)
  | double x => some x
  | _ => none

/-- A non-negative integer. -/
def nat? : Json → Option Nat
  | integer n => if n < 0 then none else some n.toNat
  | _ => none

/-- An unsigned 64-bit integer. -/
def uint64? : Json → Option UInt64
  | integer n => if 0 ≤ n ∧ n ≤ 18446744073709551615 then some (UInt64.ofNat n.toNat) else none
  | _ => none

def isNull : Json → Bool
  | null => true
  | _ => false

end Json

/-- Members of an object that are looked up by name. -/
abbrev Members := List (String × Json)

namespace Members

/-- The member of that name. A name written twice has no value, because it is not clear which. -/
def required? (ms : Members) (name : String) : Option Json :=
  match ms.filter (·.1 == name) with
  | [(_, v)] => some v
  | _ => none

/-- The member of that name read by `read`, or `absent` if there is none. -/
def getD? {α : Type} (ms : Members) (name : String) (absent : α) (read : Json → Option α) : Option α :=
  match ms.filter (·.1 == name) with
  | [] => some absent
  | [(_, v)] => read v
  | _ => none

/-- As `getD?`, with null for an absent member. -/
def optional? {α : Type} (ms : Members) (name : String) (read : Json → Option α) : Option (Option α) :=
  ms.getD? name none fun v => if v.isNull then some none else (read v).map some

end Members

end Statewise
