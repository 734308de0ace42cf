import Statewise.Json.Basic

/-!
# Records and alternatives in JSON

How values that have parts or come in several kinds are stored.

* A record is an object with a member for each field, or an array of its fields in order, from which
  fields may be missing at the end.
* One of several alternatives without parts is a keyword.
* One of several alternatives with parts is a record with a tag that says which of them it is. In an
  array the tag comes first.
-/

namespace Statewise.Json

/-- Whether a value says nothing: null and the empty object do not. -/
def isVoid : Json → Bool
  | null => true
  | object [] => true
  | _ => false

/-- A keyword is a string, or the name of the only member of an object that says nothing else. -/
def keyword? : Json → Option String
  | string s => some s
  | object [(name, v)] => if v.isVoid then some name else none
  | _ => none

/-- The members of a record whose fields have these names. -/
def record? (names : List String) : Json → Option Members
  | object ms => some ms
  | array items => if items.length ≤ names.length then some (names.zip items) else none
  | _ => none

/-- One of several kinds of records, and the names of its fields. -/
structure Alternative where
  keyword : String
  fields : List String

/-- Kinds of records that a tag of some name tells apart. -/
structure Alternatives where
  tag : String
  all : List Alternative

namespace Alternatives

/-- The alternative that a tag stands for: the tag is its keyword, or its position among all. -/
def find? (u : Alternatives) : Json → Option Alternative
  | .string s => u.all.find? (·.keyword == s)
  | .integer n => if n < 0 then none else u.all[n.toNat]?
  | _ => none

section

variable {α : Type} (u : Alternatives) (json : α → Json)

/-- The keyword of an object and its members. The tag is one of them, and there is only one. -/
def ofObject? (ms : List (String × α)) : Option (String × List (String × α)) :=
  match ms.filter (·.1 == u.tag) with
  | [(_, v)] => (u.find? (json v)).map fun a => (a.keyword, ms)
  | _ => none

/-- The keyword of an array and its items, under the names of the fields that they stand for. -/
def ofArray? : List α → Option (String × List (String × α))
  | [] => none
  | v :: vs => do
    let a ← u.find? (json v)
    if vs.length ≤ a.fields.length then some (a.keyword, a.fields.zip vs) else none

end

/-- The keyword and the members of a tagged record. -/
def read? (u : Alternatives) : Json → Option (String × Members)
  | .object ms => u.ofObject? id ms
  | .array items => u.ofArray? id items
  | _ => none

/-- Whether the tag is written as a keyword and not as a position. -/
def isTaggedByKeyword (u : Alternatives) : Json → Bool
  | .object ms => ms.all fun m => m.1 != u.tag || m.2.string?.isSome
  | .array (tag :: _) => tag.string?.isSome
  | _ => false

end Alternatives

end Statewise.Json
