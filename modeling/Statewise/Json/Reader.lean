import Statewise.Json.Token

/-!
# Reading JSON

`Json.read?` goes through the tokens once and keeps the containers that are still open on a stack. It
accepts all texts in the grammar; what no value stands for is unreadable in the result, so that it can
still be ignored.
-/

namespace Statewise.Json

/-- What a reader of JSON promises about numbers and containers. -/
structure Format where
  /-- How many containers may be inside one another. -/
  maxDepth : Nat
  /-- The double that an unsigned number stands for, infinite if there is none. -/
  round : NumeralText → Float

/-- A container part way through, with its items so far, the last one first. Members are lost once one of
them has an unreadable name. -/
inductive Frame where
  | array (items : List Json)
  | object (members : Option (List (String × Json)))
  /-- An object with the name of the member under way. -/
  | member (members : Option (List (String × Json))) (name : Option String)

/-- What may come next. -/
inductive Expect where
  | value
  /-- A value, or the end of an array just opened. -/
  | valueOrEnd
  | name
  /-- A name, or the end of an object just opened. -/
  | nameOrEnd
  | colon
  /-- A comma or the end of the innermost container. -/
  | separator
  /-- Nothing: the value is complete. -/
  | done (v : Json)

structure Reading where
  stack : List Frame
  expect : Expect

namespace Reading

/-- A value is complete: it goes into the innermost open container. -/
def complete (stack : List Frame) (v : Json) : Option Reading :=
  match stack with
  | [] => some ⟨[], .done v⟩
  | .array items :: rest => some ⟨.array (v :: items) :: rest, .separator⟩
  | .member members name :: rest =>
    some ⟨.object (do return (← name, v) :: (← members)) :: rest, .separator⟩
  | .object _ :: _ => none

/-- A container is complete. It is unreadable inside too many others. -/
def completeContainer (limit : Nat) (stack : List Frame) (v : Json) : Option Reading :=
  complete stack (if stack.length < limit then v else .unreadable)

def value (stack : List Frame) : Token → Option Reading
  | .openArray => some ⟨.array [] :: stack, .valueOrEnd⟩
  | .openObject => some ⟨.object (some []) :: stack, .nameOrEnd⟩
  | .scalar v => complete stack v
  | .quoted s => complete stack (s.elim .unreadable .string)
  | _ => none

def name (stack : List Frame) : Token → Option Reading
  | .quoted s =>
    match stack with
    | .object members :: rest => some ⟨.member members s :: rest, .colon⟩
    | _ => none
  | _ => none

/-- The innermost container ends. -/
def close (limit : Nat) (stack : List Frame) : Token → Option Reading
  | .closeArray =>
    match stack with
    | .array items :: rest => completeContainer limit rest (.array items.reverse)
    | _ => none
  | .closeObject =>
    match stack with
    | .object members :: rest =>
      completeContainer limit rest (members.elim .unreadable fun ms => .object ms.reverse)
    | _ => none
  | _ => none

def next? (limit : Nat) (r : Reading) (t : Token) : Option Reading :=
  match r.expect with
  | .value => value r.stack t
  | .valueOrEnd =>
    match t with
    | .closeArray => close limit r.stack t
    | _ => value r.stack t
  | .name => name r.stack t
  | .nameOrEnd =>
    match t with
    | .closeObject => close limit r.stack t
    | _ => name r.stack t
  | .colon =>
    match t with
    | .colon => some { r with expect := .value }
    | _ => none
  | .separator =>
    match t, r.stack with
    | .comma, .array _ :: _ => some { r with expect := .value }
    | .comma, .object _ :: _ => some { r with expect := .name }
    | _, _ => close limit r.stack t
  | .done _ => none

end Reading

/-- The value that a text spells. -/
def read? (format : Format) (text : String) : Option Json := do
  let tokens ← Token.ofText? format.round text
  let r ← tokens.foldlM (Reading.next? format.maxDepth) ⟨[], .value⟩
  match r.expect with
  | .done v => some v
  | _ => none

end Statewise.Json
