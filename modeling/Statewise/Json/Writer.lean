import Statewise.Json.Basic

/-!
# Writing JSON

`Json.compact` writes a value on one line; `Json.indented` puts every item on a line of its own, two
blanks deeper than its container.
-/

namespace Statewise.Json

/-- Four lower-case hexadecimal digits. -/
def hex4 (n : Nat) : String :=
  String.ofList ([n / 4096 % 16, n / 256 % 16, n / 16 % 16, n % 16].map Nat.digitChar)

/-- A character inside a string: quotes, backslashes and control characters are escaped. -/
def escape (c : Char) : String :=
  match c with
  | '"' => "\\\""
  | '\\' => "\\\\"
  | '\x08' => "\\b"
  | '\t' => "\\t"
  | '\n' => "\\n"
  | '\x0c' => "\\f"
  | '\r' => "\\r"
  | c => if c.toNat < 0x20 then "\\u" ++ hex4 c.toNat else c.toString

def quote (s : String) : String :=
  "\"" ++ s.toList.foldl (fun t c => t ++ escape c) "" ++ "\""

/-- A double with the fewest digits that read back, positional if its first digit is at most five places
behind the point and sixteen in front of it. Ties between texts go to the even digit. A point or an
exponent keeps the number from being read as an integer. -/
def doubleText (x : Float) : String :=
  match x.parts? with
  | none => "null"
  | some p =>
    let d := p.shortest .even
    let places := (toString d.digits).length + d.exponent
    let text := d.plain
    signText p.negative ++
      if d.digits ≠ 0 ∧ (places ≤ -5 ∨ 16 < places) then d.scientific
      else if text.contains '.' then text
      else text ++ ".0"

mutual

/-- The value on one line without blanks. -/
def compact : Json → String
  | .null => "null"
  | .bool b => if b then "true" else "false"
  | .integer n => toString n
  | .double x => doubleText x
  | .string s => quote s
  | .array items => "[" ++ compactItems items ++ "]"
  | .object members => "\x7b" ++ compactMembers members ++ "\x7d"
  | .unreadable => "null"

def compactItems : List Json → String
  | [] => ""
  | [v] => compact v
  | v :: rest => compact v ++ "," ++ compactItems rest

def compactMembers : List (String × Json) → String
  | [] => ""
  | [(k, v)] => quote k ++ ":" ++ compact v
  | (k, v) :: rest => quote k ++ ":" ++ compact v ++ "," ++ compactMembers rest

end

/-- The start of a line at a depth. -/
def newline (depth : Nat) : String := "\n" ++ "".pushn ' ' (2 * depth)

mutual

/-- The value over several lines; empty containers stay on one. -/
def indented (depth : Nat) : Json → String
  | .array [] => "[]"
  | .array items => "[" ++ indentedItems (depth + 1) items ++ newline depth ++ "]"
  | .object [] => "\x7b\x7d"
  | .object members => "\x7b" ++ indentedMembers (depth + 1) members ++ newline depth ++ "\x7d"
  | v => compact v

def indentedItems (depth : Nat) : List Json → String
  | [] => ""
  | [v] => newline depth ++ indented depth v
  | v :: rest => newline depth ++ indented depth v ++ "," ++ indentedItems depth rest

def indentedMembers (depth : Nat) : List (String × Json) → String
  | [] => ""
  | [(k, v)] => newline depth ++ quote k ++ ": " ++ indented depth v
  | (k, v) :: rest =>
    newline depth ++ quote k ++ ": " ++ indented depth v ++ "," ++ indentedMembers depth rest

end

end Statewise.Json
