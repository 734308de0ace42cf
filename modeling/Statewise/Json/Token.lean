import Statewise.Json.Basic

/-!
# JSON tokens

The text is read from left to right by a machine with one state per place a character can stand in:
between tokens, inside a literal or number, inside a string, inside an escape. `Token.ofText?` gives
the tokens of a text, or nothing if some character has no place.
-/

namespace Statewise.Json

inductive Token where
  | openArray | closeArray | openObject | closeObject | comma | colon
  | scalar (v : Json)
  /-- A string; without its text if half of a surrogate pair is in it. -/
  | quoted (s : Option String)

namespace Token

/-- A number in the grammar of JSON: no plus sign, no leading zero, digits on both sides of a point.
Unsigned doubles are read by `round`; a number beyond the largest double is unreadable. -/
def number? (round : NumeralText → Float) (cs : List Char) : Option Json := do
  let (negative, digits) := match cs with | '-' :: ds => (true, ds) | ds => (false, ds)
  let t ← NumeralText.ofChars? digits
  if t.whole.isEmpty || (t.whole.length > 1 && t.whole.head? == some '0') || t.fraction == some [] then none
  let n := t.toNumeral negative
  let i : Int := if negative then -n.digits else n.digits
  if t.fraction.isNone && t.exponent.isNone && isWord i && !(negative && n.digits == 0) then
    return .integer i
  let x := round t
  return if x.isFinite then .double (if negative then -x else x) else .unreadable

/-- The scalar that a run of letters, digits, signs and points spells. -/
def word? (round : NumeralText → Float) (cs : List Char) : Option Token :=
  match String.ofList cs with
  | "null" => some (.scalar .null)
  | "true" => some (.scalar (.bool true))
  | "false" => some (.scalar (.bool false))
  | _ => (number? round cs).map .scalar

/-! ## Strings -/

def isHighSurrogate (code : Nat) : Bool := 0xD800 ≤ code && code ≤ 0xDBFF

def isLowSurrogate (code : Nat) : Bool := 0xDC00 ≤ code && code ≤ 0xDFFF

/-- One more code behind a text, its last character first, that may end in the first half of a pair. -/
def addCode? (s : List Char × Option Nat) (code : Nat) : Option (List Char × Option Nat) :=
  match s.2 with
  | some high =>
    if isLowSurrogate code then
      some (Char.ofNat (0x10000 + (high - 0xD800) * 0x400 + (code - 0xDC00)) :: s.1, none)
    else none
  | none =>
    if isHighSurrogate code then some (s.1, some code)
    else if isLowSurrogate code then none
    else some (Char.ofNat code :: s.1, none)

/-- The text of some codes. The two halves of a surrogate pair are one character; neither stands alone. -/
def textOfCodes? (codes : List Nat) : Option String :=
  match codes.foldlM addCode? ([], none) with
  | some (text, none) => some (String.ofList text.reverse)
  | _ => none

/-! ## The machine -/

/-- Where the next character stands. Words and the codes of strings are kept with the last one first. -/
inductive Place where
  | between
  | word (text : List Char)
  | quoted (codes : List Nat)
  | escape (codes : List Nat)
  /-- Inside the four digits of an escape, with the number that they spell so far. -/
  | unicode (codes : List Nat) (digits : Nat) (code : Nat)

/-- The tokens read so far, the last one first, and the place of the next character. -/
structure Scan where
  tokens : List Token
  place : Place

def isBlank (c : Char) : Bool := c == ' ' || c == '\n' || c == '\t' || c == '\r'

def isWordChar (c : Char) : Bool := c.isAlphanum || c == '-' || c == '+' || c == '.'

def hexDigit? (c : Char) : Option Nat :=
  if '0' ≤ c ∧ c ≤ '9' then some (c.toNat - '0'.toNat)
  else if 'a' ≤ c ∧ c ≤ 'f' then some (c.toNat - 'a'.toNat + 10)
  else if 'A' ≤ c ∧ c ≤ 'F' then some (c.toNat - 'A'.toNat + 10)
  else none

/-- The character that a one-letter escape stands for. -/
def escaped? : Char → Option Char
  | '"' => some '"'
  | '\\' => some '\\'
  | '/' => some '/'
  | 'b' => some '\x08'
  | 'f' => some '\x0c'
  | 'n' => some '\n'
  | 'r' => some '\r'
  | 't' => some '\t'
  | _ => none

/-- The token of a character that is one by itself. -/
def punctuation? : Char → Option Token
  | '[' => some .openArray
  | ']' => some .closeArray
  | '\x7b' => some .openObject
  | '\x7d' => some .closeObject
  | ',' => some .comma
  | ':' => some .colon
  | _ => none

/-- A character between tokens. -/
def start? (tokens : List Token) (c : Char) : Option Scan :=
  if isBlank c then some ⟨tokens, .between⟩
  else if c == '"' then some ⟨tokens, .quoted []⟩
  else match punctuation? c with
    | some t => some ⟨t :: tokens, .between⟩
    | none => if isWordChar c then some ⟨tokens, .word [c]⟩ else none

def next? (round : NumeralText → Float) (s : Scan) (c : Char) : Option Scan :=
  match s.place with
  | .between => start? s.tokens c
  | .word text =>
    if isWordChar c then some { s with place := .word (c :: text) }
    else do start? ((← word? round text.reverse) :: s.tokens) c
  | .quoted codes =>
    if c == '"' then some ⟨.quoted (textOfCodes? codes.reverse) :: s.tokens, .between⟩
    else if c == '\\' then some { s with place := .escape codes }
    else if c.toNat < 0x20 then none
    else some { s with place := .quoted (c.toNat :: codes) }
  | .escape codes =>
    if c == 'u' then some { s with place := .unicode codes 0 0 }
    else (escaped? c).map fun e => { s with place := .quoted (e.toNat :: codes) }
  | .unicode codes digits code => do
    let code := 16 * code + (← hexDigit? c)
    if digits == 3 then return { s with place := .quoted (code :: codes) }
    return { s with place := .unicode codes (digits + 1) code }

/-- The tokens at the end of the text: nothing but a word may still be under way. -/
def finish? (round : NumeralText → Float) (s : Scan) : Option (List Token) :=
  match s.place with
  | .between => some s.tokens.reverse
  | .word text => (word? round text.reverse).map fun t => (t :: s.tokens).reverse
  | _ => none

/-- The tokens of a text, its doubles read by `round`. -/
def ofText? (round : NumeralText → Float) (text : String) : Option (List Token) :=
  (text.toList.foldlM (next? round) ⟨[], .between⟩).bind (finish? round)

end Token

end Statewise.Json
