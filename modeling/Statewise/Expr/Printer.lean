import Statewise.Expr.Basic

/-!
# Printing expressions

`Expr.text` is the usual concrete notation: `filter(min, x, "init")`, `P=? [ F "goal" ]`,
`x > 0 ? 1 : 0`. An operand is put in parentheses where it binds looser than its place demands; on the
right of a binary operator also where it binds equally tightly.
-/

namespace Statewise

namespace Expr

/-- The binding strength of an expression that needs no parentheses anywhere. -/
def tight : Nat := 255

/-- How tightly an expression holds together when it is an operand. -/
def binding : Expr → Nat
  | ite .. | path .. => 0
  | binary op _ _ => op.precedence
  | _ => tight

/-- The text of an operand in a place that demands at least the binding strength `least`. -/
def operandText (least : Nat) (e : Expr) (text : String) : String :=
  if e.binding < least then "(" ++ text ++ ")" else text

def quoted (name : String) : String := "\"" ++ name ++ "\""

end Expr

def Measure.text : Measure → String
  | probability => "P"
  | steadyState => "S"
  | reward index => "R\x7b" ++ toString index.toNat ++ "\x7d"

def Query.text : Query → String
  | value => "=?"
  | min => "min=?"
  | max => "max=?"
  | bound c threshold => c.symbol ++ threshold.plain

namespace Expr

/-- The step bound behind a path operator. -/
def boundText : Option UInt64 → String
  | none => ""
  | some k => "<=" ++ toString k.toNat

mutual

def text : Expr → String
  | ite c t e => c.text ++ " ? " ++ t.text ++ " : " ++ e.text
  | binary op l r =>
    operandText op.precedence l l.text ++ " " ++ op.symbol ++ " " ++
      operandText (op.precedence + 1) r r.text
  | unary .not e => "!" ++ operandText tight e e.text
  | unary .minus e => "-" ++ operandText tight e e.text
  | unary .parenth e => "(" ++ e.text ++ ")"
  | call f args => f.name ++ "(" ++ listText args ++ ")"
  | literal v => v.text
  | constant name _ | ident name _ | formula name _ _ | var name _ _ | observable name _ => name
  | label name | property name _ => quoted name
  | filter op e s _ _ => "filter(" ++ op.keyword ++ ", " ++ e.text ++ selectorText s ++ ")"
  | quant m q e => m.text ++ q.text ++ " [ " ++ e.text ++ " ]"
  | path .until [l, r] b =>
    operandText tight l l.text ++ " U" ++ boundText b ++ " " ++ operandText tight r r.text
  | path op es b => op.symbol ++ boundText b ++ operandsText es

/-- Arguments with commas between them. -/
def listText : List Expr → String
  | [] => ""
  | [e] => e.text
  | e :: es => e.text ++ ", " ++ listText es

/-- Operands of a path operator, each behind a blank. -/
def operandsText : List Expr → String
  | [] => ""
  | e :: es => " " ++ operandText tight e e.text ++ operandsText es

def selectorText : Option Expr → String
  | none => ""
  | some s => ", " ++ s.text

end

end Expr

end Statewise
