import Statewise.Expr.Basic
import Statewise.Json.Record

/-!
# Stored expressions

The JSON form of values and expressions. An expression is a record tagged by `kind`; `Expr.toJson`
writes it as an object with all members, `Expr.ofJson?` lets a selector, a definition, a bound and the
flags of a filter be absent and ignores members it does not know.
-/

namespace Statewise

namespace Value

def toJson : Value → Json
  | bool b => .bool b
  | int n => .integer n.toInt
  | double x => .ofFloat x

/-- A number is an integer if it has the form of one and fits 64 signed bits, and else a double. -/
def ofJson? : Json → Option Value
  | .bool b => some (bool b)
  | .integer n =>
    match Int64.ofIntExact? n with
    | some w => some (int w)
    | none => some (double (Float.ofInt n))
  | .double x => some (double x)
  | _ => none

end Value

namespace Measure

def toJson : Measure → Json
  | probability => .object [("op", .string "prob")]
  | reward index => .object [("op", .string "reward"), ("index", .integer index.toNat)]
  | steadyState => .object [("op", .string "steady_state")]

def stored : Json.Alternatives :=
  ⟨"op", [⟨"prob", []⟩, ⟨"reward", ["index"]⟩, ⟨"steady_state", []⟩]⟩

def ofJson? (j : Json) : Option Measure := do
  let (keyword, ms) ← stored.read? j
  match keyword with
  | "prob" => some probability
  | "steady_state" => some steadyState
  | "reward" => return reward (← (← Members.required? ms "index").uint64?)
  | _ => none

end Measure

namespace Query

def toJson : Query → Json
  | value => .object [("query", .string "value")]
  | min => .object [("query", .string "min")]
  | max => .object [("query", .string "max")]
  | bound c threshold =>
    .object [("query", .string "bound"), ("relop", .string c.keyword), ("bound", .ofFloat threshold)]

def stored : Json.Alternatives :=
  ⟨"query", [⟨"value", []⟩, ⟨"min", []⟩, ⟨"max", []⟩, ⟨"bound", ["relop", "bound"]⟩]⟩

def ofJson? (j : Json) : Option Query := do
  let (keyword, ms) ← stored.read? j
  match keyword with
  | "value" => some value
  | "min" => some min
  | "max" => some max
  | "bound" =>
    let c ← Comparison.ofKeyword? (← (← Members.required? ms "relop").keyword?)
    return bound c (← (← Members.required? ms "bound").float?)
  | _ => none

end Query

namespace Expr

mutual

def toJson : Expr → Json
  | ite c t e =>
    .object [("kind", .string "ite"), ("cond", c.toJson), ("then", t.toJson), ("els", e.toJson)]
  | binary op l r =>
    .object [("kind", .string "binary"), ("op", .string op.keyword), ("left", l.toJson), ("right", r.toJson)]
  | unary op e => .object [("kind", .string "unary"), ("op", .string op.keyword), ("operand", e.toJson)]
  | call f args => .object [("kind", .string "func"), ("func", .string f.name), ("args", .array (listToJson args))]
  | literal v => .object [("kind", .string "literal"), ("value", v.toJson)]
  | constant n t => .object [("kind", .string "constant"), ("name", .string n), ("ty", .string t.name)]
  | ident n t => .object [("kind", .string "ident"), ("name", .string n), ("ty", .string t.name)]
  | formula n d t =>
    .object [("kind", .string "formula"), ("name", .string n), ("definition", optionToJson d),
      ("ty", .string t.name)]
  | var n i t =>
    .object [("kind", .string "var"), ("name", .string n), ("index", .integer i.toNat), ("ty", .string t.name)]
  | observable n t => .object [("kind", .string "obs"), ("name", .string n), ("ty", .string t.name)]
  | label n => .object [("kind", .string "label"), ("name", .string n)]
  | property n t => .object [("kind", .string "prop"), ("name", .string n), ("ty", .string t.name)]
  | filter op e s invisible explained =>
    .object [("kind", .string "filter"), ("op", .string op.keyword), ("operand", e.toJson),
      ("selector", optionToJson s), ("invisible", .bool invisible), ("explanation_enabled", .bool explained)]
  | quant m q e =>
    .object [("kind", .string "quant"), ("operator", m.toJson), ("query", q.toJson), ("operand", e.toJson)]
  | path op es b =>
    .object [("kind", .string "temporal"), ("op", .string op.keyword), ("operands", .array (listToJson es)),
      ("bound", match b with | none => .null | some k => .integer k.toNat)]

def listToJson : List Expr → List Json
  | [] => []
  | e :: es => e.toJson :: listToJson es

def optionToJson : Option Expr → Json
  | none => .null
  | some e => e.toJson

end

/-- The kinds of expressions with the names of their parts. -/
def stored : Json.Alternatives :=
  ⟨"kind",
    [⟨"ite", ["cond", "then", "els"]⟩,
      ⟨"binary", ["op", "left", "right"]⟩,
      ⟨"unary", ["op", "operand"]⟩,
      ⟨"func", ["func", "args"]⟩,
      ⟨"literal", ["value"]⟩,
      ⟨"constant", ["name", "ty"]⟩,
      ⟨"ident", ["name", "ty"]⟩,
      ⟨"formula", ["name", "definition", "ty"]⟩,
      ⟨"var", ["name", "index", "ty"]⟩,
      ⟨"obs", ["name", "ty"]⟩,
      ⟨"label", ["name"]⟩,
      ⟨"prop", ["name", "ty"]⟩,
      ⟨"filter", ["op", "operand", "selector", "invisible", "explanation_enabled"]⟩,
      ⟨"quant", ["operator", "query", "operand"]⟩,
      ⟨"temporal", ["op", "operands", "bound"]⟩]⟩

/-- A part of a stored expression, in each form in which it may be needed. -/
structure Part where
  json : Json
  expr : Option Expr
  exprs : Option (List Expr)

/-- The parts of a stored expression by name. -/
abbrev Parts := List (String × Part)

namespace Parts

/-- The part of that name. As with all members, a name written twice has no value. -/
def get? (ps : Parts) (name : String) : Option Part :=
  match ps.filter (·.1 == name) with
  | [(_, p)] => some p
  | _ => none

def expr? (ps : Parts) (name : String) : Option Expr := (ps.get? name).bind (·.expr)

def exprs? (ps : Parts) (name : String) : Option (List Expr) := (ps.get? name).bind (·.exprs)

def string? (ps : Parts) (name : String) : Option String := (ps.get? name).bind (·.json.string?)

def keyword? (ps : Parts) (name : String) : Option String := (ps.get? name).bind (·.json.keyword?)

def type? (ps : Parts) : Option ValueType := (ps.keyword? "ty").bind ValueType.ofName?

/-- A part that may be absent, or null if `nullable` says so; `absent` stands for it then. -/
def optional? {α : Type} (ps : Parts) (name : String) (nullable : Bool) (absent : α)
    (read : Part → Option α) : Option α :=
  match ps.filter (·.1 == name) with
  | [] => some absent
  | [(_, p)] => if nullable && p.json.isNull then some absent else read p
  | _ => none

def optionalExpr? (ps : Parts) (name : String) : Option (Option Expr) :=
  ps.optional? name true none fun p => p.expr.map some

def flag? (ps : Parts) (name : String) (absent : Bool) : Option Bool :=
  ps.optional? name false absent (·.json.bool?)

end Parts

/-- The expression of the given kind with the given parts. -/
def ofParts? (kind : String) (ps : Parts) : Option Expr := do
  match kind with
  | "ite" => return ite (← ps.expr? "cond") (← ps.expr? "then") (← ps.expr? "els")
  | "binary" =>
    return binary (← BinaryOp.ofKeyword? (← ps.keyword? "op")) (← ps.expr? "left") (← ps.expr? "right")
  | "unary" => return unary (← UnaryOp.ofKeyword? (← ps.keyword? "op")) (← ps.expr? "operand")
  | "func" => return call (← Function.ofName? (← ps.keyword? "func")) (← ps.exprs? "args")
  | "literal" => return literal (← Value.ofJson? (← ps.get? "value").json)
  | "constant" => return constant (← ps.string? "name") (← ps.type?)
  | "ident" => return ident (← ps.string? "name") (← ps.type?)
  | "formula" => return formula (← ps.string? "name") (← ps.optionalExpr? "definition") (← ps.type?)
  | "var" => return var (← ps.string? "name") (← (← ps.get? "index").json.uint64?) (← ps.type?)
  | "obs" => return observable (← ps.string? "name") (← ps.type?)
  | "label" => return label (← ps.string? "name")
  | "prop" => return property (← ps.string? "name") (← ps.type?)
  | "filter" =>
    return filter (← FilterOp.ofKeyword? (← ps.keyword? "op")) (← ps.expr? "operand")
      (← ps.optionalExpr? "selector") (← ps.flag? "invisible" false) (← ps.flag? "explanation_enabled" true)
  | "quant" =>
    return quant (← Measure.ofJson? (← ps.get? "operator").json) (← Query.ofJson? (← ps.get? "query").json)
      (← ps.expr? "operand")
  | "temporal" =>
    return path (← PathOp.ofKeyword? (← ps.keyword? "op")) (← ps.exprs? "operands")
      (← ps.optional? "bound" true none fun p => p.json.uint64?.map some)
  | _ => none

mutual

/-- What a value stores: an expression, several, or neither. -/
def part : Json → Part
  | .array vs =>
    let ps := partsOfList vs
    ⟨.array vs, (stored.ofArray? Part.json ps).bind fun (kind, ps) => ofParts? kind ps, ps.mapM Part.expr⟩
  | .object ms =>
    ⟨.object ms, (stored.ofObject? Part.json (partsOfMembers ms)).bind fun (kind, ps) => ofParts? kind ps, none⟩
  | j => ⟨j, none, none⟩

def partsOfList : List Json → List Part
  | [] => []
  | v :: vs => part v :: partsOfList vs

def partsOfMembers : List (String × Json) → Parts
  | [] => []
  | (name, v) :: ms => (name, part v) :: partsOfMembers ms

end

/-- The expression that a value stores. All of the value has to be readable, members that are ignored
included. Only inside another expression may the kind be given by its position. -/
def ofJson? (j : Json) : Option Expr :=
  if j.isReadable && stored.isTaggedByKeyword j then (part j).expr else none

end Expr

end Statewise
