import Statewise.Expr.Printer
import Statewise.Model.Basic
import Statewise.Arithmetic

/-!
# The value of an expression in one state

`Model.valueIn` evaluates an expression in a single state, without vectors and domains: a conditional
looks only at the branch that is taken, and a connective only at the operands that decide it. Every
value is widened to the static type of its expression. It knows no definitions, quantities and path
formulas, and of the filters those without a selector that combine truth values or integers.
-/

namespace Statewise

inductive InterpreterError where
  | eval (e : EvalError)
  | noValue (name : String) (state : Nat)
  | unknownLabel (name : String)
  | noArguments (f : Function)
  /-- No meaning is given to expressions of this kind. -/
  | noMeaning (kind : String)
  | noFilterMeaning (op : FilterOp)
  | emptyModel
  | wrongType (v : Value) (t : ValueType)
deriving DecidableEq

namespace InterpreterError

def message : InterpreterError → String
  | eval e => e.message
  | noValue n s => "no value for " ++ n ++ " in state " ++ toString s
  | unknownLabel n => "unknown label " ++ n
  | noArguments f => f.name ++ " needs arguments"
  | noMeaning kind => "no reference semantics for " ++ kind
  | noFilterMeaning op => "no reference semantics for " ++ op.keyword ++ " filter"
  | emptyModel => "empty model"
  | wrongType v t => v.text ++ " is not a " ++ t.name

end InterpreterError

namespace Model

/-- The outcome of a computation on values. -/
def liftEval {α : Type} : Except EvalError α → Except InterpreterError α :=
  Except.mapError .eval

/-- Whether a label holds in a state. -/
def labelIn (m : Model) (name : String) (s : Nat) : Except InterpreterError Value :=
  match m.labelStates? name with
  | some states => .ok (.bool (states.contains s))
  | none =>
    if name = Expr.initName then .ok (.bool (m.isInitial s))
    else if name = Expr.deadlockName then .ok (.bool (m.isDeadlock s))
    else .error (.unknownLabel name)

/-- The least or greatest of some integers, as `pick` says. -/
def extremeInt (pick : Int64 → Int64 → Int64) : List Int64 → Except InterpreterError Value
  | [] => .error .emptyModel
  | n :: ns => .ok (.int (ns.foldl pick n))

/-- What a filter without a selector makes of the values in all states. Sums wrap around at 64 bits. -/
def combineAll (op : FilterOp) (vs : List Value) : Except InterpreterError Value :=
  let bools := liftEval (vs.mapM Value.expectBool)
  let ints := liftEval (vs.mapM Value.expectInt)
  match op with
  | .forAll => do return .bool ((← bools).all id)
  | .thereIs => do return .bool ((← bools).any id)
  | .count => do return .int (Int64.ofNat ((← bools).countP id))
  | .sum => do return .int ((← ints).foldl (· + ·) 0)
  | .min => do extremeInt min (← ints)
  | .max => do extremeInt max (← ints)
  | op => .error (.noFilterMeaning op)

/-- What the left operand of a connective decides by itself. -/
def decided? (op : BinaryOp) (left : Bool) : Option Bool :=
  match op, left with
  | .and, false => some false
  | .or, true => some true
  | .implies, false => some true
  | _, _ => none

/-- What a function makes of its arguments; one of two arguments is applied from the left to any number of
them. -/
def applyFunction (f : Function) (args : List Value) : Except InterpreterError Value :=
  match f, args with
  | .floor, [a] | .ceil, [a] | .round, [a] => liftEval (Value.applyFunction1 f a)
  | f, a :: rest => liftEval (rest.foldlM (Value.applyFunction2 f) a)
  | f, [] => .error (.noArguments f)

/-- A value as one of the static type of its expression. -/
def widen (t : ValueType) (v : Value) : Except InterpreterError Value :=
  match v.coerce? t with
  | some w => .ok w
  | none => .error (.wrongType v t)

mutual

/-- The value of an expression in a state. -/
def valueIn (m : Model) (e : Expr) (s : Nat) : Except InterpreterError Value :=
  match e with
  | .literal v => widen v.type v
  | .var name index t => do
    let v ← match m.value? s index.toNat with
      | some v => pure v
      | none => throw (.noValue name s)
    widen t v
  | .label name => do widen .bool (← m.labelIn name s)
  | .ite c t e => do
    let holds ← liftEval (← m.valueIn c s).expectBool
    let v ← if holds then m.valueIn t s else m.valueIn e s
    widen (t.type.choice e.type) v
  | .binary op l r => do
    let a ← m.valueIn l s
    let v ← match op with
      | .and | .or | .implies => do
        match decided? op (← liftEval a.expectBool) with
        | some b => pure (.bool b)
        | none => do
          let b ← m.valueIn r s
          pure (.bool (← liftEval b.expectBool))
      | op => do
        let b ← m.valueIn r s
        liftEval (Value.applyBinary op a b)
    widen (op.resultType l.type r.type) v
  | .unary op e => do
    let v ← m.valueIn e s
    widen (op.resultType e.type) (← liftEval (Value.applyUnary op v))
  | .call f args => do
    let vs ← m.valuesIn args s
    widen (f.resultType (Expr.types args)) (← applyFunction f vs)
  | .filter op e none _ _ => do
    let vs ← (List.range m.numStates).mapM fun s => m.valueIn e s
    widen (op.resultType e.type) (← combineAll op vs)
  | e => .error (.noMeaning e.kindName)

/-- The values of several expressions in a state. -/
def valuesIn (m : Model) (es : List Expr) (s : Nat) : Except InterpreterError (List Value) :=
  match es with
  | [] => .ok []
  | e :: rest => do
    let v ← m.valueIn e s
    return v :: (← m.valuesIn rest s)

end

end Model

end Statewise
