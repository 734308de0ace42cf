import Statewise.Check.Filter
import Statewise.Vector.Pointwise

/-!
# Evaluating expressions

`Checker.evalWith` computes the vector of an expression over a domain. Conditionals and connectives
evaluate their operands only where they can still matter; the strategy `everywhere` evaluates them over
the whole domain instead. `Checker.extractFrom` replaces every maximal state formula in an expression by a
label for the set of states where it holds, and is what quantities go through on their way to the
solver. The two call each other: a state formula is evaluated, and state formulas are taken out of the
operand of a quantity.

Both recurse into definitions. A property or a label that is being expanded is not entered again, so
each recursion either enters one more definition or goes to a smaller expression.
-/

namespace Statewise

/-- Where the operands of conditionals and connectives are evaluated. -/
inductive Strategy where
  /-- In the states where the operands before them leave the result open. -/
  | whereOpen
  /-- In all states of the domain. -/
  | everywhere
deriving DecidableEq, Repr

/-- The part of a set that lies in the domain. -/
def narrow (states : StateSet) : Option StateSet → StateSet
  | none => states
  | some domain => states.inter domain

/-- Labels made for state formulas, with their sets, in the order in which they were made. -/
abbrev Found := List (String × StateSet)

namespace Found

/-- The label of a set: the one that it has already, or the next in the row `L0`, `L1`, … -/
def labelFor (found : Found) (states : StateSet) : String × Found :=
  match found.find? (·.2 == states) with
  | some (name, _) => (name, found)
  | none =>
    let name := "L" ++ toString found.length
    (name, found ++ [(name, states)])

/-- What stands for a state formula that holds in the given states: a truth value if it holds nowhere or
everywhere, else a label. -/
def replace (found : Found) (numStates : Nat) (states : StateSet) : Expr × Found :=
  if states.isEmpty then (.falsity, found)
  else if states.isFull numStates then (.truth, found)
  else
    let (name, found) := found.labelFor states
    (.label name, found)

end Found

/-- The connectives whose right operand the left one may decide. -/
def BinaryOp.isLazy : BinaryOp → Bool
  | .implies | .or | .and => true
  | _ => false

namespace Checker

/-! ## Steps without recursion -/

/-- The states of a label that is neither attached to the model nor defined. -/
def builtinLabel (m : Model) (name : String) : Check StateVector :=
  if name = Expr.deadlockName then
    return .ofSet (.ofList ((List.range m.numStates).filter m.isDeadlock)) m.numStates
  else if name = Expr.initName then
    return .ofSet (.ofList ((List.range m.numStates).filter m.isInitial)) m.numStates
  else throw (.unknownLabel name)

/-- The states in which the right operand of a connective matters, given those where the left one
holds. -/
def openStates (op : BinaryOp) (numStates : Nat) (left : StateSet) : StateSet :=
  if op = .or then left.complement numStates else left

/-- The states where a connective holds. -/
def connect (op : BinaryOp) (numStates : Nat) (left right : StateSet) : StateSet :=
  match op with
  | .and => left.inter right
  | .implies => (left.complement numStates).union right
  | _ => left.union right

def constantVector (c : Checker) (m : Model) (name : String) (t : ValueType) : Check StateVector :=
  match c.definitions.constant? name with
  | none => throw (.unknownConstant name)
  | some v =>
    match v.coerce? t with
    | none => throw (.eval (.typeMismatch t v.type))
    | some v => return .constant v m.numStates

/-- The values of a variable or an observable; a state without one is an error. -/
def lookupVector (m : Model) (name : String) (t : ValueType) (domain : Option StateSet)
    (value? : Nat → Option Value) : Check StateVector :=
  Check.ofExcept <| StateVector.tabulate CheckError.eval t m.numStates domain fun s =>
    match value? s with
    | some v => .ok v
    | none => .error (.missingValue name s)

def observableVector (c : Checker) (m : Model) (name : String) (t : ValueType) (domain : Option StateSet) :
    Check StateVector :=
  match c.definitions.observableIndex? name with
  | none => throw (.unknownObservable name)
  | some index =>
    if m.kind.isPartiallyObservable then lookupVector m name t domain fun s => m.observation? s index
    else throw (.unsupported .observables m.kind)

/-- A query for several objectives goes to the solver as it is. -/
def askMulti (c : Checker) (m : Model) (args : List Expr) (domain : Option StateSet) : Check StateVector :=
  match c.solver.bind (·.multi) with
  | none => throw (.unsupported .multiObjective m.kind)
  | some answer => do
    let before ← Check.ask (.multi args domain)
    Check.ofExcept (answer before m args domain)

/-- The reward structure of a quantity, if it has one. Only in concurrent games may rewards be negative,
and interval chains know no rewards on transitions. -/
def buildRewards (c : Checker) (m : Model) : Measure → Check (Option Rewards)
  | .probability | .steadyState => return none
  | .reward index =>
    match c.rewards with
    | none => throw (.unsupported .rewardStructures m.kind)
    | some source => do
      let allowNegative := m.kind == .csg
      discard <| Check.ask (.rewards index allowNegative true)
      let rewards ← Check.ofExcept (source m index allowNegative true)
      if m.kind = .idtmc ∧ rewards.hasTransitionRewards then throw (.unsupported .transitionRewards m.kind)
      return some rewards

/-- The answer of the solver, which has to have a value per state. -/
def askQuant (solver : Solver) (r : Request) : Check StateVector := do
  let before ← Check.ask (.quant r)
  let values ← Check.ofExcept (solver.quant before r)
  if values.size ≠ r.model.numStates then
    throw (.eval (.lengthMismatch r.model.numStates values.size))
  return values

/-! ## The recursion -/

mutual

/-- The vector of an expression over a domain. -/
def evalWith (st : Strategy) (c : Checker) (m : Model) (entered : Entered) (e : Expr)
    (domain : Option StateSet) : Check StateVector :=
  match e with
  | .ite condition t e' => do
    let type := t.type.choice e'.type
    match st with
    | .everywhere =>
      let cv ← evalWith st c m entered condition domain
      let tv ← evalWith st c m entered t domain
      let ev ← evalWith st c m entered e' domain
      Check.ofEval (cv.map3 tv ev type domain Value.applyIte)
    | .whereOpen =>
      let holds ← Check.ofEval (← evalWith st c m entered condition domain).satisfaction
      let thenStates := narrow holds domain
      let elseStates := narrow (holds.complement m.numStates) domain
      let tv ← if thenStates.isEmpty then pure (.zero type m.numStates)
        else evalWith st c m entered t (some thenStates)
      let ev ← if elseStates.isEmpty then pure (.zero type m.numStates)
        else evalWith st c m entered e' (some elseStates)
      Check.ofEval ((StateVector.ofSet holds m.numStates).map3 tv ev type domain Value.applyIte)
  | .binary op l r => do
    if st = .whereOpen ∧ op.isLazy then
      let left ← Check.ofEval (← evalWith st c m entered l domain).satisfaction
      let states := narrow (openStates op m.numStates left) domain
      let rv ← if states.isEmpty then pure (.zero .bool m.numStates)
        else evalWith st c m entered r (some states)
      let right ← Check.ofEval rv.satisfaction
      return .ofSet (connect op m.numStates left right) m.numStates
    else
      let lv ← evalWith st c m entered l domain
      let rv ← evalWith st c m entered r domain
      Check.ofEval (lv.map2 rv (op.resultType l.type r.type) domain (Value.applyBinary op))
  | .unary op e' => do
    let v ← evalWith st c m entered e' domain
    if op = .parenth then return v
    Check.ofEval (v.map1 (op.resultType e'.type) domain (Value.applyUnary op))
  | .call f args =>
    match f, args with
    | .multi, args => askMulti c m args domain
    | .min, a :: b :: rest | .max, a :: b :: rest => do
      let first ← evalWith st c m entered a domain
      combineArgs st c m entered f (f.resultType (Expr.types (a :: b :: rest))) first (b :: rest) domain
    | .floor, [a] | .ceil, [a] | .round, [a] => do
      let v ← evalWith st c m entered a domain
      Check.ofEval (v.map1 (f.resultType [a.type]) domain (Value.applyFunction1 f))
    | .pow, [a, b] | .mod, [a, b] | .log, [a, b] => do
      let v ← evalWith st c m entered a domain
      let w ← evalWith st c m entered b domain
      Check.ofEval (v.map2 w (f.resultType [a.type, b.type]) domain (Value.applyFunction2 f))
    | f, args => throw (.wrongArity f args.length)
  | .literal v => return .constant v m.numStates
  | .constant name t => constantVector c m name t
  | .ident name _ => throw (.unresolvedIdentifier name)
  | .formula name definition _ =>
    match definition with
    | some d => evalWith st c m entered d domain
    | none => throw (.unexpandedFormula name)
  | .var name index t => lookupVector m name t domain fun s => m.value? s index.toNat
  | .observable name t => observableVector c m name t domain
  | .label name =>
    match m.labelStates? name with
    | some states => return .ofSet states m.numStates
    | none =>
      match hd : c.definitions.label? name with
      | none => builtinLabel m name
      | some body =>
        if hn : entered.labels.contains name then throw (.cyclicReference .label name)
        else
          have := Definitions.remaining_label_lt hd (by simpa using hn)
          evalWith st c m (entered.label name) body domain
  | .property name _ =>
    match hd : c.definitions.property? name with
    | none => throw (.unknownProperty name)
    | some body =>
      if hn : entered.properties.contains name then throw (.cyclicReference .property name)
      else do
        have := Definitions.remaining_property_lt hd (by simpa using hn)
        Check.message ("Model checking : " ++ body.text)
        evalWith st c m (entered.property name) body domain
  | .filter op operand selector invisible explained => do
    let f : Filter := ⟨op, selector, invisible, explained⟩
    let satisfying ← match selector with
      | some p => Check.ofEval (← evalWith st c m entered p none).satisfaction
      | none => pure (.full m.numStates)
    let selection ← f.select m satisfying
    let v ← evalWith st c m entered operand (some selection.states)
    f.record c.settings c.definitions.parameters (← f.reduce c.settings m selection v)
  | .quant measure query operand =>
    match c.solver with
    | none => throw (.unsupported .quantities m.kind)
    | some solver => do
      let rewards ← buildRewards c m measure
      let (operand, labels) ← extractFrom st c m entered [] operand
      askQuant solver ⟨m, measure, query, operand, labels, rewards, domain, (← get).hint⟩
  | .path op _ _ => throw (.strayPath op)
termination_by (c.definitions.remaining entered, sizeOf e, 0)

/-- The values so far combined with those of the remaining arguments, one after the other. -/
def combineArgs (st : Strategy) (c : Checker) (m : Model) (entered : Entered) (f : Function) (t : ValueType)
    (acc : StateVector) (args : List Expr) (domain : Option StateSet) : Check StateVector :=
  match args with
  | [] => return acc
  | a :: rest => do
    let v ← evalWith st c m entered a domain
    let acc ← Check.ofEval (acc.map2 v t domain (Value.applyFunction2 f))
    combineArgs st c m entered f t acc rest domain
termination_by (c.definitions.remaining entered, sizeOf args, 0)

/-- The expression with its maximal state formulas replaced, and all labels made so far. References to
properties are replaced by what they stand for first. -/
def extractFrom (st : Strategy) (c : Checker) (m : Model) (entered : Entered) (found : Found) (e : Expr) :
    Check (Expr × Found) :=
  match e with
  | .property name _ =>
    match hd : c.definitions.property? name with
    | none => throw (.unknownProperty name)
    | some body =>
      if hn : entered.properties.contains name then throw (.cyclicReference .property name)
      else
        have := Definitions.remaining_property_lt hd (by simpa using hn)
        extractFrom st c m (entered.property name) found body
  | e =>
    if e.type = .bool ∧ e.isProposition then do
      let holds ← Check.ofEval (← evalWith st c m entered e none).satisfaction
      return found.replace m.numStates holds
    else extractFromChildren st c m entered found e
termination_by (c.definitions.remaining entered, sizeOf e, 2)

/-- The expression with the state formulas in its direct subexpressions replaced. -/
def extractFromChildren (st : Strategy) (c : Checker) (m : Model) (entered : Entered) (found : Found) (e : Expr) :
    Check (Expr × Found) :=
  match e with
  | .ite condition t e' => do
    let (condition, found) ← extractFrom st c m entered found condition
    let (t, found) ← extractFrom st c m entered found t
    let (e', found) ← extractFrom st c m entered found e'
    return (.ite condition t e', found)
  | .binary op l r => do
    let (l, found) ← extractFrom st c m entered found l
    let (r, found) ← extractFrom st c m entered found r
    return (.binary op l r, found)
  | .unary op e' => do
    let (e', found) ← extractFrom st c m entered found e'
    return (.unary op e', found)
  | .call f args => do
    let (args, found) ← extractFromAll st c m entered found args
    return (.call f args, found)
  | .formula name (some d) t => do
    let (d, found) ← extractFrom st c m entered found d
    return (.formula name (some d) t, found)
  | .filter op operand selector invisible explained => do
    let (operand, found) ← extractFrom st c m entered found operand
    match selector with
    | none => return (.filter op operand none invisible explained, found)
    | some p =>
      let (p, found) ← extractFrom st c m entered found p
      return (.filter op operand (some p) invisible explained, found)
  | .quant measure query operand => do
    let (operand, found) ← extractFrom st c m entered found operand
    return (.quant measure query operand, found)
  | .path op operands bound => do
    let (operands, found) ← extractFromAll st c m entered found operands
    return (.path op operands bound, found)
  | e => return (e, found)
termination_by (c.definitions.remaining entered, sizeOf e, 1)

/-- The expressions with their state formulas replaced, from left to right. -/
def extractFromAll (st : Strategy) (c : Checker) (m : Model) (entered : Entered) (found : Found)
    (es : List Expr) : Check (List Expr × Found) :=
  match es with
  | [] => return ([], found)
  | e :: rest => do
    let (e, found) ← extractFrom st c m entered found e
    let (rest, found) ← extractFromAll st c m entered found rest
    return (e :: rest, found)
termination_by (c.definitions.remaining entered, sizeOf es, 0)

end

end Checker

end Statewise
