import Statewise.Check.Property

/-!
# Evaluation, stage by stage

For every kind of expression, the computation that `Checker.evalWith` is: the operands that are evaluated,
over which states, and what is made of their vectors. Later files reason about these stages and never open
the evaluator again.
-/

namespace Statewise

/-- Whether a function can be called with that many arguments; a query for several objectives is no call. -/
def Function.accepts (f : Function) (count : Nat) : Bool :=
  match f with
  | .min | .max => decide (2 ≤ count)
  | .floor | .ceil | .round => count == 1
  | .pow | .mod | .log => count == 2
  | .multi => false

/-- The functions that fold any number of arguments. -/
def Function.IsExtremum (f : Function) : Prop := f = .min ∨ f = .max

/-- The functions that round one argument. -/
def Function.IsRounding (f : Function) : Prop := f = .floor ∨ f = .ceil ∨ f = .round

/-- The functions of exactly two arguments. -/
def Function.IsDyadic (f : Function) : Prop := f = .pow ∨ f = .mod ∨ f = .log

/-- The calls that are accepted. -/
theorem Function.accepts_cases {f : Function} {args : List Expr} (h : f.accepts args.length = true) :
    (f.IsExtremum ∧ ∃ a b rest, args = a :: b :: rest) ∨ (f.IsRounding ∧ ∃ a, args = [a]) ∨
      (f.IsDyadic ∧ ∃ a b, args = [a, b]) := by
  unfold IsExtremum IsRounding IsDyadic
  rcases args with _ | ⟨a, _ | ⟨b, _ | ⟨d, rest⟩⟩⟩ <;> cases f <;> simp [accepts] at h ⊢

/-- The expression with others in place of its direct subexpressions. -/
def Expr.withChildren : Expr → List Expr → Expr
  | .ite .., [cond, t, e] => .ite cond t e
  | .binary op .., [l, r] => .binary op l r
  | .unary op _, [e] => .unary op e
  | .call f _, args => .call f args
  | .formula name (some _) t, [d] => .formula name (some d) t
  | .filter op _ none invisible explained, [e] => .filter op e none invisible explained
  | .filter op _ (some _) invisible explained, [e, p] => .filter op e (some p) invisible explained
  | .quant measure query _, [e] => .quant measure query e
  | .path op _ bound, operands => .path op operands bound
  | e, _ => e

namespace Checker

variable (st : Strategy) (c : Checker) (m : Model) (entered : Entered) (domain : Option StateSet)

-- The equations of the evaluator and of the extraction rewrite in this file alone.
attribute [local simp] evalWith combineArgs extractFrom extractFromChildren extractFromAll

/-- The vector of an operand over the states where it still matters; nothing is evaluated if there are none. -/
def evalOver (e : Expr) (t : ValueType) (states : StateSet) : Check StateVector :=
  if states.isEmpty then pure (.zero t m.numStates) else evalWith .whereOpen c m entered e (some states)

/-- The satisfaction set of an expression. -/
def satisfying (e : Expr) : Check StateSet := do
  Check.ofEval (← evalWith st c m entered e domain).satisfaction

/-- The satisfaction set of an operand over the states where it still matters. -/
def satisfyingOver (e : Expr) (states : StateSet) : Check StateSet := do
  Check.ofEval (← evalOver c m entered e .bool states).satisfaction

/-- The states that a selector selects. -/
def selected : Option Expr → Check StateSet
  | none => pure (.full m.numStates)
  | some p => satisfying st c m entered none p

/-- A filter over the states that satisfy its selector. -/
def applyFilter (f : Filter) (e : Expr) (states : StateSet) : Check StateVector := do
  let selection ← f.select m states
  let v ← evalWith st c m entered e (some selection.states)
  f.record c.settings c.definitions.parameters (← f.reduce c.settings m selection v)

/-- What a filter yields over the states that satisfy its selector, before it is recorded. -/
def reduceOver (f : Filter) (e : Expr) (states : StateSet) : Check Reduced := do
  let selection ← f.select m states
  let v ← evalWith st c m entered e (some selection.states)
  f.reduce c.settings m selection v

theorem applyFilter_eq (f : Filter) (e : Expr) (states : StateSet) :
    applyFilter st c m entered f e states =
      (reduceOver st c m entered f e states >>= f.record c.settings c.definitions.parameters) := by
  unfold applyFilter reduceOver
  simp only [bind_assoc]

theorem evalWith_ite (cond t e : Expr) :
    evalWith .whereOpen c m entered (.ite cond t e) domain = (do
      let holds ← satisfying .whereOpen c m entered domain cond
      let tv ← evalOver c m entered t (t.type.choice e.type) (narrow holds domain)
      let ev ← evalOver c m entered e (t.type.choice e.type) (narrow (holds.complement m.numStates) domain)
      Check.ofEval ((StateVector.ofSet holds m.numStates).map3 tv ev (t.type.choice e.type) domain
        Value.applyIte)) := by
  rw [evalWith]
  unfold satisfying evalOver
  simp only [bind_assoc, pure_bind]
  congr 1; funext cv; congr 1; funext holds
  split <;> split <;> simp only [pure_bind]

theorem evalWith_ite_everywhere (cond t e : Expr) :
    evalWith .everywhere c m entered (.ite cond t e) domain = (do
      let cv ← evalWith .everywhere c m entered cond domain
      let tv ← evalWith .everywhere c m entered t domain
      let ev ← evalWith .everywhere c m entered e domain
      Check.ofEval (cv.map3 tv ev (t.type.choice e.type) domain Value.applyIte)) := by
  rw [evalWith]

theorem evalWith_lazy {op : BinaryOp} (hop : op.isLazy = true) (l r : Expr) :
    evalWith .whereOpen c m entered (.binary op l r) domain = (do
      let left ← satisfying .whereOpen c m entered domain l
      let right ← satisfyingOver c m entered r (narrow (openStates op m.numStates left) domain)
      return .ofSet (connect op m.numStates left right) m.numStates) := by
  rw [evalWith, if_pos ⟨rfl, hop⟩]
  unfold satisfying satisfyingOver evalOver
  simp only [bind_assoc, pure_bind]
  congr 1; funext lv; congr 1; funext left
  split <;> simp only [pure_bind]

theorem evalWith_strict {op : BinaryOp} (hop : ¬(st = .whereOpen ∧ op.isLazy = true)) (l r : Expr) :
    evalWith st c m entered (.binary op l r) domain = (do
      let lv ← evalWith st c m entered l domain
      let rv ← evalWith st c m entered r domain
      Check.ofEval (lv.map2 rv (op.resultType l.type r.type) domain (Value.applyBinary op))) := by
  rw [evalWith, if_neg hop]

theorem evalWith_parenth (e : Expr) :
    evalWith st c m entered (.unary .parenth e) domain = evalWith st c m entered e domain := by
  rw [evalWith]
  simp

theorem evalWith_unary {op : UnaryOp} (hop : op ≠ .parenth) (e : Expr) :
    evalWith st c m entered (.unary op e) domain = (do
      let v ← evalWith st c m entered e domain
      Check.ofEval (v.map1 (op.resultType e.type) domain (Value.applyUnary op))) := by
  rw [evalWith]
  simp only [if_neg hop]

theorem evalWith_multi (args : List Expr) :
    evalWith st c m entered (.call .multi args) domain = askMulti c m args domain := by
  rw [evalWith]

theorem evalWith_extremum {f : Function} (hf : f.IsExtremum) (a b : Expr) (rest : List Expr) :
    evalWith st c m entered (.call f (a :: b :: rest)) domain = (do
      let first ← evalWith st c m entered a domain
      combineArgs st c m entered f (f.resultType (Expr.types (a :: b :: rest))) first (b :: rest) domain) := by
  rcases hf with rfl | rfl <;> rw [evalWith]

theorem evalWith_rounding {f : Function} (hf : f.IsRounding) (a : Expr) :
    evalWith st c m entered (.call f [a]) domain = (do
      let v ← evalWith st c m entered a domain
      Check.ofEval (v.map1 (f.resultType [a.type]) domain (Value.applyFunction1 f))) := by
  rcases hf with rfl | rfl | rfl <;> rw [evalWith]

theorem evalWith_dyadic {f : Function} (hf : f.IsDyadic) (a b : Expr) :
    evalWith st c m entered (.call f [a, b]) domain = (do
      let v ← evalWith st c m entered a domain
      let w ← evalWith st c m entered b domain
      Check.ofEval (v.map2 w (f.resultType [a.type, b.type]) domain (Value.applyFunction2 f))) := by
  rcases hf with rfl | rfl | rfl <;> rw [evalWith]

theorem evalWith_wrongArity {f : Function} {args : List Expr} (hf : f ≠ .multi)
    (h : f.accepts args.length = false) :
    evalWith st c m entered (.call f args) domain = throw (.wrongArity f args.length) := by
  -- No function tells three arguments from more.
  rcases args with _ | ⟨a, _ | ⟨b, _ | ⟨d, rest⟩⟩⟩ <;> cases f <;>
    first
    | exact absurd rfl hf
    | (simp [Function.accepts] at h; done)
    | simp

theorem evalWith_literal (v : Value) :
    evalWith st c m entered (.literal v) domain = return .constant v m.numStates := by
  rw [evalWith]

theorem evalWith_constant (name : String) (t : ValueType) :
    evalWith st c m entered (.constant name t) domain = constantVector c m name t := by
  rw [evalWith]

theorem evalWith_ident (name : String) (t : ValueType) :
    evalWith st c m entered (.ident name t) domain = throw (.unresolvedIdentifier name) := by
  rw [evalWith]

theorem evalWith_expanded (name : String) (d : Expr) (t : ValueType) :
    evalWith st c m entered (.formula name (some d) t) domain = evalWith st c m entered d domain := by
  rw [evalWith]

theorem evalWith_unexpanded (name : String) (t : ValueType) :
    evalWith st c m entered (.formula name none t) domain = throw (.unexpandedFormula name) := by
  rw [evalWith]

theorem evalWith_var (name : String) (index : UInt64) (t : ValueType) :
    evalWith st c m entered (.var name index t) domain =
      lookupVector m name t domain fun s => m.value? s index.toNat := by
  rw [evalWith]

theorem evalWith_observable (name : String) (t : ValueType) :
    evalWith st c m entered (.observable name t) domain = observableVector c m name t domain := by
  rw [evalWith]

theorem evalWith_attached {name : String} {states : StateSet} (h : m.labelStates? name = some states) :
    evalWith st c m entered (.label name) domain = return .ofSet states m.numStates := by
  rw [evalWith]
  simp only [h]

theorem evalWith_builtin {name : String} (hm : m.labelStates? name = none)
    (hd : c.definitions.label? name = none) :
    evalWith st c m entered (.label name) domain = builtinLabel m name := by
  rw [evalWith]
  simp only [hm]
  split
  · rfl
  · next body h => rw [hd] at h; cases h

theorem evalWith_cyclicLabel {name : String} {body : Expr} (hm : m.labelStates? name = none)
    (hd : c.definitions.label? name = some body) (hn : entered.labels.contains name = true) :
    evalWith st c m entered (.label name) domain = throw (.cyclicReference .label name) := by
  rw [evalWith]
  simp only [hm]
  split
  · next h => rw [hd] at h; cases h
  · rw [dif_pos hn]

theorem evalWith_definedLabel {name : String} {body : Expr} (hm : m.labelStates? name = none)
    (hd : c.definitions.label? name = some body) (hn : entered.labels.contains name = false) :
    evalWith st c m entered (.label name) domain = evalWith st c m (entered.label name) body domain := by
  rw [evalWith]
  simp only [hm]
  split
  · next h => rw [hd] at h; cases h
  · next body' h =>
    rw [hd] at h
    cases h
    rw [dif_neg (by simpa using hn)]

/-- A label is attached, or built in, or it fails as a cycle, or its definition is entered. -/
theorem evalWith_label_cases (name : String) :
    (∃ states, m.labelStates? name = some states ∧
      ∀ st domain, evalWith st c m entered (.label name) domain = return .ofSet states m.numStates) ∨
    (∀ st domain, evalWith st c m entered (.label name) domain = builtinLabel m name) ∨
    (∀ st domain, evalWith st c m entered (.label name) domain = throw (.cyclicReference .label name)) ∨
    ∃ body, c.definitions.label? name = some body ∧
      c.definitions.remaining (entered.label name) < c.definitions.remaining entered ∧
      ∀ st domain, evalWith st c m entered (.label name) domain =
        evalWith st c m (entered.label name) body domain := by
  cases hm : m.labelStates? name with
  | some states => exact Or.inl ⟨states, rfl, fun st _ => evalWith_attached st c m entered _ hm⟩
  | none =>
    cases hd : c.definitions.label? name with
    | none => exact Or.inr (Or.inl fun st _ => evalWith_builtin st c m entered _ hm hd)
    | some body =>
      cases hn : entered.labels.contains name with
      | true => exact Or.inr (Or.inr (Or.inl fun st _ => evalWith_cyclicLabel st c m entered _ hm hd hn))
      | false =>
        exact Or.inr (Or.inr (Or.inr ⟨body, rfl, Definitions.remaining_label_lt hd hn,
          fun st _ => evalWith_definedLabel st c m entered _ hm hd hn⟩))

theorem evalWith_unknownProperty {name : String} (t : ValueType) (hd : c.definitions.property? name = none) :
    evalWith st c m entered (.property name t) domain = throw (.unknownProperty name) := by
  rw [evalWith]
  split
  · rfl
  · next h => rw [hd] at h; cases h

theorem evalWith_cyclicProperty {name : String} {body : Expr} (t : ValueType)
    (hd : c.definitions.property? name = some body) (hn : entered.properties.contains name = true) :
    evalWith st c m entered (.property name t) domain = throw (.cyclicReference .property name) := by
  rw [evalWith]
  split
  · next h => rw [hd] at h; cases h
  · rw [dif_pos hn]

theorem evalWith_definedProperty {name : String} {body : Expr} (t : ValueType)
    (hd : c.definitions.property? name = some body) (hn : entered.properties.contains name = false) :
    evalWith st c m entered (.property name t) domain = (do
      Check.message ("Model checking : " ++ body.text)
      evalWith st c m (entered.property name) body domain) := by
  rw [evalWith]
  split
  · next h => rw [hd] at h; cases h
  · next body' h =>
    rw [hd] at h
    cases h
    rw [dif_neg (by simpa using hn)]

/-- A reference to a property fails, or the definition of the property is entered. -/
theorem evalWith_property_cases (name : String) (t : ValueType) :
    (∃ e, ∀ st domain, evalWith st c m entered (.property name t) domain = throw e) ∨
    ∃ body, c.definitions.property? name = some body ∧
      c.definitions.remaining (entered.property name) < c.definitions.remaining entered ∧
      ∀ st domain, evalWith st c m entered (.property name t) domain = (do
        Check.message ("Model checking : " ++ body.text)
        evalWith st c m (entered.property name) body domain) := by
  cases hd : c.definitions.property? name with
  | none => exact Or.inl ⟨_, fun st _ => evalWith_unknownProperty st c m entered _ t hd⟩
  | some body =>
    cases hn : entered.properties.contains name with
    | true => exact Or.inl ⟨_, fun st _ => evalWith_cyclicProperty st c m entered _ t hd hn⟩
    | false =>
      exact Or.inr ⟨body, rfl, Definitions.remaining_property_lt hd hn,
        fun st _ => evalWith_definedProperty st c m entered _ t hd hn⟩

theorem evalWith_filter (op : FilterOp) (e : Expr) (p : Option Expr) (invisible explained : Bool) :
    evalWith st c m entered (.filter op e p invisible explained) domain = (do
      let states ← selected st c m entered p
      applyFilter st c m entered ⟨op, p, invisible, explained⟩ e states) := by
  cases p with
  | none =>
    rw [evalWith]
    rfl
  | some p =>
    rw [evalWith]
    unfold selected satisfying applyFilter
    simp only [bind_assoc]

theorem evalWith_path (op : PathOp) (operands : List Expr) (bound : Option UInt64) :
    evalWith st c m entered (.path op operands bound) domain = throw (.strayPath op) := by
  rw [evalWith]

/-- Without a solver there are no quantities. -/
theorem evalWith_quant (hc : c.solver = none) (measure : Measure) (query : Query) (operand : Expr) :
    evalWith st c m entered (.quant measure query operand) domain = throw (.unsupported .quantities m.kind) := by
  rw [evalWith]
  split
  · rfl
  · next h => rw [hc] at h; cases h

/-- Nor are there queries for several objectives. -/
theorem evalWith_multi_unsolved (hc : c.solver = none) (args : List Expr) :
    evalWith st c m entered (.call .multi args) domain = throw (.unsupported .multiObjective m.kind) := by
  rw [evalWith_multi]
  unfold askMulti
  rw [hc]
  rfl

/-- A quantity is asked for with its state formulas replaced, under the hint that is left by then. -/
theorem evalWith_quant_asked {solver : Solver} (hc : c.solver = some solver) (measure : Measure) (query : Query)
    (operand : Expr) :
    evalWith st c m entered (.quant measure query operand) domain = (do
      let rewards ← buildRewards c m measure
      let (operand, labels) ← extractFrom st c m entered [] operand
      askQuant solver ⟨m, measure, query, operand, labels, rewards, domain, (← get).hint⟩) := by
  rw [evalWith]
  split
  · next h => rw [hc] at h; cases h
  · next h =>
    rw [hc] at h
    cases h
    rfl

theorem combineArgs_nil (f : Function) (t : ValueType) (acc : StateVector) :
    combineArgs st c m entered f t acc [] domain = return acc := by
  rw [combineArgs]

theorem combineArgs_cons (f : Function) (t : ValueType) (acc : StateVector) (a : Expr) (rest : List Expr) :
    combineArgs st c m entered f t acc (a :: rest) domain = (do
      let v ← evalWith st c m entered a domain
      let acc ← Check.ofEval (acc.map2 v t domain (Value.applyFunction2 f))
      combineArgs st c m entered f t acc rest domain) := by
  rw [combineArgs]

/-! ## Extraction -/

variable (found : Found)

theorem extractFrom_unknownProperty {name : String} (t : ValueType) (hd : c.definitions.property? name = none) :
    extractFrom st c m entered found (.property name t) = throw (.unknownProperty name) := by
  rw [extractFrom]
  split
  · rfl
  · next h => rw [hd] at h; cases h

theorem extractFrom_cyclicProperty {name : String} {body : Expr} (t : ValueType)
    (hd : c.definitions.property? name = some body) (hn : entered.properties.contains name = true) :
    extractFrom st c m entered found (.property name t) = throw (.cyclicReference .property name) := by
  rw [extractFrom]
  split
  · next h => rw [hd] at h; cases h
  · rw [dif_pos hn]

theorem extractFrom_definedProperty {name : String} {body : Expr} (t : ValueType)
    (hd : c.definitions.property? name = some body) (hn : entered.properties.contains name = false) :
    extractFrom st c m entered found (.property name t) =
      extractFrom st c m (entered.property name) found body := by
  rw [extractFrom]
  split
  · next h => rw [hd] at h; cases h
  · next body' h =>
    rw [hd] at h
    cases h
    rw [dif_neg (by simpa using hn)]

/-- A proposition is evaluated everywhere and replaced. -/
theorem extractFrom_proposition {e : Expr} (he : e.type = .bool ∧ e.isProposition = true) :
    extractFrom st c m entered found e = (do
      let holds ← satisfying st c m entered none e
      return found.replace m.numStates holds) := by
  cases e with
  | property name t => exact absurd he.2 Bool.false_ne_true
  | _ =>
    rw [extractFrom, if_pos he]
    · unfold satisfying
      simp only [bind_assoc]
    · exact fun _ _ h => Expr.noConfusion h

/-- In any other expression, except a reference to a property, its direct subexpressions are taken. -/
theorem extractFrom_children {e : Expr} (he : ¬(e.type = .bool ∧ e.isProposition = true))
    (hp : ∀ name t, e ≠ .property name t) :
    extractFrom st c m entered found e = extractFromChildren st c m entered found e := by
  rw [extractFrom, if_neg he]
  exact hp

theorem extractFromChildren_ite (cond t e : Expr) :
    extractFromChildren st c m entered found (.ite cond t e) = (do
      let (cond, found) ← extractFrom st c m entered found cond
      let (t, found) ← extractFrom st c m entered found t
      let (e, found) ← extractFrom st c m entered found e
      return (.ite cond t e, found)) := by
  rw [extractFromChildren]

theorem extractFromChildren_binary (op : BinaryOp) (l r : Expr) :
    extractFromChildren st c m entered found (.binary op l r) = (do
      let (l, found) ← extractFrom st c m entered found l
      let (r, found) ← extractFrom st c m entered found r
      return (.binary op l r, found)) := by
  rw [extractFromChildren]

theorem extractFromChildren_unary (op : UnaryOp) (e : Expr) :
    extractFromChildren st c m entered found (.unary op e) = (do
      let (e, found) ← extractFrom st c m entered found e
      return (.unary op e, found)) := by
  rw [extractFromChildren]

theorem extractFromChildren_call (f : Function) (args : List Expr) :
    extractFromChildren st c m entered found (.call f args) = (do
      let (args, found) ← extractFromAll st c m entered found args
      return (.call f args, found)) := by
  rw [extractFromChildren]

theorem extractFromChildren_expanded (name : String) (d : Expr) (t : ValueType) :
    extractFromChildren st c m entered found (.formula name (some d) t) = (do
      let (d, found) ← extractFrom st c m entered found d
      return (.formula name (some d) t, found)) := by
  rw [extractFromChildren]

/-- The selector of a filter with its state formulas replaced. -/
def extractSelector : Option Expr → Check (Option Expr × Found)
  | none => return (none, found)
  | some p => do
    let (p, found) ← extractFrom st c m entered found p
    return (some p, found)

theorem extractFromChildren_filter (op : FilterOp) (e : Expr) (p : Option Expr) (invisible explained : Bool) :
    extractFromChildren st c m entered found (.filter op e p invisible explained) = (do
      let (e, found) ← extractFrom st c m entered found e
      let (p, found) ← extractSelector st c m entered found p
      return (.filter op e p invisible explained, found)) := by
  cases p with
  | none =>
    rw [extractFromChildren]
    rfl
  | some p =>
    rw [extractFromChildren]
    unfold extractSelector
    simp only [bind_assoc, pure_bind]

theorem extractFromChildren_quant (measure : Measure) (query : Query) (e : Expr) :
    extractFromChildren st c m entered found (.quant measure query e) = (do
      let (e, found) ← extractFrom st c m entered found e
      return (.quant measure query e, found)) := by
  rw [extractFromChildren]

theorem extractFromChildren_path (op : PathOp) (operands : List Expr) (bound : Option UInt64) :
    extractFromChildren st c m entered found (.path op operands bound) = (do
      let (operands, found) ← extractFromAll st c m entered found operands
      return (.path op operands bound, found)) := by
  rw [extractFromChildren]

/-- Where there is no subexpression nothing is replaced. -/
theorem extractFromChildren_leaf {e : Expr} (he : e.children = []) :
    extractFromChildren st c m entered found e = return (e, found) := by
  cases e with
  | call f args =>
    have hargs : args = [] := he
    rw [hargs, extractFromChildren, extractFromAll, pure_bind]
  | path op operands bound =>
    have hoperands : operands = [] := he
    rw [hoperands, extractFromChildren, extractFromAll, pure_bind]
  | formula name d t =>
    cases d with
    | none => simp
    | some d => cases he
  | literal | constant | ident | var | observable | label | property => simp
  | _ => cases he

theorem extractFromAll_nil :
    extractFromAll st c m entered found [] = return ([], found) := by
  rw [extractFromAll]

theorem extractFromAll_cons (e : Expr) (rest : List Expr) :
    extractFromAll st c m entered found (e :: rest) = (do
      let (e, found) ← extractFrom st c m entered found e
      let (rest, found) ← extractFromAll st c m entered found rest
      return (e :: rest, found)) := by
  rw [extractFromAll]

/-- The direct subexpressions are taken from left to right, and put back in their places. -/
theorem extractFromChildren_eq (e : Expr) :
    extractFromChildren st c m entered found e = (do
      let (es, found) ← extractFromAll st c m entered found e.children
      return (e.withChildren es, found)) := by
  cases e with
  | formula name d t => cases d <;> simp [Expr.children, Expr.withChildren]
  | filter op e p invisible explained => cases p <;> simp [Expr.children, Expr.withChildren]
  | _ => simp [Expr.children, Expr.withChildren]

end Checker

end Statewise
