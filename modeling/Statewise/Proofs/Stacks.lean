import Statewise.Proofs.Running
import Statewise.Proofs.Stages
import Statewise.Proofs.Within

/-!
# Expanding definitions with stacks

Calls come back, with the stacks as they found them.

`Checker.evalWith` is handed the names that are being expanded, and its caller still has them when it is done. The
evaluator of this file keeps them on two stacks instead, beside the run. A name is pushed when its definition is
entered and has to be taken off again on every way out, also after an error; the rewrite puts several names on
and cuts the stack back to its old length. Nothing in the evaluator says how deep its calls will nest, so it is
defined for calls up to some depth and gives nothing where they would go deeper. From some depth on, whatever
the domain and the run are, it gives what `evalWith` and `extractFrom` yield.
-/

namespace Statewise

open Check

/-! ## Stacks -/

namespace Entered

/-- The stack of a sort of definitions, the innermost name first. -/
def names (e : Entered) : ReferenceSort → List String
  | .property => e.properties
  | .label => e.labels

def push (e : Entered) : ReferenceSort → String → Entered
  | .property, name => e.property name
  | .label, name => e.label name

def pop (e : Entered) : ReferenceSort → Entered
  | .property => { e with properties := e.properties.tail }
  | .label => { e with labels := e.labels.tail }

/-- Only the outermost properties stay, which are the last ones. -/
def truncateProperties (depth : Nat) (e : Entered) : Entered :=
  { e with properties := e.properties.drop (e.properties.length - depth) }

/-- With more properties entered, the last name first. -/
def within (e : Entered) (names : List String) : Entered := { e with properties := names ++ e.properties }

@[simp] theorem pop_push (e : Entered) (sort : ReferenceSort) (name : String) : (e.push sort name).pop sort = e := by
  cases sort <;> rfl

theorem within_property (e : Entered) (name : String) (names : List String) :
    (e.property name).within names = e.within (names ++ [name]) := by
  simp [within, property]

theorem truncateProperties_within (e : Entered) (names : List String) :
    (e.within names).truncateProperties e.properties.length = e := by
  simp [within, truncateProperties]

end Entered

/-- A computation that has the stacks beside the run. It gives nothing if its calls nest too deep. -/
abbrev Stacked (α : Type) := ExceptT CheckError (StateT (Entered × Run) Option) α

namespace Stacked

variable {α β : Type}

def tooDeep : Stacked α := fun _ => none

/-- A computation that does not look at the stacks. -/
def ofCheck (x : Check α) : Stacked α := fun s => some (outcome x s.2, (s.1, after x s.2))

def getStacks : Stacked Entered := fun s => some (.ok s.1, s)

def setStacks (entered : Entered) : Stacked Unit := fun s => some (.ok (), (entered, s.2))

/-- Mark a definition as being expanded; it is an error if it is already. -/
def enter (sort : ReferenceSort) (name : String) : Stacked Unit := do
  let entered ← getStacks
  if (entered.names sort).contains name then throw (.cyclicReference sort name)
  setStacks (entered.push sort name)

/-- Change the stacks on the way out, whether there is a result or an error. -/
def leaving (leave : Entered → Entered) (x : Stacked α) : Stacked α := fun s =>
  (x s).map fun (result, entered, run) => (result, leave entered, run)

theorem bind_ok {x : Stacked α} {f : α → Stacked β} {s s' : Entered × Run} {a : α}
    (h : x s = some (.ok a, s')) : (x >>= f) s = f a s' := by
  show (x s).bind (fun p => ExceptT.bindCont f p.1 p.2) = _
  rw [h]
  rfl

theorem bind_error {x : Stacked α} {f : α → Stacked β} {s s' : Entered × Run} {e : CheckError}
    (h : x s = some (.error e, s')) : (x >>= f) s = some (.error e, s') := by
  show (x s).bind (fun p => ExceptT.bindCont f p.1 p.2) = _
  rw [h]
  rfl

/-! ### Coming back -/

/-- From every run the computation comes back with the outcome of another one, which knows no stacks. It leaves
the same run behind, and the stacks as they were. -/
def Returns (entered : Entered) (x : Stacked α) (y : Check α) : Prop :=
  ∀ r, x (entered, r) = some (outcome y r, (entered, after y r))

/-- The same, but with some more properties entered. -/
def Deepens (entered : Entered) (x : Stacked α) (y : Check α) : Prop :=
  ∀ r, ∃ names, x (entered, r) = some (outcome y r, (entered.within names, after y r))

variable {entered : Entered} {x : Stacked α} {y : Check α} {f : α → Stacked β} {g : α → Check β}

theorem returns_ofCheck (y : Check α) : Returns entered (ofCheck y) y := fun _ => rfl

theorem returns_pure (a : α) : Returns entered (pure a : Stacked α) (pure a) := fun _ => rfl

theorem returns_throw (e : CheckError) : Returns entered (throw e : Stacked α) (throw e) := fun _ => rfl

theorem Returns.bind (hx : Returns entered x y) (hf : ∀ a, Returns entered (f a) (g a)) :
    Returns entered (x >>= f) (y >>= g) := by
  intro r
  have hr := hx r
  cases h : outcome y r with
  | error e =>
    rw [h] at hr
    rw [bind_error hr, outcome_bind_error h, after_bind_error h]
  | ok a =>
    rw [h] at hr
    rw [bind_ok hr, outcome_bind_ok h, after_bind_ok h]
    exact hf a _

theorem Returns.ite {x' : Stacked α} {y' : Check α} {p : Prop} [Decidable p] (hx : Returns entered x y)
    (hx' : Returns entered x' y') : Returns entered (if p then x else x') (if p then y else y') := by
  by_cases h : p
  · simp only [if_pos h]
    exact hx
  · simp only [if_neg h]
    exact hx'

theorem Returns.deepens (hx : Returns entered x y) : Deepens entered x y := fun r => ⟨[], hx r⟩

section

variable (sort : ReferenceSort) {name : String}

theorem enter_ok (hn : (entered.names sort).contains name = false) (r : Run) :
    enter sort name (entered, r) = some (.ok (), (entered.push sort name, r)) := by
  unfold enter
  rw [bind_ok (show getStacks (entered, r) = some (.ok entered, (entered, r)) from rfl)]
  simp only [hn]
  rfl

theorem enter_error (hn : (entered.names sort).contains name = true) (r : Run) :
    enter sort name (entered, r) = some (.error (.cyclicReference sort name), (entered, r)) := by
  unfold enter
  rw [bind_ok (show getStacks (entered, r) = some (.ok entered, (entered, r)) from rfl)]
  simp only [hn]
  rfl

/-- A definition is entered, and its name taken off again on the way out. -/
theorem returns_entered (hn : (entered.names sort).contains name = false)
    (hx : Returns (entered.push sort name) x y) :
    Returns entered (do enter sort name; leaving (Entered.pop · sort) x) y := by
  intro r
  show (enter sort name >>= fun _ => leaving (Entered.pop · sort) x) (entered, r) = _
  rw [bind_ok (enter_ok sort hn r)]
  unfold leaving
  rw [hx r]
  simp

/-- A name that is on its stack is refused, and the stack stays as it is. -/
theorem returns_refused (hn : (entered.names sort).contains name = true) :
    Returns entered (do enter sort name; x) (throw (.cyclicReference sort name) : Check α) :=
  fun r => bind_error (enter_error sort hn r)

end

/-- A property is entered, and its name stays on the stack. -/
theorem deepens_property {name : String} (hn : entered.properties.contains name = false)
    (hx : Deepens (entered.property name) x y) : Deepens entered (do enter .property name; x) y := by
  intro r
  obtain ⟨names, h⟩ := hx r
  refine ⟨names ++ [name], ?_⟩
  rw [Entered.within_property] at h
  show (enter .property name >>= fun _ => x) (entered, r) = _
  rw [bind_ok (enter_ok .property hn r)]
  exact h

/-- Cutting the stack back to its old length takes off whatever was put on it. -/
theorem returns_truncated (hx : Deepens entered x y) :
    Returns entered (do let depth := (← getStacks).properties.length
                        leaving (Entered.truncateProperties depth) x) y := by
  intro r
  obtain ⟨names, h⟩ := hx r
  show (getStacks >>= fun s => leaving (Entered.truncateProperties s.properties.length) x) (entered, r) = _
  rw [bind_ok (show getStacks (entered, r) = some (.ok entered, (entered, r)) from rfl)]
  unfold leaving
  rw [h]
  simp [Entered.truncateProperties_within]

end Stacked

/-! ## The evaluator -/

/-- The calls that a step of the evaluator can make: evaluate an expression over a domain, or inline the
properties at the root of an expression and rewrite what is there, which may leave their names on the stack. -/
structure Calls where
  eval : Expr → Option StateSet → Stacked StateVector
  inline : Found → Expr → Stacked (Expr × Found)

namespace Calls

open Stacked

variable (calls : Calls) (c : Checker) (m : Model)

/-- Rewrite an expression, whatever its root; then the stack is cut back to its old length. -/
def rewrite (found : Found) (e : Expr) : Stacked (Expr × Found) := do
  let depth := (← getStacks).properties.length
  leaving (Entered.truncateProperties depth) (calls.inline found e)

def satisfying (e : Expr) (domain : Option StateSet) : Stacked StateSet := do
  ofCheck (Check.ofEval (← calls.eval e domain).satisfaction)

/-- Nothing is evaluated over no states. -/
def evalOver (e : Expr) (t : ValueType) (states : StateSet) : Stacked StateVector :=
  if states.isEmpty then pure (.zero t m.numStates) else calls.eval e (some states)

def satisfyingOver (e : Expr) (states : StateSet) : Stacked StateSet := do
  ofCheck (Check.ofEval (← calls.evalOver m e .bool states).satisfaction)

def checkIte (cond t e : Expr) (domain : Option StateSet) : Stacked StateVector := do
  let type := t.type.choice e.type
  let holds ← calls.satisfying cond domain
  let tv ← calls.evalOver m t type (narrow holds domain)
  let ev ← calls.evalOver m e type (narrow (holds.complement m.numStates) domain)
  ofCheck (Check.ofEval ((StateVector.ofSet holds m.numStates).map3 tv ev type domain Value.applyIte))

def checkLogical (op : BinaryOp) (l r : Expr) (domain : Option StateSet) : Stacked StateVector := do
  let left ← calls.satisfying l domain
  let right ← calls.satisfyingOver m r (narrow (Checker.openStates op m.numStates left) domain)
  return .ofSet (Checker.connect op m.numStates left right) m.numStates

def checkBinary (op : BinaryOp) (l r : Expr) (domain : Option StateSet) : Stacked StateVector :=
  if op.isLazy then calls.checkLogical m op l r domain
  else do
    let lv ← calls.eval l domain
    let rv ← calls.eval r domain
    ofCheck (Check.ofEval (lv.map2 rv (op.resultType l.type r.type) domain (Value.applyBinary op)))

def checkUnary (op : UnaryOp) (e : Expr) (domain : Option StateSet) : Stacked StateVector := do
  let v ← calls.eval e domain
  if op = .parenth then return v
  ofCheck (Check.ofEval (v.map1 (op.resultType e.type) domain (Value.applyUnary op)))

/-- The states of a label: attached to the model, or those where its definition holds, or built in. -/
def checkLabel (name : String) (domain : Option StateSet) : Stacked StateVector :=
  match m.labelStates? name with
  | some states => return .ofSet states m.numStates
  | none =>
    match c.definitions.label? name with
    | some body => do
      enter .label name
      leaving (Entered.pop · .label) (calls.eval body domain)
    | none => ofCheck (Checker.builtinLabel m name)

def checkProperty (name : String) (domain : Option StateSet) : Stacked StateVector :=
  match c.definitions.property? name with
  | none => throw (.unknownProperty name)
  | some body => do
    enter .property name
    leaving (Entered.pop · .property) do
      ofCheck (Check.message ("Model checking : " ++ body.text))
      calls.eval body domain

/-- The values so far combined with those of the remaining arguments. -/
def combine (f : Function) (t : ValueType) (domain : Option StateSet) (acc : StateVector) :
    List Expr → Stacked StateVector
  | [] => return acc
  | a :: rest => do
    let v ← calls.eval a domain
    let acc ← ofCheck (Check.ofEval (acc.map2 v t domain (Value.applyFunction2 f)))
    combine f t domain acc rest

def checkCall (f : Function) (args : List Expr) (domain : Option StateSet) : Stacked StateVector :=
  match f, args with
  | .multi, args => ofCheck (Checker.askMulti c m args domain)
  | .min, a :: b :: rest | .max, a :: b :: rest => do
    let first ← calls.eval a domain
    calls.combine f (f.resultType (Expr.types (a :: b :: rest))) domain first (b :: rest)
  | .floor, [a] | .ceil, [a] | .round, [a] => do
    let v ← calls.eval a domain
    ofCheck (Check.ofEval (v.map1 (f.resultType [a.type]) domain (Value.applyFunction1 f)))
  | .pow, [a, b] | .mod, [a, b] | .log, [a, b] => do
    let v ← calls.eval a domain
    let w ← calls.eval b domain
    ofCheck (Check.ofEval (v.map2 w (f.resultType [a.type, b.type]) domain (Value.applyFunction2 f)))
  | f, args => throw (.wrongArity f args.length)

/-- A selector is evaluated over all states. -/
def selected : Option Expr → Stacked StateSet
  | none => return .full m.numStates
  | some p => calls.satisfying p none

def checkFilter (f : Filter) (operand : Expr) : Stacked StateVector := do
  let states ← calls.selected m f.selector
  let selection ← ofCheck (f.select m states)
  let v ← calls.eval operand (some selection.states)
  let reduced ← ofCheck (f.reduce c.settings m selection v)
  ofCheck (f.record c.settings c.definitions.parameters reduced)

def checkQuant (measure : Measure) (query : Query) (operand : Expr) (domain : Option StateSet) :
    Stacked StateVector :=
  match c.solver with
  | none => throw (.unsupported .quantities m.kind)
  | some solver => do
    let rewards ← ofCheck (Checker.buildRewards c m measure)
    let (operand, labels) ← calls.rewrite [] operand
    ofCheck do Checker.askQuant solver ⟨m, measure, query, operand, labels, rewards, domain, (← get).hint⟩

/-- One step of the evaluation of an expression. -/
def evalStep (e : Expr) (domain : Option StateSet) : Stacked StateVector :=
  match e with
  | .ite cond t e => calls.checkIte m cond t e domain
  | .binary op l r => calls.checkBinary m op l r domain
  | .unary op e => calls.checkUnary op e domain
  | .call f args => calls.checkCall c m f args domain
  | .literal v => return .constant v m.numStates
  | .constant name t => ofCheck (Checker.constantVector c m name t)
  | .ident name _ => throw (.unresolvedIdentifier name)
  | .formula _ (some d) _ => calls.eval d domain
  | .formula name none _ => throw (.unexpandedFormula name)
  | .var name index t => ofCheck (Checker.lookupVector m name t domain fun s => m.value? s index.toNat)
  | .observable name t => ofCheck (Checker.observableVector c m name t domain)
  | .label name => calls.checkLabel c m name domain
  | .property name _ => calls.checkProperty c name domain
  | .filter op operand selector invisible explained =>
    calls.checkFilter c m ⟨op, selector, invisible, explained⟩ operand
  | .quant measure query operand => calls.checkQuant c m measure query operand domain
  | .path op _ _ => throw (.strayPath op)

def rewriteAll (found : Found) : List Expr → Stacked (List Expr × Found)
  | [] => return ([], found)
  | e :: rest => do
    let (e, found) ← calls.rewrite found e
    let (rest, found) ← rewriteAll found rest
    return (e :: rest, found)

/-- Rewrite the direct subexpressions, from left to right, in their places. -/
def rewriteChildren (found : Found) (e : Expr) : Stacked (Expr × Found) := do
  let (es, found) ← calls.rewriteAll found e.children
  return (e.withChildren es, found)

/-- One step of the rewrite. The body of a property takes its place and is looked at next. -/
def inlineStep (found : Found) (e : Expr) : Stacked (Expr × Found) :=
  match e with
  | .property name _ =>
    match c.definitions.property? name with
    | none => throw (.unknownProperty name)
    | some body => do
      enter .property name
      calls.inline found body
  | e =>
    if e.type = .bool ∧ e.isProposition then do
      let holds ← calls.satisfying e none
      return found.replace m.numStates holds
    else calls.rewriteChildren found e

end Calls

/-- The evaluator for calls up to a depth. -/
def Checker.calls (c : Checker) (m : Model) : Nat → Calls
  | 0 => ⟨fun _ _ => Stacked.tooDeep, fun _ _ => Stacked.tooDeep⟩
  | depth + 1 => ⟨(c.calls m depth).evalStep c m, (c.calls m depth).inlineStep c m⟩

/-! ## What the evaluator gives -/

namespace Calls

open Stacked

/-- Calls about an expression come back with what is evaluated and extracted without stacks. -/
structure Faithful (calls : Calls) (c : Checker) (m : Model) (entered : Entered) (e : Expr) : Prop where
  eval : ∀ domain, Returns entered (calls.eval e domain) (c.evalWith .whereOpen m entered e domain)
  inline : ∀ found, Deepens entered (calls.inline found e) (c.extractFrom .whereOpen m entered found e)

/-- Calls about everything that the evaluation of an expression goes to are faithful. -/
def Supports (calls : Calls) (c : Checker) (m : Model) (entered : Entered) (e : Expr) : Prop :=
  ∀ s ∈ c.definitions.successors entered e, calls.Faithful c m s.1 s.2

variable {calls : Calls} {c : Checker} {m : Model} {entered : Entered} {e : Expr} {domain : Option StateSet}
  {found : Found}

theorem Supports.child (h : calls.Supports c m entered e) : ∀ a ∈ e.children, calls.Faithful c m entered a :=
  fun _ ha => h _ (Definitions.mem_successors_of_child ha)

theorem Faithful.rewrite (h : calls.Faithful c m entered e) (found : Found) :
    Returns entered (calls.rewrite found e) (c.extractFrom .whereOpen m entered found e) :=
  returns_truncated (h.inline found)

/-! ### One step of an evaluation -/

theorem satisfying_returns (h : calls.Faithful c m entered e) :
    Returns entered (calls.satisfying e domain) (Checker.satisfying .whereOpen c m entered domain e) :=
  (h.eval domain).bind fun _ => returns_ofCheck _

theorem evalOver_returns (h : calls.Faithful c m entered e) (t : ValueType) (states : StateSet) :
    Returns entered (calls.evalOver m e t states) (Checker.evalOver c m entered e t states) :=
  Returns.ite (returns_pure _) (h.eval _)

theorem satisfyingOver_returns (h : calls.Faithful c m entered e) (states : StateSet) :
    Returns entered (calls.satisfyingOver m e states) (Checker.satisfyingOver c m entered e states) :=
  (evalOver_returns h _ _).bind fun _ => returns_ofCheck _

theorem checkIte_returns {cond t e : Expr} (hcond : calls.Faithful c m entered cond)
    (ht : calls.Faithful c m entered t) (he : calls.Faithful c m entered e) :
    Returns entered (calls.checkIte m cond t e domain)
      (c.evalWith .whereOpen m entered (.ite cond t e) domain) := by
  rw [Checker.evalWith_ite]
  refine (satisfying_returns hcond).bind fun holds => ?_
  refine (evalOver_returns ht _ _).bind fun tv => (evalOver_returns he _ _).bind fun ev => ?_
  exact returns_ofCheck _

theorem checkBinary_returns {op : BinaryOp} {l r : Expr} (hl : calls.Faithful c m entered l)
    (hr : calls.Faithful c m entered r) :
    Returns entered (calls.checkBinary m op l r domain)
      (c.evalWith .whereOpen m entered (.binary op l r) domain) := by
  unfold checkBinary
  by_cases hop : op.isLazy = true
  · rw [if_pos hop, Checker.evalWith_lazy c m entered domain hop]
    refine (satisfying_returns hl).bind fun left => (satisfyingOver_returns hr _).bind fun right => ?_
    exact returns_pure _
  · rw [if_neg hop, Checker.evalWith_strict .whereOpen c m entered domain fun h => hop h.2]
    exact (hl.eval _).bind fun lv => (hr.eval _).bind fun rv => returns_ofCheck _

theorem checkUnary_returns {op : UnaryOp} (he : calls.Faithful c m entered e) :
    Returns entered (calls.checkUnary op e domain)
      (c.evalWith .whereOpen m entered (.unary op e) domain) := by
  unfold checkUnary
  by_cases hop : op = .parenth
  · simp only [if_pos hop]
    rw [hop, Checker.evalWith_parenth, ← bind_pure (c.evalWith .whereOpen m entered e domain)]
    exact (he.eval _).bind fun v => returns_pure _
  · simp only [if_neg hop]
    rw [Checker.evalWith_unary .whereOpen c m entered domain hop]
    exact (he.eval _).bind fun v => returns_ofCheck _

theorem checkLabel_returns {name : String}
    (hbody : ∀ body, c.definitions.label? name = some body → entered.labels.contains name = false →
      calls.Faithful c m (entered.label name) body) :
    Returns entered (calls.checkLabel c m name domain)
      (c.evalWith .whereOpen m entered (.label name) domain) := by
  unfold checkLabel
  cases hm : m.labelStates? name with
  | some states =>
    rw [Checker.evalWith_attached .whereOpen c m entered _ hm]
    exact returns_pure _
  | none =>
    cases hd : c.definitions.label? name with
    | none =>
      rw [Checker.evalWith_builtin .whereOpen c m entered _ hm hd]
      exact returns_ofCheck _
    | some body =>
      cases hn : entered.labels.contains name with
      | true =>
        rw [Checker.evalWith_cyclicLabel .whereOpen c m entered _ hm hd hn]
        exact returns_refused .label hn
      | false =>
        rw [Checker.evalWith_definedLabel .whereOpen c m entered _ hm hd hn]
        exact returns_entered .label hn ((hbody body hd hn).eval domain)

theorem checkProperty_returns {name : String} {t : ValueType}
    (hbody : ∀ body, c.definitions.property? name = some body → entered.properties.contains name = false →
      calls.Faithful c m (entered.property name) body) :
    Returns entered (calls.checkProperty c name domain)
      (c.evalWith .whereOpen m entered (.property name t) domain) := by
  unfold checkProperty
  cases hd : c.definitions.property? name with
  | none =>
    rw [Checker.evalWith_unknownProperty .whereOpen c m entered _ t hd]
    exact returns_throw _
  | some body =>
    cases hn : entered.properties.contains name with
    | true =>
      rw [Checker.evalWith_cyclicProperty .whereOpen c m entered _ t hd hn]
      exact returns_refused .property hn
    | false =>
      rw [Checker.evalWith_definedProperty .whereOpen c m entered _ t hd hn]
      refine returns_entered .property hn ?_
      exact (returns_ofCheck _).bind fun _ => (hbody body hd hn).eval domain

theorem combine_returns {f : Function} {t : ValueType} {args : List Expr}
    (hargs : ∀ a ∈ args, calls.Faithful c m entered a) (acc : StateVector) :
    Returns entered (calls.combine f t domain acc args)
      (c.combineArgs .whereOpen m entered f t acc args domain) := by
  induction args generalizing acc with
  | nil =>
    rw [Checker.combineArgs_nil]
    exact returns_pure _
  | cons a rest ih =>
    rw [Checker.combineArgs_cons]
    refine ((hargs a List.mem_cons_self).eval _).bind fun v => (returns_ofCheck _).bind fun acc' => ?_
    exact ih (fun b hb => hargs b (List.mem_cons_of_mem a hb)) acc'

theorem checkCall_wrongArity {f : Function} {args : List Expr} (hf : f ≠ .multi)
    (h : f.accepts args.length = false) : calls.checkCall c m f args domain = throw (.wrongArity f args.length) := by
  -- No function tells three arguments from more.
  rcases args with _ | ⟨a, _ | ⟨b, _ | ⟨d, rest⟩⟩⟩ <;> cases f <;>
    first
    | exact absurd rfl hf
    | (simp [Function.accepts] at h; done)
    | rfl

theorem checkCall_returns {f : Function} {args : List Expr} (hargs : ∀ a ∈ args, calls.Faithful c m entered a) :
    Returns entered (calls.checkCall c m f args domain)
      (c.evalWith .whereOpen m entered (.call f args) domain) := by
  by_cases hmulti : f = .multi
  · rw [hmulti, Checker.evalWith_multi]
    exact returns_ofCheck _
  · cases haccepts : f.accepts args.length with
    | false =>
      rw [Checker.evalWith_wrongArity .whereOpen c m entered domain hmulti haccepts,
        checkCall_wrongArity hmulti haccepts]
      exact returns_throw _
    | true =>
      rcases Function.accepts_cases haccepts with ⟨hf, a, b, rest, rfl⟩ | ⟨hf, a, rfl⟩ | ⟨hf, a, b, rfl⟩
      · rw [Checker.evalWith_extremum .whereOpen c m entered domain hf]
        have hrest : ∀ first, Returns entered
            (calls.combine f (f.resultType (Expr.types (a :: b :: rest))) domain first (b :: rest))
            (c.combineArgs .whereOpen m entered f (f.resultType (Expr.types (a :: b :: rest))) first (b :: rest)
              domain) := combine_returns fun d hd => hargs d (List.mem_cons_of_mem a hd)
        rcases hf with rfl | rfl
        · exact ((hargs a List.mem_cons_self).eval _).bind hrest
        · exact ((hargs a List.mem_cons_self).eval _).bind hrest
      · rw [Checker.evalWith_rounding .whereOpen c m entered domain hf]
        rcases hf with rfl | rfl | rfl <;>
          exact ((hargs a List.mem_cons_self).eval _).bind fun v => returns_ofCheck _
      · rw [Checker.evalWith_dyadic .whereOpen c m entered domain hf]
        have ha := (hargs a List.mem_cons_self).eval domain
        have hb := (hargs b (by simp)).eval domain
        rcases hf with rfl | rfl | rfl <;>
          exact ha.bind fun v => hb.bind fun w => returns_ofCheck _

theorem selected_returns {p : Option Expr} (hp : ∀ a ∈ p, calls.Faithful c m entered a) :
    Returns entered (calls.selected m p) (Checker.selected .whereOpen c m entered p) := by
  cases p with
  | none => exact returns_pure _
  | some p => exact satisfying_returns (hp p rfl)

theorem checkFilter_returns {op : FilterOp} {p : Option Expr} {invisible explained : Bool}
    (he : calls.Faithful c m entered e) (hp : ∀ a ∈ p, calls.Faithful c m entered a) :
    Returns entered (calls.checkFilter c m ⟨op, p, invisible, explained⟩ e)
      (c.evalWith .whereOpen m entered (.filter op e p invisible explained) domain) := by
  rw [Checker.evalWith_filter]
  unfold checkFilter Checker.applyFilter
  refine (selected_returns hp).bind fun states => (returns_ofCheck _).bind fun selection => ?_
  exact (he.eval _).bind fun v => (returns_ofCheck _).bind fun reduced => returns_ofCheck _

theorem checkQuant_returns {measure : Measure} {query : Query} (he : calls.Faithful c m entered e) :
    Returns entered (calls.checkQuant c m measure query e domain)
      (c.evalWith .whereOpen m entered (.quant measure query e) domain) := by
  unfold checkQuant
  cases hc : c.solver with
  | none =>
    rw [Checker.evalWith_quant .whereOpen c m entered _ hc]
    exact returns_throw _
  | some solver =>
    rw [Checker.evalWith_quant_asked .whereOpen c m entered _ hc]
    exact (returns_ofCheck _).bind fun rewards => (he.rewrite []).bind fun _ => returns_ofCheck _

/-- A step of an evaluation comes back if the calls that it makes do. -/
theorem evalStep_returns (h : calls.Supports c m entered e) (domain : Option StateSet) :
    Returns entered (calls.evalStep c m e domain) (c.evalWith .whereOpen m entered e domain) := by
  have hchild := h.child
  cases e with
  | ite cond t e =>
    exact checkIte_returns (hchild cond (by simp [Expr.children])) (hchild t (by simp [Expr.children]))
      (hchild e (by simp [Expr.children]))
  | binary op l r => exact checkBinary_returns (hchild l (by simp [Expr.children])) (hchild r (by simp [Expr.children]))
  | unary op e => exact checkUnary_returns (hchild e List.mem_cons_self)
  | call f args => exact checkCall_returns hchild
  | literal v =>
    rw [Checker.evalWith_literal]
    exact returns_pure _
  | constant name t =>
    rw [Checker.evalWith_constant]
    exact returns_ofCheck _
  | ident name t =>
    rw [Checker.evalWith_ident]
    exact returns_throw _
  | formula name d t =>
    cases d with
    | none =>
      rw [Checker.evalWith_unexpanded]
      exact returns_throw _
    | some d =>
      rw [Checker.evalWith_expanded]
      exact (hchild d List.mem_cons_self).eval domain
  | var name index t =>
    rw [Checker.evalWith_var]
    exact returns_ofCheck _
  | observable name t =>
    rw [Checker.evalWith_observable]
    exact returns_ofCheck _
  | label name => exact checkLabel_returns fun body hd hn => h _ (Definitions.mem_successors_of_label hd hn)
  | property name t => exact checkProperty_returns fun body hd hn => h _ (Definitions.mem_successors_of_property hd hn)
  | filter op e p invisible explained =>
    refine checkFilter_returns (hchild e List.mem_cons_self) fun a ha => hchild a ?_
    exact List.mem_cons_of_mem e (Option.mem_toList.mpr ha)
  | quant measure query e => exact checkQuant_returns (hchild e List.mem_cons_self)
  | path op operands bound =>
    rw [Checker.evalWith_path]
    exact returns_throw _

/-! ### One step of the rewrite -/

theorem rewriteAll_returns {es : List Expr} (hes : ∀ e ∈ es, calls.Faithful c m entered e) (found : Found) :
    Returns entered (calls.rewriteAll found es) (c.extractFromAll .whereOpen m entered found es) := by
  induction es generalizing found with
  | nil =>
    rw [Checker.extractFromAll_nil]
    exact returns_pure _
  | cons e rest ih =>
    rw [Checker.extractFromAll_cons]
    refine ((hes e List.mem_cons_self).rewrite found).bind fun ⟨e', found₁⟩ => ?_
    exact (ih (fun a ha => hes a (List.mem_cons_of_mem e ha)) found₁).bind fun _ => returns_pure _

theorem rewriteChildren_returns (he : ∀ a ∈ e.children, calls.Faithful c m entered a) (found : Found) :
    Returns entered (calls.rewriteChildren found e) (c.extractFromChildren .whereOpen m entered found e) := by
  rw [Checker.extractFromChildren_eq]
  exact (rewriteAll_returns he found).bind fun _ => returns_pure _

/-- A step of the rewrite comes back if the calls that it makes do; one of them is to evaluate the expression. -/
theorem inlineStep_deepens (h : calls.Supports c m entered e)
    (he : ∀ domain, Returns entered (calls.eval e domain) (c.evalWith .whereOpen m entered e domain))
    (found : Found) :
    Deepens entered (calls.inlineStep c m found e) (c.extractFrom .whereOpen m entered found e) := by
  by_cases hreference : ∃ name t, e = .property name t
  · obtain ⟨name, t, rfl⟩ := hreference
    show Deepens entered (match c.definitions.property? name with
      | none => throw (.unknownProperty name)
      | some body => do
        enter .property name
        calls.inline found body) _
    cases hd : c.definitions.property? name with
    | none =>
      rw [Checker.extractFrom_unknownProperty .whereOpen c m entered found t hd]
      exact (returns_throw _).deepens
    | some body =>
      cases hn : entered.properties.contains name with
      | true =>
        rw [Checker.extractFrom_cyclicProperty .whereOpen c m entered found t hd hn]
        exact (returns_refused .property hn).deepens
      | false =>
        rw [Checker.extractFrom_definedProperty .whereOpen c m entered found t hd hn]
        exact deepens_property hn ((h _ (Definitions.mem_successors_of_property hd hn)).inline found)
  · have hother : ∀ name t, e ≠ .property name t := fun name t h => hreference ⟨name, t, h⟩
    have hstep : calls.inlineStep c m found e =
        if e.type = .bool ∧ e.isProposition then do
          let holds ← calls.satisfying e none
          return found.replace m.numStates holds
        else calls.rewriteChildren found e := by
      cases e with
      | property name t => exact absurd rfl (hother name t)
      | _ => rfl
    rw [hstep]
    by_cases hprop : e.type = .bool ∧ e.isProposition = true
    · rw [if_pos hprop, Checker.extractFrom_proposition .whereOpen c m entered found hprop]
      have hholds : Returns entered (calls.satisfying e none) (Checker.satisfying .whereOpen c m entered none e) :=
        (he none).bind fun v => returns_ofCheck _
      exact (hholds.bind fun holds => returns_pure _).deepens
    · rw [if_neg hprop, Checker.extractFrom_children .whereOpen c m entered found hprop hother]
      exact (rewriteChildren_returns h.child found).deepens

end Calls

namespace Checker

open Stacked

variable {c : Checker} {m : Model} {P Q : Calls → Prop}

/-- From some depth on, the calls of the evaluator have the property. -/
def Eventually (c : Checker) (m : Model) (P : Calls → Prop) : Prop := ∃ depth, ∀ n ≥ depth, P (c.calls m n)

theorem Eventually.and (hP : c.Eventually m P) (hQ : c.Eventually m Q) :
    c.Eventually m fun calls => P calls ∧ Q calls := by
  obtain ⟨d₁, h₁⟩ := hP
  obtain ⟨d₂, h₂⟩ := hQ
  refine ⟨max d₁ d₂, fun n hn => ⟨h₁ n ?_, h₂ n ?_⟩⟩
  · omega
  · omega

theorem Eventually.mono (hP : c.Eventually m P) (h : ∀ calls, P calls → Q calls) : c.Eventually m Q := by
  obtain ⟨depth, hdepth⟩ := hP
  exact ⟨depth, fun n hn => h _ (hdepth n hn)⟩

theorem eventually_forall_mem {α : Type} {P : α → Calls → Prop} {xs : List α} (h : ∀ x ∈ xs, c.Eventually m (P x)) :
    c.Eventually m fun calls => ∀ x ∈ xs, P x calls := by
  induction xs with
  | nil => exact ⟨0, fun _ _ x hx => absurd hx List.not_mem_nil⟩
  | cons x rest ih =>
    have hrest := ih fun a ha => h a (List.mem_cons_of_mem x ha)
    exact ((h x List.mem_cons_self).and hrest).mono fun calls hcalls => List.forall_mem_cons.mpr hcalls

/-- What a step makes of a property of the calls that it may make holds one level deeper. -/
theorem Eventually.step (hP : c.Eventually m P)
    (h : ∀ calls, P calls → Q ⟨calls.evalStep c m, calls.inlineStep c m⟩) : c.Eventually m Q := by
  obtain ⟨depth, hdepth⟩ := hP
  refine ⟨depth + 1, fun n hn => ?_⟩
  cases n with
  | zero => omega
  | succ n => exact h _ (hdepth n (by omega))

/-- From some depth on, the calls about an expression come back with what is evaluated and extracted. -/
theorem calls_faithful (c : Checker) (m : Model) (entered : Entered) (e : Expr) :
    c.Eventually m (·.Faithful c m entered e) := by
  refine c.definitions.expansion_induction (P := fun entered e => c.Eventually m (·.Faithful c m entered e))
    (fun entered e ih => ?_) entered e
  have hsupports : c.Eventually m (·.Supports c m entered e) := eventually_forall_mem ih
  have heval : c.Eventually m fun calls =>
      ∀ domain, Returns entered (calls.eval e domain) (c.evalWith .whereOpen m entered e domain) :=
    hsupports.step fun calls h => Calls.evalStep_returns h
  -- The rewrite may evaluate the expression itself, so it is one level deeper.
  have hinline : c.Eventually m fun calls =>
      ∀ found, Deepens entered (calls.inline found e) (c.extractFrom .whereOpen m entered found e) :=
    (hsupports.and heval).step fun calls h => Calls.inlineStep_deepens h.1 h.2
  exact (heval.and hinline).mono fun calls h => ⟨h.1, h.2⟩

/-- From some depth on, the calls about a label come back, too. -/
theorem checkLabel_eventually (c : Checker) (m : Model) (entered : Entered) (name : String) :
    c.Eventually m fun calls => ∀ domain, Returns entered (calls.checkLabel c m name domain)
      (c.evalWith .whereOpen m entered (.label name) domain) := by
  have hsupports : c.Eventually m (·.Supports c m entered (.label name)) :=
    eventually_forall_mem fun s _ => calls_faithful c m s.1 s.2
  exact hsupports.mono fun calls h => Calls.evalStep_returns h

end Checker

end Statewise
