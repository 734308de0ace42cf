import Statewise.Proofs.Bounds
import Statewise.Proofs.HintUse
import Statewise.Proofs.Within
import Mathlib.Logic.Relation

/-!
# Properties of whole evaluations

Evaluating an expression and replacing its state formulas are put together from few kinds of steps: computations on
values that leave a message, questions to collaborators, failures, and the selections of filters. A property of
computations that these steps have, and that a sequence has if its parts do, is a property of all evaluations
(`Composes`). Only those filters matter that an evaluation may come to, through subexpressions and definitions. A
property may also be one of computations that do not stop the program; then the reductions of these filters and the
answers of collaborators, which alone may stop it, have to have it by themselves (`ComposesOrderly`).
-/

namespace Statewise

open Check StateVector

/-! ## Where an evaluation may come to -/

namespace Definitions

variable {d : Definitions} {s t : Entered × Expr}

/-- An evaluation of the first expression may come to the second one. -/
def ComesTo (d : Definitions) : Entered × Expr → Entered × Expr → Prop :=
  Relation.ReflTransGen fun s t => t ∈ d.successors s.1 s.2

theorem ComesTo.refl (s : Entered × Expr) : d.ComesTo s s := Relation.ReflTransGen.refl

theorem ComesTo.head {u : Entered × Expr} (hs : s ∈ d.successors u.1 u.2) (h : d.ComesTo s t) : d.ComesTo u t :=
  Relation.ReflTransGen.head hs h

/-- To itself, or to something that one of its successors may come to. -/
theorem comesTo_iff : d.ComesTo s t ↔ s = t ∨ ∃ u ∈ d.successors s.1 s.2, d.ComesTo u t := by
  unfold ComesTo
  rw [Relation.ReflTransGen.cases_head_iff]

end Definitions

/-! ## Properties that go from the parts to the whole -/

namespace Checker

variable {c : Checker} {m : Model} {entered : Entered} {domain : Option StateSet}

/-- The steps of an evaluation have the property, and so has every sequence of computations that have it. The second
of two computations may rely on the first one having yielded what it gets. -/
structure Composes (c : Checker) (m : Model) (Q : ∀ α : Type, Check α → Prop) : Prop where
  throw : ∀ {α : Type} (e : CheckError), Q α (MonadExcept.throw e)
  tells : ∀ {α : Type} {x : Check α}, Tells x → Q α x
  bind : ∀ {α β : Type} {x : Check α} {f : α → Check β}, Q α x → (∀ a, (∃ r r', x r = (.ok a, r')) → Q β (f a)) →
    Q β (x >>= f)
  multi : ∀ args domain, Q _ (Check.ask (.multi args domain))
  rewards : ∀ index allowNegative expected, Q _ (Check.ask (.rewards index allowNegative expected))

/-- The steps of an evaluation that do not stop the program have the property, and so have the answers of collaborators
and every sequence of computations that have it. -/
structure ComposesOrderly (c : Checker) (m : Model) (Q : ∀ α : Type, Check α → Prop) : Prop where
  throw : ∀ {α : Type} (e : CheckError), ¬e.Aborts → Q α (MonadExcept.throw e)
  tells : ∀ {α : Type} {x : Check α}, Tells x → NeverAborts x → Q α x
  bind : ∀ {α β : Type} {x : Check α} {f : α → Check β}, Q α x → (∀ a, (∃ r r', x r = (.ok a, r')) → Q β (f a)) →
    Q β (x >>= f)
  multi : ∀ args domain, Q _ (Check.ask (.multi args domain))
  rewards : ∀ index allowNegative expected, Q _ (Check.ask (.rewards index allowNegative expected))
  multiAnswer : ∀ answer, c.solver.bind (·.multi) = some answer → ∀ before args domain,
    Q _ (Check.ofExcept (answer before m args domain))
  rewardsAnswer : c.solver ≠ none → ∀ source, c.rewards = some source → ∀ index allowNegative,
    Q _ (Check.ofExcept (source m index allowNegative true))
  quantAnswer : ∀ solver, c.solver = some solver → ∀ before request, Q _ (Check.ofExcept (solver.quant before request))

/-- The selections of all filters that the evaluation may come to have the property. -/
def SelectsBy (Q : ∀ α : Type, Check α → Prop) (c : Checker) (m : Model) (entered : Entered) (e : Expr) : Prop :=
  ∀ entered' op operand p invisible explained,
    c.definitions.ComesTo (entered, e) (entered', .filter op operand p invisible explained) →
    ∀ states, (∃ r r', selected .whereOpen c m entered' p r = (.ok states, r')) →
      Q _ (Filter.select ⟨op, p, invisible, explained⟩ m states)

/-- And so have the reductions by these filters of the vectors that their operands may have over what they select. -/
def ReducesBy (Q : ∀ α : Type, Check α → Prop) (c : Checker) (m : Model) (entered : Entered) (e : Expr) : Prop :=
  ∀ entered' op operand p invisible explained,
    c.definitions.ComesTo (entered, e) (entered', .filter op operand p invisible explained) →
    ∀ states, (∃ r r', selected .whereOpen c m entered' p r = (.ok states, r')) →
    ∀ selection, (∃ r r', Filter.select ⟨op, p, invisible, explained⟩ m states r = (.ok selection, r')) →
    ∀ v, (∃ r r', evalWith .whereOpen c m entered' operand (some selection.states) r = (.ok v, r')) →
      Q _ (Filter.reduce ⟨op, p, invisible, explained⟩ c.settings m selection v)

/-- And so have the requests for all quantities that it may come to, with what an extraction from the operand yields. -/
def RequestsBy (Q : ∀ α : Type, Check α → Prop) (c : Checker) (m : Model) (entered : Entered) (e : Expr) : Prop :=
  ∀ entered' measure query operand, c.definitions.ComesTo (entered, e) (entered', .quant measure query operand) →
    ∀ e' labels, (∃ r r', extractFrom .whereOpen c m entered' [] operand r = (.ok (e', labels), r')) →
    ∀ rewards domain hint, Q _ (Check.ask (.quant ⟨m, measure, query, e', labels, rewards, domain, hint⟩))

variable {Q : ∀ α : Type, Check α → Prop}

theorem SelectsBy.successor {e : Expr} (h : SelectsBy Q c m entered e) {s : Entered × Expr}
    (hs : s ∈ c.definitions.successors entered e) : SelectsBy Q c m s.1 s.2 :=
  fun entered' op operand p invisible explained hto => h entered' op operand p invisible explained (.head hs hto)

theorem ReducesBy.successor {e : Expr} (h : ReducesBy Q c m entered e) {s : Entered × Expr}
    (hs : s ∈ c.definitions.successors entered e) : ReducesBy Q c m s.1 s.2 :=
  fun entered' op operand p invisible explained hto => h entered' op operand p invisible explained (.head hs hto)

theorem RequestsBy.successor {e : Expr} (h : RequestsBy Q c m entered e) {s : Entered × Expr}
    (hs : s ∈ c.definitions.successors entered e) : RequestsBy Q c m s.1 s.2 :=
  fun entered' measure query operand hto => h entered' measure query operand (.head hs hto)

/-- Whatever the domain, the evaluation of the expression has the property. -/
def EvalHas (Q : ∀ α : Type, Check α → Prop) (c : Checker) (m : Model) (entered : Entered) (e : Expr) : Prop :=
  ∀ domain, Q _ (evalWith .whereOpen c m entered e domain)

/-- And so has its rewriting, whatever labels there are already. -/
def ExtractHas (Q : ∀ α : Type, Check α → Prop) (c : Checker) (m : Model) (entered : Entered) (e : Expr) : Prop :=
  ∀ found, Q _ (extractFrom .whereOpen c m entered found e)

namespace ComposesOrderly

/-! ### Simple steps -/

section

variable {α β : Type}

theorem pure (hQ : c.ComposesOrderly m Q) (a : α) : Q _ (Pure.pure a : Check α) :=
  hQ.tells (Tells.pure a) (NeverAborts.pure a)

theorem ofEval (hQ : c.ComposesOrderly m Q) {x : Except EvalError α} (hx : Orderly x) : Q _ (Check.ofEval x) :=
  hQ.tells (Tells.ofEval x) (NeverAborts.ofEval hx)

theorem ofExcept (hQ : c.ComposesOrderly m Q) {x : Except CheckError α} (hx : Yields.FailsBy (fun e => ¬e.Aborts) x) :
    Q _ (Check.ofExcept x) := by
  cases x with
  | ok a => exact hQ.pure a
  | error e => exact hQ.throw e (hx e rfl)

theorem next (hQ : c.ComposesOrderly m Q) {x : Check α} {f : α → Check β} (hx : Q _ x) (hf : ∀ a, Q _ (f a)) :
    Q _ (x >>= f) := hQ.bind hx fun a _ => hf a

end

theorem ite {α : Type} {x y : Check α} {p : Prop} [Decidable p] (hx : Q _ x) (hy : Q _ y) :
    Q _ (if p then x else y) := by
  by_cases h : p
  · rw [if_pos h]
    exact hx
  · rw [if_neg h]
    exact hy

/-! ### Operators -/

theorem satisfying (hQ : c.ComposesOrderly m Q) {e : Expr} (he : EvalHas Q c m entered e) :
    Q _ (c.satisfying .whereOpen m entered domain e) := hQ.next (he domain) fun v => hQ.ofEval (orderly_satisfaction v)

theorem evalOver (hQ : c.ComposesOrderly m Q) {e : Expr} (he : EvalHas Q c m entered e) (t : ValueType)
    (states : StateSet) : Q _ (c.evalOver m entered e t states) := ite (hQ.pure _) (he _)

theorem conditional (hQ : c.ComposesOrderly m Q) {cond t e : Expr} (hcond : EvalHas Q c m entered cond)
    (ht : EvalHas Q c m entered t) (he : EvalHas Q c m entered e) : EvalHas Q c m entered (.ite cond t e) := by
  intro domain
  rw [evalWith_ite]
  refine hQ.next (hQ.satisfying hcond) fun holds => hQ.next (hQ.evalOver ht _ _) fun tv => ?_
  refine hQ.next (hQ.evalOver he _ _) fun ev => hQ.ofEval ?_
  exact orderly_map3 _ _ _ _ _ fun x y z => Value.orderly_applyIte y z x

theorem binary (hQ : c.ComposesOrderly m Q) {op : BinaryOp} {l r : Expr} (hl : EvalHas Q c m entered l)
    (hr : EvalHas Q c m entered r) : EvalHas Q c m entered (.binary op l r) := by
  intro domain
  by_cases hop : op.isLazy = true
  · rw [evalWith_lazy c m entered domain hop]
    refine hQ.next (hQ.satisfying hl) fun left => hQ.next ?_ fun right => hQ.pure _
    exact hQ.next (hQ.evalOver hr _ _) fun rv => hQ.ofEval (orderly_satisfaction rv)
  · rw [evalWith_strict .whereOpen c m entered domain fun h => hop h.2]
    refine hQ.next (hl _) fun lv => hQ.next (hr _) fun rv => hQ.ofEval ?_
    exact orderly_map2 _ _ _ _ fun x y => Value.orderly_applyBinary x y op

theorem unary (hQ : c.ComposesOrderly m Q) {op : UnaryOp} {e : Expr} (he : EvalHas Q c m entered e) :
    EvalHas Q c m entered (.unary op e) := by
  intro domain
  by_cases hop : op = .parenth
  · rw [hop, evalWith_parenth]
    exact he domain
  · rw [evalWith_unary .whereOpen c m entered domain hop]
    exact hQ.next (he _) fun v => hQ.ofEval (orderly_map1 _ _ _ fun x => Value.orderly_applyUnary x op)

theorem combineArgs (hQ : c.ComposesOrderly m Q) {f : Function} {t : ValueType} {args : List Expr}
    (hargs : ∀ a ∈ args, EvalHas Q c m entered a) (acc : StateVector) :
    Q _ (c.combineArgs .whereOpen m entered f t acc args domain) := by
  induction args generalizing acc with
  | nil =>
    rw [combineArgs_nil]
    exact hQ.pure _
  | cons a rest ih =>
    rw [combineArgs_cons]
    refine hQ.next (hargs a List.mem_cons_self _) fun v => hQ.next (hQ.ofEval ?_) fun acc' => ?_
    · exact orderly_map2 _ _ _ _ fun x y => Value.orderly_applyFunction2 x y f
    · exact ih (fun b hb => hargs b (List.mem_cons_of_mem a hb)) acc'

theorem askMulti (hQ : c.ComposesOrderly m Q) (args : List Expr) : Q _ (c.askMulti m args domain) := by
  unfold Checker.askMulti
  split
  · exact hQ.throw _ id
  · next answer hanswer => exact hQ.next (hQ.multi args domain) fun before => hQ.multiAnswer answer hanswer _ _ _

theorem call (hQ : c.ComposesOrderly m Q) {f : Function} {args : List Expr}
    (hargs : ∀ a ∈ args, EvalHas Q c m entered a) : EvalHas Q c m entered (.call f args) := by
  intro domain
  by_cases hmulti : f = .multi
  · rw [hmulti, evalWith_multi]
    exact hQ.askMulti args
  · cases haccepts : f.accepts args.length with
    | false =>
      rw [evalWith_wrongArity .whereOpen c m entered domain hmulti haccepts]
      exact hQ.throw _ id
    | true =>
      rcases Function.accepts_cases haccepts with ⟨hf, a, b, rest, rfl⟩ | ⟨hf, a, rfl⟩ | ⟨hf, a, b, rfl⟩
      · rw [evalWith_extremum .whereOpen c m entered domain hf]
        refine hQ.next (hargs a List.mem_cons_self _) fun first => ?_
        exact hQ.combineArgs (fun d hd => hargs d (List.mem_cons_of_mem a hd)) first
      · rw [evalWith_rounding .whereOpen c m entered domain hf]
        refine hQ.next (hargs a List.mem_cons_self _) fun v => hQ.ofEval ?_
        exact orderly_map1 _ _ _ fun x => Value.orderly_applyFunction1 x f
      · rw [evalWith_dyadic .whereOpen c m entered domain hf]
        refine hQ.next (hargs a List.mem_cons_self _) fun v => hQ.next (hargs b (by simp) _) fun w => hQ.ofEval ?_
        exact orderly_map2 _ _ _ _ fun x y => Value.orderly_applyFunction2 x y f

/-! ### Filters and quantities -/

theorem selected (hQ : c.ComposesOrderly m Q) {p : Option Expr} (hp : ∀ a ∈ p, EvalHas Q c m entered a) :
    Q _ (c.selected .whereOpen m entered p) := by
  cases p with
  | none => exact hQ.pure _
  | some p => exact hQ.satisfying (hp p rfl)

theorem filter (hQ : c.ComposesOrderly m Q) {op : FilterOp} {e : Expr} {p : Option Expr} {invisible explained : Bool}
    (he : EvalHas Q c m entered e) (hp : ∀ a ∈ p, EvalHas Q c m entered a)
    (hselects : SelectsBy Q c m entered (.filter op e p invisible explained))
    (hreduces : ReducesBy Q c m entered (.filter op e p invisible explained)) :
    EvalHas Q c m entered (.filter op e p invisible explained) := by
  intro domain
  rw [evalWith_filter]
  refine hQ.bind (hQ.selected hp) fun states hstates => ?_
  refine hQ.bind (hselects _ _ _ _ _ _ (.refl _) states hstates) fun selection hselection => ?_
  refine hQ.bind (he _) fun v hv => ?_
  refine hQ.next (hreduces _ _ _ _ _ _ (.refl _) states hstates selection hselection v hv) fun reduced => ?_
  exact hQ.tells (Filter.record_tells _ _ _ _) ((NeverAborts.modify _).next fun _ => NeverAborts.pure _)

theorem buildRewards (hQ : c.ComposesOrderly m Q) (hc : c.solver ≠ none) (measure : Measure) :
    Q _ (c.buildRewards m measure) := by
  unfold Checker.buildRewards
  cases measure with
  | probability => exact hQ.pure _
  | steadyState => exact hQ.pure _
  | reward index =>
    cases hsource : c.rewards with
    | none => exact hQ.throw _ id
    | some source =>
      have hdiscard : Q _ (discard (Check.ask (.rewards index (m.kind == .csg) true))) :=
        hQ.next (hQ.rewards _ _ _) fun _ => hQ.pure _
      refine hQ.next hdiscard fun _ => hQ.next (hQ.rewardsAnswer hc source hsource _ _) fun rewards => ?_
      exact ite (hQ.throw _ id) (hQ.pure _)

/-- The request has what the extraction has yielded. -/
theorem quantity (hQ : c.ComposesOrderly m Q) {measure : Measure} {query : Query} {e : Expr}
    (he : ExtractHas Q c m entered e) (hrequests : RequestsBy Q c m entered (.quant measure query e)) :
    EvalHas Q c m entered (.quant measure query e) := by
  intro domain
  cases hsolver : c.solver with
  | none =>
    rw [evalWith_quant .whereOpen c m entered _ hsolver]
    exact hQ.throw _ id
  | some solver =>
    rw [evalWith_quant_asked .whereOpen c m entered _ hsolver]
    refine hQ.next (hQ.buildRewards (hsolver ▸ nofun) measure) fun rewards => ?_
    refine hQ.bind (he []) fun (e', labels) hextract => ?_
    have hget : Tells (get : Check Run) := ⟨fun _ => rfl, fun _ => rfl, fun _ _ h => by cases h⟩
    refine hQ.next (hQ.tells hget fun _ _ h => by cases h) fun run => ?_
    unfold askQuant
    refine hQ.next (hrequests _ _ _ _ (.refl _) e' labels hextract rewards domain run.hint) fun before => ?_
    exact hQ.next (hQ.quantAnswer solver hsolver _ _) fun values => ite (hQ.throw _ id) (hQ.pure _)

/-! ### References -/

theorem label (hQ : c.ComposesOrderly m Q) {name : String}
    (hbody : ∀ body, c.definitions.label? name = some body → entered.labels.contains name = false →
      EvalHas Q c m (entered.label name) body) : EvalHas Q c m entered (.label name) := by
  intro domain
  cases hm : m.labelStates? name with
  | some states =>
    rw [evalWith_attached .whereOpen c m entered _ hm]
    exact hQ.pure _
  | none =>
    cases hd : c.definitions.label? name with
    | none =>
      rw [evalWith_builtin .whereOpen c m entered _ hm hd]
      unfold builtinLabel
      exact ite (hQ.pure _) (ite (hQ.pure _) (hQ.throw _ id))
    | some body =>
      cases hn : entered.labels.contains name with
      | true =>
        rw [evalWith_cyclicLabel .whereOpen c m entered _ hm hd hn]
        exact hQ.throw _ id
      | false =>
        rw [evalWith_definedLabel .whereOpen c m entered _ hm hd hn]
        exact hbody body hd hn domain

theorem property (hQ : c.ComposesOrderly m Q) {name : String} {t : ValueType}
    (hbody : ∀ body, c.definitions.property? name = some body → entered.properties.contains name = false →
      EvalHas Q c m (entered.property name) body ∧ ExtractHas Q c m (entered.property name) body) :
    EvalHas Q c m entered (.property name t) ∧ ExtractHas Q c m entered (.property name t) := by
  cases hd : c.definitions.property? name with
  | none =>
    constructor
    · intro domain
      rw [evalWith_unknownProperty .whereOpen c m entered _ t hd]
      exact hQ.throw _ id
    · intro found
      rw [extractFrom_unknownProperty .whereOpen c m entered found t hd]
      exact hQ.throw _ id
  | some body =>
    cases hn : entered.properties.contains name with
    | true =>
      constructor
      · intro domain
        rw [evalWith_cyclicProperty .whereOpen c m entered _ t hd hn]
        exact hQ.throw _ id
      · intro found
        rw [extractFrom_cyclicProperty .whereOpen c m entered found t hd hn]
        exact hQ.throw _ id
    | false =>
      constructor
      · intro domain
        rw [evalWith_definedProperty .whereOpen c m entered _ t hd hn]
        exact hQ.next (hQ.tells (Tells.message _) (NeverAborts.message _)) fun _ => (hbody body hd hn).1 domain
      · intro found
        rw [extractFrom_definedProperty .whereOpen c m entered found t hd hn]
        exact (hbody body hd hn).2 found

/-! ### Values of states -/

theorem lookupVector (hQ : c.ComposesOrderly m Q) (name : String) (t : ValueType) (value? : Nat → Option Value) :
    Q _ (Checker.lookupVector m name t domain value?) := by
  have hfails := @failsBy_tabulate _ (fun e : CheckError => ¬e.Aborts) CheckError.eval fun _ he => he
  refine hQ.ofExcept (hfails t m.numStates domain fun s => ?_)
  cases value? s with
  | some v => exact .ok v
  | none => exact .error id

theorem constantVector (hQ : c.ComposesOrderly m Q) (name : String) (t : ValueType) :
    Q _ (c.constantVector m name t) := by
  unfold Checker.constantVector
  split
  · exact hQ.throw _ id
  · split
    · exact hQ.throw _ id
    · exact hQ.pure _

theorem observableVector (hQ : c.ComposesOrderly m Q) (name : String) (t : ValueType) :
    Q _ (c.observableVector m name t domain) := by
  unfold Checker.observableVector
  split
  · exact hQ.throw _ id
  · exact ite (hQ.lookupVector name t _) (hQ.throw _ id)

/-! ### Expressions -/

theorem extractFromAll (hQ : c.ComposesOrderly m Q) {es : List Expr} (hes : ∀ e ∈ es, ExtractHas Q c m entered e)
    (found : Found) : Q _ (c.extractFromAll .whereOpen m entered found es) := by
  induction es generalizing found with
  | nil =>
    rw [extractFromAll_nil]
    exact hQ.pure _
  | cons e rest ih =>
    rw [extractFromAll_cons]
    refine hQ.next (hes e List.mem_cons_self found) fun (e', found₁) => ?_
    exact hQ.next (ih (fun a ha => hes a (List.mem_cons_of_mem e ha)) found₁) fun _ => hQ.pure _

/-- A state formula is evaluated, in any other expression the direct subexpressions are rewritten. -/
theorem extract (hQ : c.ComposesOrderly m Q) {e : Expr} (hp : ∀ name t, e ≠ .property name t)
    (he : EvalHas Q c m entered e) (hchildren : ∀ a ∈ e.children, ExtractHas Q c m entered a) :
    ExtractHas Q c m entered e := by
  intro found
  by_cases hprop : e.type = .bool ∧ e.isProposition = true
  · rw [extractFrom_proposition .whereOpen c m entered found hprop]
    exact hQ.next (hQ.satisfying he) fun holds => hQ.pure _
  · rw [extractFrom_children .whereOpen c m entered found hprop hp, extractFromChildren_eq]
    exact hQ.next (hQ.extractFromAll hchildren found) fun _ => hQ.pure _

/-- A property that goes from the parts to the whole is one of all evaluations and rewritings, if the selections and the
reductions of the filters and the requests for the quantities have it that these may come to. -/
theorem whole (hQ : c.ComposesOrderly m Q) (entered : Entered) (e : Expr) (hselects : SelectsBy Q c m entered e)
    (hreduces : ReducesBy Q c m entered e) (hrequests : RequestsBy Q c m entered e) :
    EvalHas Q c m entered e ∧ ExtractHas Q c m entered e := by
  revert hselects hreduces hrequests
  refine c.definitions.expansion_induction
    (P := fun entered e => SelectsBy Q c m entered e → ReducesBy Q c m entered e → RequestsBy Q c m entered e →
      EvalHas Q c m entered e ∧ ExtractHas Q c m entered e)
    (fun entered e ih hselects hreduces hrequests => ?_) entered e
  have hsuccessor : ∀ s ∈ c.definitions.successors entered e, EvalHas Q c m s.1 s.2 ∧ ExtractHas Q c m s.1 s.2 :=
    fun s hs => ih s hs (hselects.successor hs) (hreduces.successor hs) (hrequests.successor hs)
  have heval : ∀ a ∈ e.children, EvalHas Q c m entered a :=
    fun a ha => (hsuccessor (entered, a) (Definitions.mem_successors_of_child ha)).1
  have hextract : ∀ a ∈ e.children, ExtractHas Q c m entered a :=
    fun a ha => (hsuccessor (entered, a) (Definitions.mem_successors_of_child ha)).2
  -- References to properties are the only expressions that the rewrite treats differently.
  by_cases hreference : ∃ name t, e = .property name t
  · obtain ⟨name, t, rfl⟩ := hreference
    exact hQ.property fun body hd hn => hsuccessor _ (Definitions.mem_successors_of_property hd hn)
  have hself : EvalHas Q c m entered e := by
    cases e with
    | ite cond t e =>
      exact hQ.conditional (heval cond (by simp [Expr.children])) (heval t (by simp [Expr.children]))
        (heval e (by simp [Expr.children]))
    | binary op l r => exact hQ.binary (heval l (by simp [Expr.children])) (heval r (by simp [Expr.children]))
    | unary op e => exact hQ.unary (heval e List.mem_cons_self)
    | call f args => exact hQ.call heval
    | literal v =>
      intro domain
      rw [evalWith_literal]
      exact hQ.pure _
    | constant name t =>
      intro domain
      rw [evalWith_constant]
      exact hQ.constantVector name t
    | ident name t =>
      intro domain
      rw [evalWith_ident]
      exact hQ.throw _ id
    | formula name d t =>
      intro domain
      cases d with
      | none =>
        rw [evalWith_unexpanded]
        exact hQ.throw _ id
      | some d =>
        rw [evalWith_expanded]
        exact heval d List.mem_cons_self domain
    | var name index t =>
      intro domain
      rw [evalWith_var]
      exact hQ.lookupVector name t _
    | observable name t =>
      intro domain
      rw [evalWith_observable]
      exact hQ.observableVector name t
    | label name => exact hQ.label fun body hd hn => (hsuccessor _ (Definitions.mem_successors_of_label hd hn)).1
    | property name t => exact absurd ⟨name, t, rfl⟩ hreference
    | filter op e p invisible explained =>
      refine hQ.filter (heval e List.mem_cons_self) (fun a ha => heval a ?_) hselects hreduces
      exact List.mem_cons_of_mem e (Option.mem_toList.mpr ha)
    | quant measure query e => exact hQ.quantity (hextract e List.mem_cons_self) hrequests
    | path op operands bound =>
      intro domain
      rw [evalWith_path]
      exact hQ.throw _ id
  exact ⟨hself, hQ.extract (fun name t h => hreference ⟨name, t, h⟩) hself hextract⟩

end ComposesOrderly

namespace Composes

theorem orderly (hQ : c.Composes m Q) : c.ComposesOrderly m Q := by
  have hanswer : ∀ {α : Type} (x : Except CheckError α), Q _ (Check.ofExcept x) := fun x => by
    cases x with
    | ok a => exact hQ.tells (Tells.pure a)
    | error e => exact hQ.throw e
  exact
    { throw := fun e _ => hQ.throw e
      tells := fun hx _ => hQ.tells hx
      bind := hQ.bind
      multi := hQ.multi
      rewards := hQ.rewards
      multiAnswer := fun _ _ _ _ _ => hanswer _
      rewardsAnswer := fun _ _ _ _ _ => hanswer _
      quantAnswer := fun _ _ _ _ => hanswer _ }

/-- What follows the selection of a filter. -/
theorem reduced (hQ : c.Composes m Q) (f : Filter) {e : Expr} (he : EvalHas Q c m entered e) (selection : Selection) :
    Q _ (do
      let v ← c.evalWith .whereOpen m entered e (some selection.states)
      f.record c.settings c.definitions.parameters (← f.reduce c.settings m selection v)) := by
  refine hQ.orderly.next (he _) fun v => hQ.tells ?_
  exact (Filter.reduce_tells _ _ _ _ _).bind fun reduced => Filter.record_tells _ _ _ _

/-- A property that goes from the parts to the whole is one of all evaluations and rewritings, if the selections of the
filters and the requests for the quantities have it that these may come to. -/
theorem whole (hQ : c.Composes m Q) (entered : Entered) (e : Expr) (hselects : SelectsBy Q c m entered e)
    (hrequests : RequestsBy Q c m entered e) : EvalHas Q c m entered e ∧ ExtractHas Q c m entered e := by
  have hreduces : ReducesBy Q c m entered e := fun _ _ _ _ _ _ _ _ _ _ _ _ _ =>
    hQ.tells (Filter.reduce_tells _ _ _ _ _)
  exact hQ.orderly.whole entered e hselects hreduces hrequests

end Composes

end Checker

end Statewise
