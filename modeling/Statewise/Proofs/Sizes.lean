import Statewise.Proofs.Hints
import Statewise.Proofs.Narrowing

/-!
# One entry per state

Every vector that comes out of an evaluation has one entry per state of the model: those that are made have it from
the start, combinations keep the size of their first operand, and the answer of a solver for a quantity is measured
before anything reads it. The answer to a query for several objectives is not measured, and goes on as it is; so the
sizes are right if the solver answers these queries with one entry per state (`sizes_of_answersWhole`), and need not
be otherwise (`checkExpression_shortVector`).
-/

namespace Statewise

open Check

/-! ## Combinations keep the size -/

namespace StateVector

variable {u v w out : StateVector} {t : ValueType} {domain : Option StateSet}

/-- A tabulation has the size and the type that it was asked for. -/
theorem shape_tabulate {ε : Type} {lift : EvalError → ε} {n : Nat} {f : Nat → Except ε Value}
    (h : tabulate lift t n domain f = .ok out) : out.size = n ∧ out.type = t :=
  ⟨(tabulate_spec h).plain.1, (tabulate_spec h).type⟩

theorem shape_map1 {f : Value → Except EvalError Value} (h : v.map1 t domain f = .ok out) :
    out.size = v.size ∧ out.type = t := by
  obtain ⟨o, ho, heq⟩ := Yields.bind_eq_ok.mp h
  cases heq
  obtain ⟨hsize, htype⟩ := shape_tabulate ho
  exact ⟨hsize, htype⟩

theorem shape_map2 {f : Value → Value → Except EvalError Value} (h : v.map2 w t domain f = .ok out) :
    out.size = v.size ∧ out.type = t := by
  obtain ⟨_, -, ho⟩ := Yields.bind_eq_ok.mp h
  exact shape_tabulate ho

theorem shape_map3 {f : Value → Value → Value → Except EvalError Value} (h : u.map3 v w t domain f = .ok out) :
    out.size = u.size ∧ out.type = t := by
  obtain ⟨_, -, hrest⟩ := Yields.bind_eq_ok.mp h
  obtain ⟨_, -, ho⟩ := Yields.bind_eq_ok.mp hrest
  exact shape_tabulate ho

end StateVector

theorem Filter.Origin.size_vector {n : Nat} {states : StateSet} {v : StateVector} {r : Reduced}
    (h : Origin n states v r) (hv : v.size = n) : r.vector.size = n := by
  cases h with
  | kept => exact hv
  | single x => simp [Reduced.single]
  | frontier points => simp
  | matching found => rfl

/-! ## Evaluation -/

namespace Checker

open StateVector

variable {c : Checker} {m : Model} {entered : Entered} {domain : Option StateSet}

/-! ### References -/

variable {P : StateVector → Prop}

/-- The vector of a label is that of a set, or comes from its definition. -/
theorem label_ensures {name : String} (hset : ∀ states, P (.ofSet states m.numStates))
    (h : ∀ body, c.definitions.label? name = some body → entered.labels.contains name = false →
      Ensures (evalWith .whereOpen c m (entered.label name) body domain) P) :
    Ensures (evalWith .whereOpen c m entered (.label name) domain) P := by
  cases hm : m.labelStates? name with
  | some states =>
    rw [evalWith_attached .whereOpen c m entered domain hm]
    exact Ensures.pure (hset states)
  | none =>
    cases hd : c.definitions.label? name with
    | none =>
      rw [evalWith_builtin .whereOpen c m entered domain hm hd]
      unfold builtinLabel
      refine Ensures.ite (fun _ => Ensures.pure (hset _)) fun _ => ?_
      exact Ensures.ite (fun _ => Ensures.pure (hset _)) fun _ => Ensures.throw _
    | some body =>
      cases hn : entered.labels.contains name with
      | true =>
        rw [evalWith_cyclicLabel .whereOpen c m entered domain hm hd hn]
        exact Ensures.throw _
      | false =>
        rw [evalWith_definedLabel .whereOpen c m entered domain hm hd hn]
        exact h body hd hn

/-- The vector of a reference to a property comes from its definition. -/
theorem property_ensures {name : String} {t : ValueType}
    (h : ∀ body, c.definitions.property? name = some body → entered.properties.contains name = false →
      Ensures (evalWith .whereOpen c m (entered.property name) body domain) P) :
    Ensures (evalWith .whereOpen c m entered (.property name t) domain) P := by
  cases hd : c.definitions.property? name with
  | none =>
    rw [evalWith_unknownProperty .whereOpen c m entered domain t hd]
    exact Ensures.throw _
  | some body =>
    cases hn : entered.properties.contains name with
    | true =>
      rw [evalWith_cyclicProperty .whereOpen c m entered domain t hd hn]
      exact Ensures.throw _
    | false =>
      rw [evalWith_definedProperty .whereOpen c m entered domain t hd hn]
      exact Ensures.next fun _ => h body hd hn

/-! ### Sizes -/

/-- The solver answers a query for several objectives on the model, if the expression is one, with one entry per
state. -/
def AnswersWhole (c : Checker) (m : Model) : Expr → Prop
  | .call .multi args => ∀ answer ∈ c.solver.bind (·.multi), ∀ before domain v,
      answer before m args domain = .ok v → v.size = m.numStates
  | _ => True

/-- All queries for several objectives in the expression and in the definitions are answered so. -/
structure AnswersAllWhole (c : Checker) (m : Model) (e : Expr) : Prop where
  expr : e.Throughout (c.AnswersWhole m)
  definitions : c.definitions.Throughout (c.AnswersWhole m)

/-- The vector of the expression has one entry per state, whatever the domain. -/
def Sized (c : Checker) (m : Model) (entered : Entered) (e : Expr) : Prop :=
  ∀ domain, Ensures (evalWith .whereOpen c m entered e domain) (·.size = m.numStates)

theorem ite_sized (cond t e : Expr) : c.Sized m entered (.ite cond t e) := by
  intro domain
  rw [evalWith_ite]
  -- The set of the condition is made a vector of the size of the model, and sets the size.
  refine Ensures.next fun holds => Ensures.next fun tv => Ensures.next fun ev => Ensures.ofEval fun out hout => ?_
  exact (shape_map3 hout).1

theorem binary_sized {op : BinaryOp} {l r : Expr} (hl : c.Sized m entered l) :
    c.Sized m entered (.binary op l r) := by
  intro domain
  by_cases hop : op.isLazy = true
  · rw [evalWith_lazy c m entered domain hop]
    exact Ensures.next fun left => Ensures.next fun right => Ensures.pure rfl
  · rw [evalWith_strict .whereOpen c m entered domain fun h => hop h.2]
    refine Ensures.bind (hl domain) fun lv hlv => Ensures.next fun rv => Ensures.ofEval fun out hout => ?_
    exact (shape_map2 hout).1.trans hlv

theorem unary_sized {op : UnaryOp} {e : Expr} (he : c.Sized m entered e) : c.Sized m entered (.unary op e) := by
  intro domain
  by_cases hop : op = .parenth
  · rw [hop, evalWith_parenth]
    exact he domain
  · rw [evalWith_unary .whereOpen c m entered domain hop]
    exact Ensures.bind (he domain) fun v hv => Ensures.ofEval fun out hout => (shape_map1 hout).1.trans hv

theorem combineArgs_sized {f : Function} {t : ValueType} {args : List Expr} {acc : StateVector}
    (hacc : acc.size = m.numStates) :
    Ensures (combineArgs .whereOpen c m entered f t acc args domain) (·.size = m.numStates) := by
  induction args generalizing acc with
  | nil =>
    rw [combineArgs_nil]
    exact Ensures.pure hacc
  | cons a rest ih =>
    rw [combineArgs_cons]
    refine Ensures.next fun v => Ensures.bind (Ensures.ofEval fun out hout => ?_) fun acc' hacc' => ih hacc'
    exact (shape_map2 hout).1.trans hacc

theorem askMulti_sized {args : List Expr} (h : c.AnswersWhole m (.call .multi args)) :
    Ensures (askMulti c m args domain) (·.size = m.numStates) := by
  unfold askMulti
  split
  · exact Ensures.throw _
  · next answer hanswer =>
    exact Ensures.next fun before => Ensures.ofExcept fun v hv => h answer hanswer before domain v hv

theorem call_sized {f : Function} {args : List Expr} (hself : c.AnswersWhole m (.call f args))
    (hargs : ∀ a ∈ args, c.Sized m entered a) : c.Sized m entered (.call f args) := by
  intro domain
  by_cases hmulti : f = .multi
  · rw [hmulti, evalWith_multi]
    exact askMulti_sized (hmulti ▸ hself)
  · cases haccepts : f.accepts args.length with
    | false =>
      rw [evalWith_wrongArity .whereOpen c m entered domain hmulti haccepts]
      exact Ensures.throw _
    | true =>
      rcases Function.accepts_cases haccepts with ⟨hf, a, b, rest, rfl⟩ | ⟨hf, a, rfl⟩ | ⟨hf, a, b, rfl⟩
      · rw [evalWith_extremum .whereOpen c m entered domain hf]
        exact Ensures.bind (hargs a List.mem_cons_self domain) fun first hfirst => combineArgs_sized hfirst
      · rw [evalWith_rounding .whereOpen c m entered domain hf]
        refine Ensures.bind (hargs a List.mem_cons_self domain) fun v hv => Ensures.ofEval fun out hout => ?_
        exact (shape_map1 hout).1.trans hv
      · rw [evalWith_dyadic .whereOpen c m entered domain hf]
        refine Ensures.bind (hargs a List.mem_cons_self domain) fun v hv => ?_
        exact Ensures.next fun w => Ensures.ofEval fun out hout => (shape_map2 hout).1.trans hv

theorem filter_sized {op : FilterOp} {e : Expr} {p : Option Expr} {invisible explained : Bool}
    (he : c.Sized m entered e) : c.Sized m entered (.filter op e p invisible explained) := by
  intro domain
  rw [evalWith_filter]
  unfold applyFilter
  refine Ensures.next fun states => Ensures.next fun selection => Ensures.bind (he _) fun v hv => ?_
  refine Ensures.bind (Ensures.of_delivers (Filter.reduce_delivers _ m c.settings selection v) fun _ h => h) ?_
  intro r hr
  exact Ensures.of_delivers (Filter.record_delivers _ c.settings _ r) fun w hw => by rw [hw, hr.size_vector hv]

theorem askQuant_sized (solver : Solver) (q : Request) :
    Ensures (askQuant solver q) (·.size = q.model.numStates) := by
  unfold askQuant
  refine Ensures.next fun before => Ensures.next fun values => ?_
  exact Ensures.ite (fun _ => Ensures.throw _) fun hsize => Ensures.pure (Decidable.not_not.mp hsize)

theorem quant_sized (measure : Measure) (query : Query) (operand : Expr) :
    c.Sized m entered (.quant measure query operand) := by
  intro domain
  cases hc : c.solver with
  | none =>
    rw [evalWith_quant .whereOpen c m entered domain hc]
    exact Ensures.throw _
  | some solver =>
    rw [evalWith_quant_asked .whereOpen c m entered domain hc]
    refine Ensures.next fun rewards => Ensures.next fun (operand, labels) => Ensures.next fun run => ?_
    exact askQuant_sized solver _

/-- If the solver answers the queries for several objectives with one entry per state, every vector has as many. -/
theorem evalWith_sized (hdef : c.definitions.Throughout (c.AnswersWhole m)) (entered : Entered) (e : Expr)
    (he : e.Throughout (c.AnswersWhole m)) : c.Sized m entered e := by
  revert he
  refine c.definitions.expansion_induction
    (P := fun entered e => e.Throughout (c.AnswersWhole m) → c.Sized m entered e) (fun entered e ih he => ?_) entered e
  have hchild : ∀ a ∈ e.children, c.Sized m entered a :=
    fun a ha => ih (entered, a) (Definitions.mem_successors_of_child ha) (he.child ha)
  cases e with
  | ite cond t e => exact ite_sized cond t e
  | binary op l r => exact binary_sized (hchild l List.mem_cons_self)
  | unary op e => exact unary_sized (hchild e List.mem_cons_self)
  | call f args => exact call_sized he.self hchild
  | filter op e p invisible explained => exact filter_sized (hchild e List.mem_cons_self)
  | quant measure query operand => exact quant_sized measure query operand
  | label name =>
    intro domain
    exact label_ensures (fun states => rfl) fun body hd hn =>
      ih _ (Definitions.mem_successors_of_label hd hn) (hdef.label hd) domain
  | property name t =>
    intro domain
    exact property_ensures fun body hd hn =>
      ih _ (Definitions.mem_successors_of_property hd hn) (hdef.property hd) domain
  | literal v =>
    intro domain
    rw [evalWith_literal]
    exact Ensures.pure (size_constant v _)
  | constant name t =>
    intro domain
    rw [evalWith_constant]
    exact Ensures.of_delivers (constantVector_delivers c m name t) fun v hv => hv.plain.1
  | ident name t =>
    intro domain
    rw [evalWith_ident]
    exact Ensures.throw _
  | formula name d t =>
    intro domain
    cases d with
    | none =>
      rw [evalWith_unexpanded]
      exact Ensures.throw _
    | some d =>
      rw [evalWith_expanded]
      exact hchild d List.mem_cons_self domain
  | var name index t =>
    intro domain
    rw [evalWith_var]
    exact Ensures.of_delivers (lookupVector_delivers m name t domain _) fun v hv => hv.plain.1
  | observable name t =>
    intro domain
    rw [evalWith_observable]
    exact Ensures.of_delivers (observableVector_delivers c m name t domain) fun v hv => hv.plain.1
  | path op operands bound =>
    intro domain
    rw [evalWith_path]
    exact Ensures.throw _

/-! ## The answer of the solver is measured -/

/-- An answer for a quantity that has not one entry per state ends the evaluation. Nothing is left behind after the
question. -/
theorem askQuant_lengthMismatch {solver : Solver} {q : Request} {r : Run} {v : StateVector}
    (hv : solver.quant r.calls q = .ok v) (hsize : v.size ≠ q.model.numStates) :
    askQuant solver q r =
      (.error (.eval (.lengthMismatch q.model.numStates v.size)), { r with calls := .quant q :: r.calls }) := by
  have hask : outcome (ask (.quant q)) r = .ok r.calls := rfl
  unfold askQuant
  rw [run_bind_ok hask, run_bind_ok (a := v) (by rw [outcome_ofExcept, hv]), after_ofExcept, if_pos hsize]
  rfl

/-- What the evaluation of a quantity has done when it comes to the solver: the reward structure, and the operand with
its state formulas replaced. -/
def prepareQuant (c : Checker) (m : Model) (entered : Entered) (measure : Measure) (operand : Expr) :
    Check (Option Rewards × Expr × Found) := do
  let rewards ← buildRewards c m measure
  let extracted ← c.extractFrom .whereOpen m entered [] operand
  return (rewards, extracted)

theorem evalWith_quant_prepared {solver : Solver} (hc : c.solver = some solver) (measure : Measure) (query : Query)
    (operand : Expr) :
    evalWith .whereOpen c m entered (.quant measure query operand) domain = (do
      let (rewards, operand, labels) ← prepareQuant c m entered measure operand
      askQuant solver ⟨m, measure, query, operand, labels, rewards, domain, (← get).hint⟩) := by
  rw [evalWith_quant_asked .whereOpen c m entered domain hc]
  unfold prepareQuant
  simp only [bind_assoc, pure_bind]

theorem quant_lengthMismatch {solver : Solver} (hc : c.solver = some solver) {measure : Measure} {query : Query}
    {operand operand' : Expr} {labels : Found} {rewards : Option Rewards} {r r' : Run} {v : StateVector}
    (hprepared : prepareQuant c m entered measure operand r = (.ok (rewards, operand', labels), r'))
    (hv : solver.quant r'.calls ⟨m, measure, query, operand', labels, rewards, domain, r'.hint⟩ = .ok v)
    (hsize : v.size ≠ m.numStates) :
    c.eval m entered (.quant measure query operand) domain r =
      (.error (.eval (.lengthMismatch m.numStates v.size)),
        { r' with calls := .quant ⟨m, measure, query, operand', labels, rewards, domain, r'.hint⟩ :: r'.calls }) := by
  have houtcome : outcome (prepareQuant c m entered measure operand) r = .ok (rewards, operand', labels) :=
    congrArg Prod.fst hprepared
  have hafter : after (prepareQuant c m entered measure operand) r = r' := congrArg Prod.snd hprepared
  unfold eval
  rw [evalWith_quant_prepared hc, run_bind_ok houtcome, hafter]
  exact askQuant_lengthMismatch hv hsize

/-! ## Checking -/

theorem checkExpression_sized {e : Expr} (h : c.AnswersAllWhole m e) (domain : Option StateSet) :
    Ensures (c.checkExpression m e domain) (·.size = m.numStates) :=
  Ensures.next fun _ => evalWith_sized h.definitions .none e h.expr domain

/-- A check evaluates an expression on the model that is left by the minimisation. -/
theorem check_sized {m' : Model} {e e' : Expr} {r : Run} {o : Outcome}
    (hminimised : outcome (c.minimised m (c.prepared m e)) r = .ok (m', e')) (h : c.AnswersAllWhole m' e')
    (ho : outcome (c.check m e) r = .ok o) : o.values.size = m'.numStates := by
  unfold check at ho
  rw [outcome_bind_ok hminimised] at ho
  have hrest : Ensures (do
      restart c.definitions.parameters
      let values ← c.eval m' .none e' none
      let run ← get
      Check.message (run.answer.line e'.resultName)
      return (⟨values, run.answer, run.hint⟩ : Outcome)) (·.values.size = m'.numStates) := by
    refine Ensures.next fun _ => Ensures.bind (evalWith_sized h.definitions .none e' h.expr none) fun v hv => ?_
    exact Ensures.next fun run => Ensures.next fun _ => Ensures.pure hv
  exact hrest _ o ho

/-- Every vector has one entry per state of the model that is evaluated: those of expressions and of all that is
evaluated on the way to them, and those of checks. The solver may answer anything for a quantity, as an answer of
another size is refused at once; its answers for several objectives have to have that size. -/
theorem sizes_of_answersWhole (c : Checker) (m : Model) (e : Expr) :
    (c.AnswersAllWhole m e → ∀ domain r v, outcome (c.checkExpression m e domain) r = .ok v →
      v.size = m.numStates) ∧
    (c.AnswersAllWhole m e →
      ∀ a, (a.Within e ∨ ∃ x ∈ c.definitions.labels ++ c.definitions.properties, a.Within x.body) →
      ∀ entered domain r v, outcome (c.eval m entered a domain) r = .ok v → v.size = m.numStates) ∧
    (∀ r m' e', outcome (c.minimised m (c.prepared m e)) r = .ok (m', e') → c.AnswersAllWhole m' e' →
      ∀ o, outcome (c.check m e) r = .ok o → o.values.size = m'.numStates) ∧
    ∀ solver, c.solver = some solver → ∀ entered measure query operand domain r rewards operand' labels r',
      prepareQuant c m entered measure operand r = (.ok (rewards, operand', labels), r') →
      ∀ v, solver.quant r'.calls ⟨m, measure, query, operand', labels, rewards, domain, r'.hint⟩ = .ok v →
        v.size ≠ m.numStates →
        c.eval m entered (.quant measure query operand) domain r =
          (.error (.eval (.lengthMismatch m.numStates v.size)),
            { r' with
              calls := .quant ⟨m, measure, query, operand', labels, rewards, domain, r'.hint⟩ :: r'.calls }) := by
  refine ⟨fun h domain => checkExpression_sized h domain, fun h a ha entered domain => ?_,
    fun r m' e' hm h o ho => check_sized hm h ho, ?_⟩
  · have hthroughout : a.Throughout (c.AnswersWhole m) := by
      rcases ha with ha | ⟨x, hx, ha⟩
      · exact h.expr.of_within ha
      · exact (h.definitions x hx).of_within ha
    exact evalWith_sized h.definitions entered a hthroughout domain
  · intro solver hc entered measure query operand domain r rewards operand' labels r' hprepared v hv hsize
    exact quant_lengthMismatch hc hprepared hv hsize

/-! ### Answers of any size -/

/-- A checker whose solver gives one answer for all quantities and one for all queries for several objectives. -/
def answering (quantity objectives : StateVector) : Checker :=
  { bare with solver := some ⟨fun _ _ => .ok quantity, some fun _ _ _ _ => .ok objectives⟩ }

/-- A query for several objectives, though it names none. -/
def objectives : Expr := .call .multi []

theorem outcome_objectives (quantity answer : StateVector) (domain : Option StateSet) (r : Run) :
    outcome ((answering quantity answer).checkExpression .twoStates objectives domain) r = .ok answer := by
  rw [outcome_checkExpression]
  unfold objectives
  rw [evalWith_multi]
  rfl

/-- The filter that a check puts around the query reports the entry of the initial state. -/
theorem exists_outcome_check_objectives :
    ∃ o, outcome ((answering (.ofInts [5]) (.ofInts [5, 6])).check .twoStates objectives) .start = .ok o := by
  have hminimised : outcome ((answering (.ofInts [5]) (.ofInts [5, 6])).minimised .twoStates
      ((answering (.ofInts [5]) (.ofInts [5, 6])).prepared .twoStates objectives)) .start =
      .ok (.twoStates, .filter .state (.call .multi []) (some (.label Expr.initName)) true true) := rfl
  have hinit : evalWith .whereOpen (answering (.ofInts [5]) (.ofInts [5, 6])) .twoStates .none
      (.label Expr.initName) none = builtinLabel .twoStates Expr.initName := evalWith_builtin _ _ _ _ _ rfl rfl
  unfold check
  rw [outcome_bind_ok hminimised]
  simp only [eval, evalWith_filter, selected, satisfying, applyFilter, evalWith_multi, hinit]
  exact ⟨_, rfl⟩

theorem prepareQuant_certain (quantity answer : StateVector) :
    prepareQuant (answering quantity answer) .twoStates .none .probability (.path .eventually [.truth] none) .start =
      (.ok (none, .path .eventually [.truth] none, []), .start) := by
  have hpath : ¬((Expr.path .eventually [.truth] none).type = .bool ∧
      (Expr.path .eventually [.truth] none).isProposition = true) := fun h => Bool.false_ne_true h.2
  unfold prepareQuant
  rw [extractFrom_children _ _ _ _ _ hpath (by simp), extractFromChildren_path, extractFromAll_cons,
    extractFrom_proposition _ _ _ _ _ ⟨rfl, rfl⟩]
  unfold satisfying Expr.truth
  simp only [evalWith_literal, extractFromAll_nil]
  rfl

/-- The answer for several objectives has an entry per state, and that for a quantity has not. -/
theorem sizes_of_answersWhole_twoStates :
    let c := answering (.ofInts [5]) (.ofInts [5, 6])
    (∃ v, outcome (c.checkExpression .twoStates objectives none) .start = .ok v ∧ v.size = 2) ∧
      (∃ v, outcome (c.eval .twoStates ⟨[], ["done"]⟩ objectives none) .start = .ok v ∧ v.size = 2) ∧
      (∃ o, outcome (c.check .twoStates objectives) .start = .ok o ∧ o.values.size = 2) ∧
      outcome (c.eval .twoStates .none (certain .truth) none) .start = .error (.eval (.lengthMismatch 2 1)) := by
  intro c
  have hwhole : ∀ e, c.AnswersWhole .twoStates e := by
    intro e
    unfold AnswersWhole
    split
    · rintro answer ⟨⟩ before domain v ⟨⟩
      rfl
    · trivial
  have hall : ∀ e, c.AnswersAllWhole .twoStates e :=
    fun e => ⟨fun a _ => hwhole a, fun x _ a _ => hwhole a⟩
  obtain ⟨hexpr, hwithin, hcheck, hquant⟩ := sizes_of_answersWhole c .twoStates objectives
  refine ⟨?_, ?_, ?_, ?_⟩
  · have hv := outcome_objectives (.ofInts [5]) (.ofInts [5, 6]) none .start
    exact ⟨_, hv, hexpr (hall _) none .start _ hv⟩
  · have hv : outcome (c.eval .twoStates ⟨[], ["done"]⟩ objectives none) .start = .ok (.ofInts [5, 6]) := by
      unfold eval objectives
      rw [evalWith_multi]
      rfl
    exact ⟨_, hv, hwithin (hall _) objectives (.inl (.refl _)) _ none .start _ hv⟩
  · obtain ⟨o, ho⟩ := exists_outcome_check_objectives
    exact ⟨o, ho, hcheck .start .twoStates _ rfl (hall _) o ho⟩
  · have h := hquant _ rfl .none .probability (.bound .ge 1) _ none .start _ _ _ _ (prepareQuant_certain _ _) _ rfl
      (by decide)
    exact congrArg Prod.fst h

/-- The answer for several objectives is not measured: one entry for two states comes out as it is. -/
theorem checkExpression_shortVector :
    outcome ((answering (.ofInts [5]) (.ofInts [5])).checkExpression .twoStates objectives none) .start =
        .ok (.ofInts [5]) ∧
      (StateVector.ofInts [5]).size = 1 ∧ Model.twoStates.numStates = 2 :=
  ⟨outcome_objectives _ _ none .start, rfl, rfl⟩

end Checker

end Statewise
