import Statewise.Proofs.Extraction
import Statewise.Proofs.Sizes

/-!
# Vectors have the static type

Without a solver, the vector that an expression evaluates to has the static type of the expression, and so has its
value in every state, also outside the domain. Labels have to be defined by truth values, and references to
properties have to declare the type of what they stand for: these are the two places where an expression says a type
that is not looked up. There is one lemma for each kind of expression, and for filters one for each reduction.
-/

namespace Statewise

open Check StateVector

/-! ## Reductions -/

namespace StateVector

variable {v : StateVector} {states : StateSet} {x : Value}

@[simp] theorem type_withAccuracy (v : StateVector) (a : Option Accuracy) : (v.withAccuracy a).type = v.type := rfl

/-- A combination of two values of one type is a value of this type. -/
def KeepsType (combine : Value → Value → Except EvalError Value) : Prop :=
  ∀ a b : Value, a.type = b.type → ∃ z, combine a b = .ok z ∧ z.type = a.type

theorem keepsType_lesserValue : KeepsType lesserValue := by
  intro a b h
  cases a <;> cases b <;> first | exact ⟨_, rfl, rfl⟩ | cases h

theorem keepsType_greaterValue : KeepsType greaterValue := by
  intro a b h
  cases a <;> cases b <;> first | exact ⟨_, rfl, rfl⟩ | cases h

theorem KeepsType.type_eq {combine : Value → Value → Except EvalError Value} (h : KeepsType combine) {a b z : Value}
    (hab : a.type = b.type) (hz : combine a b = .ok z) : z.type = a.type := by
  obtain ⟨y, hy, htype⟩ := h a b hab
  rw [hy] at hz
  cases hz
  exact htype

/-- The values over some states, combined with a value of the type of the vector, have this type. -/
theorem type_of_foldlM {combine : Value → Value → Except EvalError Value} (hcombine : KeepsType combine)
    {xs : List Nat} {acc : Value} (hacc : acc.type = v.type)
    (h : xs.foldlM (fun acc s => do combine acc (← v.valueAt s)) acc = .ok x) : x.type = v.type := by
  induction xs generalizing acc with
  | nil =>
    cases h
    exact hacc
  | cons s rest ih =>
    rw [List.foldlM_cons] at h
    obtain ⟨next, hnext, hrest⟩ := Yields.bind_eq_ok.mp h
    obtain ⟨y, hy, hcomb⟩ := Yields.bind_eq_ok.mp hnext
    exact ih ((hcombine.type_eq (hacc.trans (type_of_valueAt hy).symm) hcomb).trans hacc) hrest

theorem type_of_foldOver {combine : Value → Value → Except EvalError Value} (hcombine : KeepsType combine)
    (h : v.foldOver combine states = .ok x) : x.type = v.type := by
  unfold foldOver at h
  split at h
  · cases h
  · obtain ⟨first, hfirst, hrest⟩ := Yields.bind_eq_ok.mp h
    exact type_of_foldlM hcombine (type_of_valueAt hfirst) hrest

theorem type_of_firstIn (h : v.firstIn states = .ok x) : x.type = v.type := by
  unfold firstIn at h
  split at h
  · exact type_of_valueAt h
  · cases h

theorem type_of_sumOver (h : v.sumOver states = .ok x) : x.type = v.type := by
  obtain ⟨entries, accuracy⟩ := v
  cases entries with
  | ints xs =>
    obtain ⟨n, -, rfl⟩ := Yields.map_eq_ok.mp h
    rfl
  | doubles xs =>
    obtain ⟨y, -, rfl⟩ := Yields.map_eq_ok.mp h
    rfl
  | bools members n => cases h
  | frontier points n => cases h

theorem type_of_avgOver (h : v.avgOver states = .ok x) : x.type = .double := by
  obtain ⟨entries, accuracy⟩ := v
  unfold avgOver at h
  split at h
  · cases h
  · cases entries with
    | ints xs =>
      obtain ⟨y, -, rfl⟩ := Yields.map_eq_ok.mp h
      rfl
    | doubles xs =>
      obtain ⟨y, -, rfl⟩ := Yields.map_eq_ok.mp h
      rfl
    | bools members n => cases h
    | frontier points n => cases h

end StateVector

namespace Filter

variable {f : Filter} {settings : Settings} {m : Model} {s : Selection} {v : StateVector} {t : ValueType}

theorem reduceSingle_typed {value : Except EvalError Value} {accuracy : Option Accuracy} {explanation : String}
    (h : ∀ x, value = .ok x → x.type = t) :
    Ensures (reduceSingle m value accuracy explanation) (·.vector.type = t) := by
  unfold reduceSingle
  refine Ensures.bind (Ensures.ofEval h) fun x hx => Ensures.next fun _ => Ensures.pure ?_
  simp [Reduced.single, hx]

theorem reduceExtreme_typed {kind : String} {extreme : Except EvalError Value}
    (h : ∀ x, extreme = .ok x → x.type = t) :
    Ensures (reduceExtreme settings m s v kind extreme) (·.vector.type = t) := by
  unfold reduceExtreme
  refine Ensures.bind (Ensures.ofEval h) fun x hx => Ensures.next fun _ => Ensures.next fun found => ?_
  refine Ensures.next fun _ => Ensures.pure ?_
  simp [Reduced.single, hx]

theorem reduceArgument_typed {capital kind : String} {extreme : Except EvalError Value} :
    Ensures (reduceArgument settings m s v capital kind extreme) (·.vector.type = .bool) := by
  unfold reduceArgument
  refine Ensures.next fun x => Ensures.next fun _ => Ensures.next fun states => Ensures.next fun _ => ?_
  exact Ensures.pure rfl

theorem reducePrint_typed {includeZeros : Bool} :
    Ensures (reducePrint f m s v includeZeros) (·.vector.type = v.type) := by
  have hlines : ∀ lines : List String, Ensures (do
      lines.forM message
      return Reduced.vectorOnly v) (·.vector.type = v.type) :=
    fun lines => Ensures.next fun _ => Ensures.pure rfl
  unfold reducePrint
  refine Ensures.next fun lines => Ensures.ite (fun _ => Ensures.ite (fun _ => ?_) fun _ => ?_) fun _ => ?_
  · exact Ensures.next fun _ => hlines lines
  · exact Ensures.next fun _ => hlines lines
  · exact Ensures.next fun _ => hlines lines

theorem reduceRange_typed : Ensures (reduceRange s v) (·.vector.type = v.type) := by
  unfold reduceRange
  exact Ensures.next fun (low, high) => Ensures.next fun _ => Ensures.pure rfl

theorem reduceForAll_typed : Ensures (reduceForAll m s v) (·.vector.type = .bool) := by
  unfold reduceForAll
  split
  · exact Ensures.next fun _ => Ensures.pure rfl
  · exact Ensures.next fun holds => Ensures.next fun satisfied => Ensures.next fun _ => Ensures.pure rfl

theorem reduceExists_typed : Ensures (reduceExists m s v) (·.vector.type = .bool) := by
  unfold reduceExists
  exact Ensures.next fun holds => Ensures.next fun _ => Ensures.pure rfl

/-- A reduction has the result type of its operator for the type of the vector that is reduced. -/
theorem reduce_typed : Ensures (f.reduce settings m s v) (·.vector.type = f.op.resultType v.type) := by
  obtain ⟨op, selector, invisible, explained⟩ := f
  unfold reduce
  cases op with
  | print => exact reducePrint_typed
  | printAll => exact reducePrint_typed
  | store => exact Ensures.next fun _ => Ensures.pure rfl
  | min => exact reduceExtreme_typed fun x hx => type_of_foldOver keepsType_lesserValue hx
  | max => exact reduceExtreme_typed fun x hx => type_of_foldOver keepsType_greaterValue hx
  | argmin => exact reduceArgument_typed
  | argmax => exact reduceArgument_typed
  | count =>
    refine reduceSingle_typed fun x hx => ?_
    obtain ⟨n, -, rfl⟩ := Yields.map_eq_ok.mp hx
    rfl
  | sum => exact reduceSingle_typed fun x hx => type_of_sumOver hx
  | avg => exact reduceSingle_typed fun x hx => type_of_avgOver hx
  | first => exact reduceSingle_typed fun x hx => type_of_firstIn hx
  | range => exact reduceRange_typed
  | forAll => exact reduceForAll_typed
  | thereIs => exact reduceExists_typed
  | state => exact reduceSingle_typed fun x hx => type_of_firstIn hx

end Filter

/-! ## Evaluation -/

theorem BinaryOp.resultType_of_isLazy {op : BinaryOp} (h : op.isLazy = true) (l r : ValueType) :
    op.resultType l r = .bool := by
  cases op <;> first | rfl | cases h

namespace Checker

variable {c : Checker} {m : Model} {entered : Entered} {domain : Option StateSet}

/-- The vector of the expression has its static type, whatever the domain. -/
def Typed (c : Checker) (m : Model) (entered : Entered) (e : Expr) : Prop :=
  ∀ domain, Ensures (evalWith .whereOpen c m entered e domain) (·.type = e.type)

theorem ite_typed (cond t e : Expr) : c.Typed m entered (.ite cond t e) := by
  intro domain
  rw [evalWith_ite]
  refine Ensures.next fun holds => Ensures.next fun tv => Ensures.next fun ev => Ensures.ofEval fun out hout => ?_
  exact (shape_map3 hout).2

theorem binary_typed (op : BinaryOp) (l r : Expr) : c.Typed m entered (.binary op l r) := by
  intro domain
  by_cases hop : op.isLazy = true
  · rw [evalWith_lazy c m entered domain hop]
    refine Ensures.next fun left => Ensures.next fun right => Ensures.pure ?_
    exact (BinaryOp.resultType_of_isLazy hop l.type r.type).symm
  · rw [evalWith_strict .whereOpen c m entered domain fun h => hop h.2]
    exact Ensures.next fun lv => Ensures.next fun rv => Ensures.ofEval fun out hout => (shape_map2 hout).2

theorem unary_typed {op : UnaryOp} {e : Expr} (he : c.Typed m entered e) : c.Typed m entered (.unary op e) := by
  intro domain
  by_cases hop : op = .parenth
  · rw [hop, evalWith_parenth]
    exact he domain
  · rw [evalWith_unary .whereOpen c m entered domain hop]
    exact Ensures.next fun v => Ensures.ofEval fun out hout => (shape_map1 hout).2

/-- Combining with at least one more argument gives the type that is asked for. -/
theorem combineArgs_typed {f : Function} {t : ValueType} {args : List Expr} {acc : StateVector}
    (h : args = [] → acc.type = t) : Ensures (combineArgs .whereOpen c m entered f t acc args domain) (·.type = t) := by
  induction args generalizing acc with
  | nil =>
    rw [combineArgs_nil]
    exact Ensures.pure (h rfl)
  | cons a rest ih =>
    rw [combineArgs_cons]
    refine Ensures.next fun v => Ensures.bind (Ensures.ofEval fun out hout => (shape_map2 hout).2) ?_
    exact fun acc' hacc' => ih fun _ => hacc'

theorem call_typed (hc : c.solver = none) (f : Function) (args : List Expr) : c.Typed m entered (.call f args) := by
  intro domain
  by_cases hmulti : f = .multi
  · rw [hmulti, evalWith_multi_unsolved .whereOpen c m entered domain hc]
    exact Ensures.throw _
  · cases haccepts : f.accepts args.length with
    | false =>
      rw [evalWith_wrongArity .whereOpen c m entered domain hmulti haccepts]
      exact Ensures.throw _
    | true =>
      rcases Function.accepts_cases haccepts with ⟨hf, a, b, rest, rfl⟩ | ⟨hf, a, rfl⟩ | ⟨hf, a, b, rfl⟩
      · rw [evalWith_extremum .whereOpen c m entered domain hf]
        exact Ensures.next fun first => combineArgs_typed fun h => by cases h
      · rw [evalWith_rounding .whereOpen c m entered domain hf]
        exact Ensures.next fun v => Ensures.ofEval fun out hout => (shape_map1 hout).2
      · rw [evalWith_dyadic .whereOpen c m entered domain hf]
        exact Ensures.next fun v => Ensures.next fun w => Ensures.ofEval fun out hout => (shape_map2 hout).2

theorem filter_typed {op : FilterOp} {e : Expr} {p : Option Expr} {invisible explained : Bool}
    (he : c.Typed m entered e) : c.Typed m entered (.filter op e p invisible explained) := by
  intro domain
  rw [evalWith_filter]
  unfold applyFilter
  refine Ensures.next fun states => Ensures.next fun selection => Ensures.bind (he _) fun v hv => ?_
  refine Ensures.bind Filter.reduce_typed fun reduced hreduced => ?_
  refine Ensures.of_delivers (Filter.record_delivers _ c.settings _ reduced) fun w hw => ?_
  rw [hw, hreduced, hv]
  rfl

theorem lookupVector_typed (name : String) (t : ValueType) (value? : Nat → Option Value) :
    Ensures (lookupVector m name t domain value?) (·.type = t) :=
  Ensures.ofExcept fun _ h => (shape_tabulate h).2

theorem constantVector_typed (name : String) (t : ValueType) :
    Ensures (constantVector c m name t) (·.type = t) := by
  unfold constantVector
  split
  · exact Ensures.throw _
  · split
    · exact Ensures.throw _
    · next w hw => exact Ensures.pure ((type_constant w _).trans (Value.type_of_coerce? hw))

theorem observableVector_typed (name : String) (t : ValueType) :
    Ensures (observableVector c m name t domain) (·.type = t) := by
  unfold observableVector
  split
  · exact Ensures.throw _
  · exact Ensures.ite (fun _ => lookupVector_typed name t _) fun _ => Ensures.throw _

/-- Evaluating an expression gives a vector of its static type. -/
theorem evalWith_typed (hc : c.solver = none) (hlabels : ∀ d ∈ c.definitions.labels, d.body.type = .bool)
    (hdef : c.definitions.Throughout c.definitions.Declares) (entered : Entered) (e : Expr)
    (he : e.Throughout c.definitions.Declares) : c.Typed m entered e := by
  revert he
  refine c.definitions.expansion_induction
    (P := fun entered e => e.Throughout c.definitions.Declares → c.Typed m entered e) (fun entered e ih he => ?_) entered e
  have hchild : ∀ a ∈ e.children, c.Typed m entered a :=
    fun a ha => ih (entered, a) (Definitions.mem_successors_of_child ha) (he.child ha)
  cases e with
  | ite cond t e => exact ite_typed cond t e
  | binary op l r => exact binary_typed op l r
  | unary op e => exact unary_typed (hchild e List.mem_cons_self)
  | call f args => exact call_typed hc f args
  | filter op e p invisible explained => exact filter_typed (hchild e List.mem_cons_self)
  | literal v =>
    intro domain
    rw [evalWith_literal]
    exact Ensures.pure (type_constant v _)
  | constant name t =>
    intro domain
    rw [evalWith_constant]
    exact constantVector_typed name t
  | ident name t =>
    intro domain
    rw [evalWith_ident]
    exact Ensures.throw _
  | formula name d t =>
    intro domain
    cases d with
    | none =>
      rw [evalWith_unexpanded]
      exact Ensures.throw _
    | some d =>
      rw [evalWith_expanded]
      exact hchild d List.mem_cons_self domain
  | var name index t =>
    intro domain
    rw [evalWith_var]
    exact lookupVector_typed name t _
  | observable name t =>
    intro domain
    rw [evalWith_observable]
    exact observableVector_typed name t
  | label name =>
    intro domain
    refine label_ensures (fun states => rfl) fun body hd hn => ?_
    -- The definition has the type of the label.
    have htype : body.type = .bool := hlabels _ (Definition.mem_of_lookup? hd)
    intro r v hv
    exact (ih _ (Definitions.mem_successors_of_label hd hn) (hdef.label hd) domain r v hv).trans htype
  | property name t =>
    intro domain
    refine property_ensures fun body hd hn r v hv => ?_
    have htype : t = body.type := he.self body hd
    exact (ih _ (Definitions.mem_successors_of_property hd hn) (hdef.property hd) domain r v hv).trans htype.symm
  | quant measure query operand =>
    intro domain
    rw [evalWith_quant .whereOpen c m entered domain hc]
    exact Ensures.throw _
  | path op operands bound =>
    intro domain
    rw [evalWith_path]
    exact Ensures.throw _

/-- Checking an expression without a solver gives a vector of its static type, with a value of this type in every
state, if labels are defined by truth values and references declare the types of the properties. -/
theorem checkExpression_typed (c : Checker) (m : Model) (hc : c.solver = none)
    (hlabels : ∀ d ∈ c.definitions.labels, d.body.type = .bool)
    (hdef : c.definitions.Throughout c.definitions.Declares) (e : Expr) (he : e.Throughout c.definitions.Declares)
    (domain : Option StateSet) (r : Run) (v : StateVector)
    (hv : outcome (c.checkExpression m e domain) r = .ok v) :
    v.type = e.type ∧ ∀ s < m.numStates, ∃ y, v.valueAt s = .ok y ∧ y.type = e.type := by
  rw [outcome_checkExpression] at hv
  have htype : v.type = e.type := evalWith_typed hc hlabels hdef .none e he domain _ v hv
  refine ⟨htype, fun s hs => ?_⟩
  obtain ⟨y, hy⟩ := (plain_of_outcome hc hv).valueAt hs
  exact ⟨y, hy, (type_of_valueAt hy).trans htype⟩

/-- A checker that knows where `x = 1` and what `x + 1` is. -/
def counting : Checker :=
  { bare with definitions := { Definitions.empty with
    labels := [⟨"one", .binary .eq (.var "x" 0 .int) (.literal (.int 1))⟩]
    properties := [⟨"next", .binary .plus (.var "x" 0 .int) (.literal (.int 1))⟩] } }

end Checker

/-- `"one" ? next : x`, with a reference that says that the property is an integer. -/
def Expr.stepFromOne : Expr := .ite (.label "one") (.property "next" .int) (.var "x" 0 .int)

namespace Checker

theorem checkExpression_stepFromOne :
    outcome (counting.checkExpression .twoStates .stepFromOne none) .start = .ok ⟨.ints #[0, 2], none⟩ := by
  have hone : satisfying .whereOpen counting .twoStates .none none (.label "one") = return .singleton 1 := by
    unfold satisfying
    rw [evalWith_definedLabel .whereOpen counting .twoStates .none none rfl rfl rfl,
      evalWith_strict .whereOpen _ _ _ _ (by decide), evalWith_var, evalWith_literal]
    rfl
  rw [outcome_checkExpression]
  unfold Expr.stepFromOne
  rw [evalWith_ite, hone, pure_bind]
  unfold evalOver
  rw [evalWith_definedProperty .whereOpen counting .twoStates .none _ .int rfl rfl,
    evalWith_strict .whereOpen _ _ _ _ (by decide)]
  simp only [evalWith_var, evalWith_literal]
  rfl

/-- The conditional is a vector of integers, and an integer in the second state. -/
theorem checkExpression_typed_stepFromOne :
    StateVector.type ⟨.ints #[0, 2], none⟩ = Expr.stepFromOne.type ∧
      ∃ y, StateVector.valueAt ⟨.ints #[0, 2], none⟩ 1 = .ok y ∧ y.type = .int := by
  have hlabels : ∀ d ∈ counting.definitions.labels, d.body.type = .bool := by
    intro d hd
    rw [List.mem_singleton.mp hd]
    rfl
  have hdef : counting.definitions.Throughout counting.definitions.Declares := by
    simp [Definitions.Throughout, counting, Definitions.empty, Expr.throughout_iff, Expr.children, Definitions.Declares]
  have hnext : counting.definitions.Declares (.property "next" .int) := by
    rintro body ⟨⟩
    rfl
  have he : Expr.stepFromOne.Throughout counting.definitions.Declares := by
    simpa [Expr.stepFromOne, Expr.throughout_iff, Expr.children, Definitions.Declares] using hnext
  obtain ⟨htype, hvalues⟩ := checkExpression_typed counting .twoStates rfl hlabels hdef .stepFromOne he none .start _
    checkExpression_stepFromOne
  exact ⟨htype, hvalues 1 (by decide)⟩

end Checker

end Statewise
