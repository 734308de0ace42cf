import Statewise.Proofs.Sizes

/-!
# Vectors without accuracy

Only a solver says how accurate its values are. Without one no vector carries an accuracy, and no filter reports one:
what is tabulated has none, and the vector of a filter has the one of its operand or none.
-/

namespace Statewise

open Check StateVector

/-! ## Vectors -/

namespace StateVector

variable {v w u out : StateVector} {t : ValueType} {domain : Option StateSet}

theorem accuracy_constant (x : Value) (n : Nat) : (constant x n).accuracy = none := by
  cases x <;> rfl

theorem accuracy_map1 {f : Value → Except EvalError Value} (h : v.map1 t domain f = .ok out) :
    out.accuracy = v.accuracy := by
  obtain ⟨o, -, heq⟩ := Yields.bind_eq_ok.mp h
  cases heq
  rfl

theorem accuracy_map2 {f : Value → Value → Except EvalError Value} (h : v.map2 w t domain f = .ok out) :
    out.accuracy = none := by
  obtain ⟨_, -, ho⟩ := Yields.bind_eq_ok.mp h
  exact accuracy_tabulate ho

theorem accuracy_map3 {f : Value → Value → Value → Except EvalError Value} (h : u.map3 v w t domain f = .ok out) :
    out.accuracy = none := by
  obtain ⟨_, -, hrest⟩ := Yields.bind_eq_ok.mp h
  obtain ⟨_, -, ho⟩ := Yields.bind_eq_ok.mp hrest
  exact accuracy_tabulate ho

end StateVector

/-! ## Reductions -/

/-- Neither the vector nor the report has an accuracy. -/
structure Reduced.IsExact (r : Reduced) : Prop where
  vector : r.vector.accuracy = none
  report : r.accuracy = none

namespace Filter

variable {f : Filter} {settings : Settings} {m : Model} {s : Selection} {v : StateVector}

theorem reduceSingle_exact {value : Except EvalError Value} {explanation : String} :
    Ensures (reduceSingle m value none explanation) Reduced.IsExact := by
  unfold reduceSingle
  exact Ensures.next fun x => Ensures.next fun _ => Ensures.pure ⟨rfl, rfl⟩

theorem reduceExtreme_exact {kind : String} {extreme : Except EvalError Value} :
    Ensures (reduceExtreme settings m s v kind extreme) Reduced.IsExact := by
  unfold reduceExtreme
  refine Ensures.next fun x => Ensures.next fun _ => Ensures.next fun found => Ensures.next fun _ => ?_
  exact Ensures.pure ⟨rfl, rfl⟩

theorem reduceArgument_exact {capital kind : String} {extreme : Except EvalError Value} :
    Ensures (reduceArgument settings m s v capital kind extreme) Reduced.IsExact := by
  unfold reduceArgument
  refine Ensures.next fun x => Ensures.next fun _ => Ensures.next fun found => Ensures.next fun _ => ?_
  exact Ensures.pure ⟨rfl, rfl⟩

theorem reducePrint_exact (hv : v.accuracy = none) {includeZeros : Bool} :
    Ensures (reducePrint f m s v includeZeros) Reduced.IsExact := by
  have hlines : ∀ lines : List String, Ensures (do
      lines.forM message
      return Reduced.vectorOnly v) Reduced.IsExact := fun lines => Ensures.next fun _ => Ensures.pure ⟨hv, rfl⟩
  unfold reducePrint
  refine Ensures.next fun lines => Ensures.ite (fun _ => Ensures.ite (fun _ => ?_) fun _ => ?_) fun _ => ?_
  · exact Ensures.next fun _ => hlines lines
  · exact Ensures.next fun _ => hlines lines
  · exact Ensures.next fun _ => hlines lines

theorem reduceRange_exact (hv : v.accuracy = none) : Ensures (reduceRange s v) Reduced.IsExact := by
  unfold reduceRange
  exact Ensures.next fun (low, high) => Ensures.next fun _ => Ensures.pure ⟨hv, rfl⟩

theorem reduceForAll_exact : Ensures (reduceForAll m s v) Reduced.IsExact := by
  unfold reduceForAll
  split
  · exact Ensures.next fun _ => Ensures.pure ⟨accuracy_constant _ _, rfl⟩
  · exact Ensures.next fun holds => Ensures.next fun satisfied => Ensures.next fun _ => Ensures.pure ⟨rfl, rfl⟩

theorem reduceExists_exact : Ensures (reduceExists m s v) Reduced.IsExact := by
  unfold reduceExists
  exact Ensures.next fun holds => Ensures.next fun _ => Ensures.pure ⟨rfl, rfl⟩

/-- Only the filter for one state reports an accuracy, that of its operand. -/
theorem reduce_exact (hv : v.accuracy = none) : Ensures (f.reduce settings m s v) Reduced.IsExact := by
  obtain ⟨op, selector, invisible, explained⟩ := f
  unfold reduce
  cases op with
  | print => exact reducePrint_exact hv
  | printAll => exact reducePrint_exact hv
  | store => exact Ensures.next fun _ => Ensures.pure ⟨hv, rfl⟩
  | min => exact reduceExtreme_exact
  | max => exact reduceExtreme_exact
  | argmin => exact reduceArgument_exact
  | argmax => exact reduceArgument_exact
  | range => exact reduceRange_exact hv
  | forAll => exact reduceForAll_exact
  | thereIs => exact reduceExists_exact
  | state =>
    rw [hv]
    exact reduceSingle_exact
  | _ => exact reduceSingle_exact

end Filter

/-! ## Evaluation -/

namespace Checker

variable {c : Checker} {m : Model} {entered : Entered} {domain : Option StateSet}

/-- The vector of the expression has no accuracy, whatever the domain. -/
def Exact (c : Checker) (m : Model) (entered : Entered) (e : Expr) : Prop :=
  ∀ domain, Ensures (evalWith .whereOpen c m entered e domain) (·.accuracy = none)

theorem binary_exact (op : BinaryOp) (l r : Expr) : c.Exact m entered (.binary op l r) := by
  intro domain
  by_cases hop : op.isLazy = true
  · rw [evalWith_lazy c m entered domain hop]
    exact Ensures.next fun left => Ensures.next fun right => Ensures.pure rfl
  · rw [evalWith_strict .whereOpen c m entered domain fun h => hop h.2]
    exact Ensures.next fun lv => Ensures.next fun rv => Ensures.ofEval fun out hout => accuracy_map2 hout

theorem unary_exact {op : UnaryOp} {e : Expr} (he : c.Exact m entered e) : c.Exact m entered (.unary op e) := by
  intro domain
  by_cases hop : op = .parenth
  · rw [hop, evalWith_parenth]
    exact he domain
  · rw [evalWith_unary .whereOpen c m entered domain hop]
    exact Ensures.bind (he domain) fun v hv => Ensures.ofEval fun out hout => (accuracy_map1 hout).trans hv

theorem combineArgs_exact {f : Function} {t : ValueType} {args : List Expr} {acc : StateVector}
    (hacc : acc.accuracy = none) : Ensures (combineArgs .whereOpen c m entered f t acc args domain) (·.accuracy = none) := by
  induction args generalizing acc with
  | nil =>
    rw [combineArgs_nil]
    exact Ensures.pure hacc
  | cons a rest ih =>
    rw [combineArgs_cons]
    exact Ensures.next fun v => Ensures.bind (Ensures.ofEval fun out hout => accuracy_map2 hout) fun _ => ih

theorem call_exact (hc : c.solver = none) {f : Function} {args : List Expr}
    (hargs : ∀ a ∈ args, c.Exact m entered a) : c.Exact m entered (.call f args) := by
  intro domain
  by_cases hmulti : f = .multi
  · rw [hmulti, evalWith_multi_unsolved .whereOpen c m entered domain hc]
    exact Ensures.throw _
  · cases haccepts : f.accepts args.length with
    | false =>
      rw [evalWith_wrongArity .whereOpen c m entered domain hmulti haccepts]
      exact Ensures.throw _
    | true =>
      rcases Function.accepts_cases haccepts with ⟨hf, a, b, rest, rfl⟩ | ⟨hf, a, rfl⟩ | ⟨hf, a, b, rfl⟩
      · rw [evalWith_extremum .whereOpen c m entered domain hf]
        exact Ensures.bind (hargs a List.mem_cons_self domain) fun first => combineArgs_exact
      · rw [evalWith_rounding .whereOpen c m entered domain hf]
        exact Ensures.bind (hargs a List.mem_cons_self domain) fun v hv =>
          Ensures.ofEval fun out hout => (accuracy_map1 hout).trans hv
      · rw [evalWith_dyadic .whereOpen c m entered domain hf]
        exact Ensures.next fun v => Ensures.next fun w => Ensures.ofEval fun out hout => accuracy_map2 hout

theorem reduceOver_exact {f : Filter} {e : Expr} (he : c.Exact m entered e) (states : StateSet) :
    Ensures (reduceOver .whereOpen c m entered f e states) Reduced.IsExact := by
  unfold reduceOver
  exact Ensures.next fun selection => Ensures.bind (he _) fun v hv => Filter.reduce_exact hv

theorem filter_exact {op : FilterOp} {e : Expr} {p : Option Expr} {invisible explained : Bool}
    (he : c.Exact m entered e) : c.Exact m entered (.filter op e p invisible explained) := by
  intro domain
  rw [evalWith_filter]
  refine Ensures.next fun states => ?_
  rw [applyFilter_eq]
  refine Ensures.bind (reduceOver_exact he states) fun reduced hreduced => ?_
  refine Ensures.of_delivers (Filter.record_delivers _ c.settings _ reduced) fun w hw => ?_
  rw [hw]
  exact hreduced.vector

theorem lookupVector_exact (name : String) (t : ValueType) (value? : Nat → Option Value) :
    Ensures (lookupVector m name t domain value?) (·.accuracy = none) :=
  Ensures.ofExcept fun _ h => accuracy_tabulate h

theorem constantVector_exact (name : String) (t : ValueType) :
    Ensures (constantVector c m name t) (·.accuracy = none) := by
  unfold constantVector
  split
  · exact Ensures.throw _
  · split
    · exact Ensures.throw _
    · exact Ensures.pure (accuracy_constant _ _)

theorem observableVector_exact (name : String) (t : ValueType) :
    Ensures (observableVector c m name t domain) (·.accuracy = none) := by
  unfold observableVector
  split
  · exact Ensures.throw _
  · exact Ensures.ite (fun _ => lookupVector_exact name t _) fun _ => Ensures.throw _

/-- Evaluating an expression without a solver gives a vector without accuracy. -/
theorem evalWith_exact (hc : c.solver = none) (m : Model) (entered : Entered) (e : Expr) : c.Exact m entered e := by
  refine c.definitions.expansion_induction (P := c.Exact m) (fun entered e ih => ?_) entered e
  have hchild : ∀ a ∈ e.children, c.Exact m entered a :=
    fun a ha => ih (entered, a) (Definitions.mem_successors_of_child ha)
  cases e with
  | ite cond t e =>
    intro domain
    rw [evalWith_ite]
    exact Ensures.next fun holds => Ensures.next fun tv => Ensures.next fun ev =>
      Ensures.ofEval fun out hout => accuracy_map3 hout
  | binary op l r => exact binary_exact op l r
  | unary op e => exact unary_exact (hchild e List.mem_cons_self)
  | call f args => exact call_exact hc hchild
  | filter op e p invisible explained => exact filter_exact (hchild e List.mem_cons_self)
  | literal v =>
    intro domain
    rw [evalWith_literal]
    exact Ensures.pure (accuracy_constant v _)
  | constant name t =>
    intro domain
    rw [evalWith_constant]
    exact constantVector_exact name t
  | ident name t =>
    intro domain
    rw [evalWith_ident]
    exact Ensures.throw _
  | formula name d t =>
    intro domain
    cases d with
    | none =>
      rw [evalWith_unexpanded]
      exact Ensures.throw _
    | some d =>
      rw [evalWith_expanded]
      exact hchild d List.mem_cons_self domain
  | var name index t =>
    intro domain
    rw [evalWith_var]
    exact lookupVector_exact name t _
  | observable name t =>
    intro domain
    rw [evalWith_observable]
    exact observableVector_exact name t
  | label name =>
    intro domain
    exact label_ensures (fun states => rfl) fun body hd hn => ih _ (Definitions.mem_successors_of_label hd hn) domain
  | property name t =>
    intro domain
    exact property_ensures fun body hd hn => ih _ (Definitions.mem_successors_of_property hd hn) domain
  | quant measure query operand =>
    intro domain
    rw [evalWith_quant .whereOpen c m entered domain hc]
    exact Ensures.throw _
  | path op operands bound =>
    intro domain
    rw [evalWith_path]
    exact Ensures.throw _

end Checker

end Statewise
