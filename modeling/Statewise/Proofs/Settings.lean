import Statewise.Proofs.Stages
import Statewise.Proofs.Within

/-!
# Settings that evaluation does not read

Whether vectors are kept, whether models are minimised and by whom is decided when a check is prepared. Without a solver,
checkers that differ in these decisions only evaluate every expression by the same computation.
-/

namespace Statewise

/-- Settings that differ at most in what is done before an expression is evaluated. -/
structure Settings.Agree (s s' : Settings) : Prop where
  verbose : s'.verbose = s.verbose
  tolerance : s'.tolerance = s.tolerance
  maxShown : s'.maxShown = s.maxShown
  explanations : s'.explanations = s.explanations

namespace Filter

variable {settings settings' : Settings}

theorem reduce_settings (h : settings.Agree settings') (f : Filter) (m : Model) (s : Selection) (v : StateVector) :
    f.reduce settings' m s v = f.reduce settings m s v := by
  unfold reduce reduceExtreme reduceArgument matching showMatching
  rw [h.verbose, h.tolerance, h.maxShown]

theorem record_settings (h : settings.Agree settings') (f : Filter) (parameters : Option String) (r : Reduced) :
    f.record settings' parameters r = f.record settings parameters r := by
  unfold record
  rw [h.explanations]

end Filter

namespace Checker

/-- Checkers without a solver, with the same definitions, whose settings agree. -/
structure EvaluateAlike (c c' : Checker) : Prop where
  definitions : c'.definitions = c.definitions
  settings : c.settings.Agree c'.settings
  solver : c.solver = none
  solver' : c'.solver = none

variable {c c' : Checker} {m : Model} {entered : Entered} {domain : Option StateSet}

/-- The two evaluations of an expression are one computation, over every domain. -/
def SameEvaluation (c c' : Checker) (m : Model) (entered : Entered) (e : Expr) : Prop :=
  ∀ domain, evalWith .whereOpen c' m entered e domain = evalWith .whereOpen c m entered e domain

section

variable {e l r cond t : Expr}

theorem satisfying_same (he : SameEvaluation c c' m entered e) :
    satisfying .whereOpen c' m entered domain e = satisfying .whereOpen c m entered domain e := by
  unfold satisfying
  rw [he]

theorem evalOver_same (he : SameEvaluation c c' m entered e) (type : ValueType) (states : StateSet) :
    evalOver c' m entered e type states = evalOver c m entered e type states := by
  unfold evalOver
  rw [he]

theorem ite_same (hcond : SameEvaluation c c' m entered cond) (ht : SameEvaluation c c' m entered t)
    (he : SameEvaluation c c' m entered e) : SameEvaluation c c' m entered (.ite cond t e) := by
  intro domain
  rw [evalWith_ite, evalWith_ite, satisfying_same hcond]
  simp only [evalOver_same ht, evalOver_same he]

theorem binary_same {op : BinaryOp} (hl : SameEvaluation c c' m entered l) (hr : SameEvaluation c c' m entered r) :
    SameEvaluation c c' m entered (.binary op l r) := by
  intro domain
  by_cases hop : op.isLazy = true
  · rw [evalWith_lazy c' m entered domain hop, evalWith_lazy c m entered domain hop, satisfying_same hl]
    unfold satisfyingOver
    simp only [evalOver_same hr]
  · rw [evalWith_strict .whereOpen c' m entered domain fun h => hop h.2,
      evalWith_strict .whereOpen c m entered domain fun h => hop h.2, hl, hr]

theorem unary_same {op : UnaryOp} (he : SameEvaluation c c' m entered e) :
    SameEvaluation c c' m entered (.unary op e) := by
  intro domain
  by_cases hop : op = .parenth
  · rw [hop, evalWith_parenth, evalWith_parenth, he]
  · rw [evalWith_unary .whereOpen c' m entered domain hop, evalWith_unary .whereOpen c m entered domain hop, he]

theorem combineArgs_same {f : Function} {type : ValueType} {args : List Expr} {acc : StateVector}
    (hargs : ∀ a ∈ args, SameEvaluation c c' m entered a) :
    combineArgs .whereOpen c' m entered f type acc args domain =
      combineArgs .whereOpen c m entered f type acc args domain := by
  induction args generalizing acc with
  | nil => rw [combineArgs_nil, combineArgs_nil]
  | cons a rest ih =>
    rw [combineArgs_cons, combineArgs_cons, hargs a List.mem_cons_self]
    simp only [ih fun b hb => hargs b (List.mem_cons_of_mem a hb)]

theorem call_same (h : c.EvaluateAlike c') {f : Function} {args : List Expr}
    (hargs : ∀ a ∈ args, SameEvaluation c c' m entered a) : SameEvaluation c c' m entered (.call f args) := by
  intro domain
  by_cases hmulti : f = .multi
  · rw [hmulti, evalWith_multi_unsolved .whereOpen c' m entered domain h.solver',
      evalWith_multi_unsolved .whereOpen c m entered domain h.solver]
  · cases haccepts : f.accepts args.length with
    | false =>
      rw [evalWith_wrongArity .whereOpen c' m entered domain hmulti haccepts,
        evalWith_wrongArity .whereOpen c m entered domain hmulti haccepts]
    | true =>
      rcases Function.accepts_cases haccepts with ⟨hf, a, b, rest, rfl⟩ | ⟨hf, a, rfl⟩ | ⟨hf, a, b, rfl⟩
      · rw [evalWith_extremum .whereOpen c' m entered domain hf, evalWith_extremum .whereOpen c m entered domain hf,
          hargs a List.mem_cons_self]
        simp only [combineArgs_same fun d hd => hargs d (List.mem_cons_of_mem a hd)]
      · rw [evalWith_rounding .whereOpen c' m entered domain hf, evalWith_rounding .whereOpen c m entered domain hf,
          hargs a List.mem_cons_self]
      · rw [evalWith_dyadic .whereOpen c' m entered domain hf, evalWith_dyadic .whereOpen c m entered domain hf,
          hargs a List.mem_cons_self, hargs b (by simp)]

theorem selected_same {p : Option Expr} (hp : ∀ q ∈ p, SameEvaluation c c' m entered q) :
    selected .whereOpen c' m entered p = selected .whereOpen c m entered p := by
  cases p with
  | none => rfl
  | some q => exact satisfying_same (hp q rfl)

theorem applyFilter_same (h : c.EvaluateAlike c') {f : Filter} (he : SameEvaluation c c' m entered e)
    (states : StateSet) :
    applyFilter .whereOpen c' m entered f e states = applyFilter .whereOpen c m entered f e states := by
  unfold applyFilter
  simp only [he _, Filter.reduce_settings h.settings, Filter.record_settings h.settings, h.definitions]

theorem filter_same (h : c.EvaluateAlike c') {op : FilterOp} {p : Option Expr} {invisible explained : Bool}
    (he : SameEvaluation c c' m entered e) (hp : ∀ q ∈ p, SameEvaluation c c' m entered q) :
    SameEvaluation c c' m entered (.filter op e p invisible explained) := by
  intro domain
  rw [evalWith_filter, evalWith_filter, selected_same hp]
  simp only [applyFilter_same h he]

theorem constant_same (h : c.EvaluateAlike c') (name : String) (type : ValueType) :
    SameEvaluation c c' m entered (.constant name type) := by
  intro domain
  rw [evalWith_constant, evalWith_constant]
  unfold constantVector
  rw [h.definitions]

theorem observable_same (h : c.EvaluateAlike c') (name : String) (type : ValueType) :
    SameEvaluation c c' m entered (.observable name type) := by
  intro domain
  rw [evalWith_observable, evalWith_observable]
  unfold observableVector
  rw [h.definitions]

theorem label_same (h : c.EvaluateAlike c') {name : String}
    (hbody : ∀ body, c.definitions.label? name = some body → entered.labels.contains name = false →
      SameEvaluation c c' m (entered.label name) body) : SameEvaluation c c' m entered (.label name) := by
  intro domain
  cases hm : m.labelStates? name with
  | some states => rw [evalWith_attached .whereOpen c' m entered domain hm, evalWith_attached .whereOpen c m entered domain hm]
  | none =>
    cases hd : c.definitions.label? name with
    | none =>
      have hd' : c'.definitions.label? name = none := h.definitions ▸ hd
      rw [evalWith_builtin .whereOpen c' m entered domain hm hd', evalWith_builtin .whereOpen c m entered domain hm hd]
    | some body =>
      have hd' : c'.definitions.label? name = some body := h.definitions ▸ hd
      cases hn : entered.labels.contains name with
      | true =>
        rw [evalWith_cyclicLabel .whereOpen c' m entered domain hm hd' hn,
          evalWith_cyclicLabel .whereOpen c m entered domain hm hd hn]
      | false =>
        rw [evalWith_definedLabel .whereOpen c' m entered domain hm hd' hn,
          evalWith_definedLabel .whereOpen c m entered domain hm hd hn]
        exact hbody body hd hn domain

theorem property_same (h : c.EvaluateAlike c') {name : String} {type : ValueType}
    (hbody : ∀ body, c.definitions.property? name = some body → entered.properties.contains name = false →
      SameEvaluation c c' m (entered.property name) body) : SameEvaluation c c' m entered (.property name type) := by
  intro domain
  cases hd : c.definitions.property? name with
  | none =>
    have hd' : c'.definitions.property? name = none := h.definitions ▸ hd
    rw [evalWith_unknownProperty .whereOpen c' m entered domain type hd',
      evalWith_unknownProperty .whereOpen c m entered domain type hd]
  | some body =>
    have hd' : c'.definitions.property? name = some body := h.definitions ▸ hd
    cases hn : entered.properties.contains name with
    | true =>
      rw [evalWith_cyclicProperty .whereOpen c' m entered domain type hd' hn,
        evalWith_cyclicProperty .whereOpen c m entered domain type hd hn]
    | false =>
      rw [evalWith_definedProperty .whereOpen c' m entered domain type hd' hn,
        evalWith_definedProperty .whereOpen c m entered domain type hd hn, hbody body hd hn]

end

/-- Checkers that agree evaluate alike. -/
theorem evalWith_same (h : c.EvaluateAlike c') (m : Model) (entered : Entered) (e : Expr) :
    SameEvaluation c c' m entered e := by
  refine c.definitions.expansion_induction (P := SameEvaluation c c' m) (fun entered e ih => ?_) entered e
  have hchild : ∀ a ∈ e.children, SameEvaluation c c' m entered a :=
    fun a ha => ih (entered, a) (Definitions.mem_successors_of_child ha)
  cases e with
  | ite cond t e =>
    exact ite_same (hchild cond (by simp [Expr.children])) (hchild t (by simp [Expr.children]))
      (hchild e (by simp [Expr.children]))
  | binary op l r => exact binary_same (hchild l (by simp [Expr.children])) (hchild r (by simp [Expr.children]))
  | unary op e => exact unary_same (hchild e List.mem_cons_self)
  | call f args => exact call_same h hchild
  | filter op e p invisible explained =>
    exact filter_same h (hchild e List.mem_cons_self) fun q hq =>
      hchild q (List.mem_cons_of_mem e (Option.mem_toList.mpr hq))
  | literal v =>
    intro domain
    rw [evalWith_literal, evalWith_literal]
  | constant name t => exact constant_same h name t
  | ident name t =>
    intro domain
    rw [evalWith_ident, evalWith_ident]
  | formula name d t =>
    intro domain
    cases d with
    | none => rw [evalWith_unexpanded, evalWith_unexpanded]
    | some d =>
      rw [evalWith_expanded, evalWith_expanded]
      exact hchild d List.mem_cons_self domain
  | var name index t =>
    intro domain
    rw [evalWith_var, evalWith_var]
  | observable name t => exact observable_same h name t
  | label name => exact label_same h fun body hd hn => ih _ (Definitions.mem_successors_of_label hd hn)
  | property name t => exact property_same h fun body hd hn => ih _ (Definitions.mem_successors_of_property hd hn)
  | quant measure query operand =>
    intro domain
    rw [evalWith_quant .whereOpen c' m entered domain h.solver', evalWith_quant .whereOpen c m entered domain h.solver]
  | path op operands bound =>
    intro domain
    rw [evalWith_path, evalWith_path]

end Checker

end Statewise
