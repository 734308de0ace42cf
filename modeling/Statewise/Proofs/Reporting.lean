import Statewise.Proofs.Domain
import Statewise.Proofs.Widening

/-!
# Reported values

A check reports what the last filter has recorded. If a filter is evaluated last, because the expression is
one or a filter has been put around it, the value that is reported is everywhere in the vector. An operator
over filters reports the value of one of its operands instead.
-/

namespace Statewise

open Check StateVector

/-! ## Filters at the root -/

namespace Expr

/-- Whether the expression is a filter, perhaps in parentheses or as the definition of a formula. -/
def isFiltered : Expr → Bool
  | filter .. => true
  | unary .parenth e => e.isFiltered
  | formula _ (some d) _ => d.isFiltered
  | _ => false

theorem not_isProposition_of_isFiltered {e : Expr} (he : e.isFiltered = true) : e.isProposition = false := by
  match e with
  | filter .. => rfl
  | unary .parenth e => exact not_isProposition_of_isFiltered (e := e) he
  | formula _ (some d) _ => exact not_isProposition_of_isFiltered (e := d) he

mutual

/-- The filters that the operators of an expression are applied to. -/
def filters : Expr → List Expr
  | filter op e p invisible explained => [filter op e p invisible explained]
  | ite c t e => c.filters ++ t.filters ++ e.filters
  | binary _ l r => l.filters ++ r.filters
  | unary _ e => e.filters
  | call _ args => filtersOf args
  | formula _ (some d) _ => d.filters
  | _ => []

def filtersOf : List Expr → List Expr
  | [] => []
  | e :: es => e.filters ++ filtersOf es

end

theorem mem_filtersOf {es : List Expr} {g : Expr} : g ∈ filtersOf es ↔ ∃ e ∈ es, g ∈ e.filters := by
  induction es with
  | nil => simp [filtersOf]
  | cons e es ih => simp [filtersOf, ih]

theorem areSingleValued_iff {es : List Expr} : areSingleValued es = true ↔ ∀ e ∈ es, e.isSingleValued = true := by
  induction es with
  | nil => simp [areSingleValued]
  | cons e es ih => simp [areSingleValued, ih]

end Expr

namespace Filter

variable {f : Filter} {settings : Settings} {m : Model} {s : Selection} {v : StateVector}

/-- The answer that a filter records. -/
def answer (f : Filter) (settings : Settings) (parameters : Option String) (reduced : Reduced)
    (stored : Option StateVector) : Answer :=
  ⟨reduced.value, reduced.accuracy,
    if settings.explanations && f.explained then reduced.explanation.map (·.toLower) else none, stored, parameters⟩

theorem answer_record (parameters : Option String) (reduced : Reduced) (r : Run) :
    (after (f.record settings parameters reduced) r).answer =
      f.answer settings parameters reduced r.answer.vector := rfl

/-- A single value that is reported is everywhere in the vector. -/
theorem Origin.single_of_value {reduced : Reduced} {states : StateSet} {x : Value}
    (horigin : Origin m.numStates states v reduced) (hx : reduced.value = some (.value x)) :
    ∃ accuracy, reduced.vector = (StateVector.constant x m.numStates).withAccuracy accuracy := by
  cases horigin with
  | kept value accuracy explanation h => exact absurd hx (h x)
  | single y accuracy explanation =>
    cases hx
    exact ⟨accuracy, rfl⟩
  | frontier points => cases hx
  | matching found h => cases hx

end Filter

namespace Checker

variable {st : Strategy} {c : Checker} {m : Model} {entered : Entered} {domain : Option StateSet} {r : Run}

/-- What a filter reports over some states is everywhere in the vector that it yields. -/
theorem reduceOver_single (f : Filter) (e : Expr) (states : StateSet) :
    Ensures (reduceOver st c m entered f e states) fun reduced => ∀ x, reduced.value = some (.value x) →
      ∃ accuracy, reduced.vector = (StateVector.constant x m.numStates).withAccuracy accuracy := by
  unfold reduceOver
  refine Ensures.next fun selection => Ensures.next fun v => ?_
  exact Ensures.of_delivers (f.reduce_delivers m c.settings selection v) fun reduced h x => h.single_of_value

/-- A filter that succeeds has selected states and reduced the vector of its operand over them; what it reports is what
this reduction yields. -/
theorem filter_eq_ok {op : FilterOp} {e : Expr} {p : Option Expr} {invisible explained : Bool} {w : StateVector}
    (h : outcome (evalWith st c m entered (.filter op e p invisible explained) domain) r = .ok w) :
    ∃ states reduced r₁ r₂, outcome (selected st c m entered p) r₁ = .ok states ∧
      outcome (reduceOver st c m entered ⟨op, p, invisible, explained⟩ e states) r₂ = .ok reduced ∧
      w = reduced.vector ∧
      (after (evalWith st c m entered (.filter op e p invisible explained) domain) r).answer =
        Filter.answer ⟨op, p, invisible, explained⟩ c.settings c.definitions.parameters reduced
          (after (reduceOver st c m entered ⟨op, p, invisible, explained⟩ e states) r₂).answer.vector := by
  rw [evalWith_filter] at h ⊢
  obtain ⟨states, hstates, h⟩ := outcome_bind_eq_ok.mp h
  rw [after_bind_ok hstates]
  rw [applyFilter_eq] at h ⊢
  obtain ⟨reduced, hreduced, h⟩ := outcome_bind_eq_ok.mp h
  rw [after_bind_ok hreduced]
  have hvector := (Filter.record_delivers _ c.settings c.definitions.parameters reduced).spec _ w h
  exact ⟨states, reduced, r, _, hstates, hreduced, hvector, Filter.answer_record _ _ _⟩

/-- The other way round, for a selection and a reduction that do not depend on the run. -/
theorem filter_of_reduceOver {op : FilterOp} {e : Expr} {p : Option Expr} {invisible explained : Bool}
    {states : StateSet} {reduced : Reduced} (hstates : ∀ r, outcome (selected st c m entered p) r = .ok states)
    (hreduced : ∀ r, outcome (reduceOver st c m entered ⟨op, p, invisible, explained⟩ e states) r = .ok reduced)
    (domain : Option StateSet) (r : Run) :
    ∃ stored r', evalWith st c m entered (.filter op e p invisible explained) domain r = (.ok reduced.vector, r') ∧
      r'.answer = Filter.answer ⟨op, p, invisible, explained⟩ c.settings c.definitions.parameters reduced stored := by
  rw [evalWith_filter, run_bind_ok (hstates r), applyFilter_eq, run_bind_ok (hreduced _)]
  exact ⟨_, _, rfl, rfl⟩

/-- What the evaluation of a filter leaves behind is everywhere in its vector. -/
theorem evalWith_single {e : Expr} (he : e.isFiltered = true) {w : StateVector} {x : Value}
    (hw : outcome (evalWith st c m entered e domain) r = .ok w)
    (hx : (after (evalWith st c m entered e domain) r).answer.value = some (.value x)) :
    ∃ accuracy, w = (StateVector.constant x m.numStates).withAccuracy accuracy := by
  match e with
  | .filter op e p invisible explained =>
    obtain ⟨states, reduced, r₁, r₂, -, hreduced, rfl, hanswer⟩ := filter_eq_ok hw
    rw [hanswer] at hx
    exact reduceOver_single _ e states r₂ reduced hreduced x hx
  | .unary .parenth e =>
    rw [evalWith_parenth] at hw hx
    exact evalWith_single (e := e) he hw hx
  | .formula name (some d) t =>
    rw [evalWith_expanded] at hw hx
    exact evalWith_single (e := d) he hw hx

/-! ## Operators over filters -/

/-- If the computation succeeds, then what held of the answer before holds of it afterwards. -/
def Keeps (P : Answer → Prop) {α : Type} (x : Check α) : Prop :=
  ∀ r, P r.answer → ∀ a, outcome x r = .ok a → P (after x r).answer

namespace Keeps

variable {α β : Type} {P : Answer → Prop}

/-- A computation that leaves the answer alone. -/
theorem of_answer {x : Check α} (hx : ∀ r, (after x r).answer = r.answer) : Keeps P x := by
  intro r hr a _
  rw [hx r]
  exact hr

theorem pure (a : α) : Keeps P (Pure.pure a : Check α) := of_answer fun _ => rfl

theorem ofEval (x : Except EvalError α) : Keeps P (Check.ofEval x) := of_answer fun r => by rw [after_ofEval]

theorem throw (e : CheckError) : Keeps P (MonadExcept.throw e : Check α) := of_answer fun _ => rfl

theorem bind {x : Check α} {f : α → Check β} (hx : Keeps P x) (hf : ∀ a, Keeps P (f a)) : Keeps P (x >>= f) := by
  intro r hr b hb
  obtain ⟨a, ha, hb⟩ := outcome_bind_eq_ok.mp hb
  rw [after_bind_ok ha]
  exact hf a _ (hx r hr a ha) b hb

theorem ite {x y : Check α} {p : Prop} [Decidable p] (hx : Keeps P x) (hy : Keeps P y) :
    Keeps P (if p then x else y) := by
  by_cases h : p
  · rw [if_pos h]
    exact hx
  · rw [if_neg h]
    exact hy

end Keeps

section

variable {P : Answer → Prop}

/-- The same for the evaluation of an expression over every domain. -/
def KeepsOver (P : Answer → Prop) (c : Checker) (m : Model) (entered : Entered) (e : Expr) : Prop :=
  ∀ domain, Keeps P (evalWith .whereOpen c m entered e domain)

theorem satisfying_keeps {e : Expr} (he : KeepsOver P c m entered e) :
    Keeps P (satisfying .whereOpen c m entered domain e) := (he domain).bind fun _ => .ofEval _

theorem evalOver_keeps {e : Expr} {t : ValueType} {states : StateSet} (he : KeepsOver P c m entered e) :
    Keeps P (evalOver c m entered e t states) := .ite (.pure _) (he _)

theorem constantVector_keeps (name : String) (t : ValueType) : Keeps P (constantVector c m name t) := by
  unfold constantVector
  split
  · exact .throw _
  · split
    · exact .throw _
    · exact .pure _

theorem combineArgs_keeps {f : Function} {t : ValueType} {args : List Expr} {acc : StateVector}
    (hargs : ∀ a ∈ args, KeepsOver P c m entered a) :
    Keeps P (combineArgs .whereOpen c m entered f t acc args domain) := by
  induction args generalizing acc with
  | nil =>
    rw [combineArgs_nil]
    exact .pure acc
  | cons a rest ih =>
    rw [combineArgs_cons]
    refine (hargs a List.mem_cons_self domain).bind fun v => Keeps.bind (.ofEval _) fun acc' => ?_
    exact ih fun b hb => hargs b (List.mem_cons_of_mem a hb)

theorem call_keeps {f : Function} {args : List Expr} (hmulti : f ≠ .multi)
    (hargs : ∀ a ∈ args, KeepsOver P c m entered a) : KeepsOver P c m entered (.call f args) := by
  intro domain
  cases haccepts : f.accepts args.length with
  | false =>
    rw [evalWith_wrongArity .whereOpen c m entered domain hmulti haccepts]
    exact .throw _
  | true =>
    rcases Function.accepts_cases haccepts with ⟨hkind, a, b, rest, rfl⟩ | ⟨hkind, a, rfl⟩ | ⟨hkind, a, b, rfl⟩
    · rw [evalWith_extremum .whereOpen c m entered domain hkind]
      refine (hargs a List.mem_cons_self domain).bind fun v => ?_
      exact combineArgs_keeps fun d hd => hargs d (List.mem_cons_of_mem a hd)
    · rw [evalWith_rounding .whereOpen c m entered domain hkind]
      exact (hargs a List.mem_cons_self domain).bind fun v => .ofEval _
    · rw [evalWith_dyadic .whereOpen c m entered domain hkind]
      refine (hargs a List.mem_cons_self domain).bind fun v => ?_
      exact (hargs b (by simp) domain).bind fun w => .ofEval _

/-- The evaluation of an answer by itself keeps what its filters keep. -/
theorem evalWith_keeps {e : Expr} (he : e.isSingleValued = true)
    (hfilters : ∀ {op a p invisible explained}, .filter op a p invisible explained ∈ e.filters →
      KeepsOver P c m entered (.filter op a p invisible explained)) : KeepsOver P c m entered e := by
  intro domain
  match e with
  | .literal v =>
    rw [evalWith_literal]
    exact .pure _
  | .constant name t =>
    rw [evalWith_constant]
    exact constantVector_keeps name t
  | .filter op e p invisible explained => exact hfilters List.mem_cons_self domain
  | .ite cond t e =>
    simp only [Expr.isSingleValued, Bool.and_eq_true] at he
    simp only [Expr.filters, List.mem_append] at hfilters
    have hcond : KeepsOver P c m entered cond := evalWith_keeps he.1.1 fun hg => hfilters (Or.inl (Or.inl hg))
    have ht : KeepsOver P c m entered t := evalWith_keeps he.1.2 fun hg => hfilters (Or.inl (Or.inr hg))
    have he : KeepsOver P c m entered e := evalWith_keeps he.2 fun hg => hfilters (Or.inr hg)
    rw [evalWith_ite]
    refine (satisfying_keeps hcond).bind fun holds => (evalOver_keeps ht).bind fun tv => ?_
    exact (evalOver_keeps he).bind fun ev => .ofEval _
  | .binary op l r =>
    simp only [Expr.isSingleValued, Bool.and_eq_true] at he
    simp only [Expr.filters, List.mem_append] at hfilters
    have hl : KeepsOver P c m entered l := evalWith_keeps he.1 fun hg => hfilters (Or.inl hg)
    have hr : KeepsOver P c m entered r := evalWith_keeps he.2 fun hg => hfilters (Or.inr hg)
    by_cases hop : op.isLazy = true
    · rw [evalWith_lazy c m entered domain hop]
      refine (satisfying_keeps hl).bind fun left => Keeps.bind ?_ fun right => .pure _
      exact (evalOver_keeps hr).bind fun _ => .ofEval _
    · rw [evalWith_strict .whereOpen c m entered domain fun h => hop h.2]
      exact (hl domain).bind fun lv => (hr domain).bind fun rv => .ofEval _
  | .unary op e =>
    have he : KeepsOver P c m entered e := evalWith_keeps (e := e) he hfilters
    by_cases hop : op = .parenth
    · rw [hop, evalWith_parenth]
      exact he domain
    · rw [evalWith_unary .whereOpen c m entered domain hop]
      exact (he domain).bind fun v => .ofEval _
  | .call f args =>
    simp only [Expr.isSingleValued, Bool.and_eq_true] at he
    have hargs : ∀ a ∈ args, a.isSingleValued = true := Expr.areSingleValued_iff.mp he.2
    refine call_keeps (by simpa using he.1) (fun a ha => ?_) domain
    exact evalWith_keeps (hargs a ha) fun hg => hfilters (Expr.mem_filtersOf.mpr ⟨a, ha, hg⟩)
  | .formula name (some d) t =>
    rw [evalWith_expanded]
    exact evalWith_keeps (e := d) he hfilters domain

end

/-- The filters of an expression that is evaluated: a value in the answer is that of one of them, from some run
on. -/
def ReportedBy (c : Checker) (m : Model) (fs : List Expr) (answer : Answer) : Prop :=
  ∀ x, answer.value = some (.value x) → ∃ g ∈ fs, ∃ r₀ accuracy,
    outcome (evalWith .whereOpen c m .none g none) r₀ =
      .ok ((StateVector.constant x m.numStates).withAccuracy accuracy)

theorem filter_reports {fs : List Expr} {op : FilterOp} {e : Expr} {p : Option Expr} {invisible explained : Bool}
    (hmem : .filter op e p invisible explained ∈ fs) :
    KeepsOver (ReportedBy c m fs) c m .none (.filter op e p invisible explained) := by
  intro domain r _ w hw x hx
  obtain ⟨accuracy, hvector⟩ := evalWith_single rfl hw hx
  refine ⟨_, hmem, r, accuracy, ?_⟩
  rw [← hvector, ← hw, evalWith_filter, evalWith_filter]

/-! ## What is evaluated -/

/-- Replacing state formulas leaves a filter a filter. -/
theorem extractFrom_isFiltered {found found' : Found} {e e' : Expr} (he : e.isFiltered = true)
    (h : outcome (extractFrom st c m entered found e) r = .ok (e', found')) : e'.isFiltered = true := by
  -- A filter is no proposition, so its parts are replaced and not the whole.
  have hprop : ¬(e.type = .bool ∧ e.isProposition = true) := fun hp => by
    rw [Expr.not_isProposition_of_isFiltered he] at hp
    exact Bool.false_ne_true hp.2
  match e with
  | .filter op e p invisible explained =>
    rw [extractFrom_children _ _ _ _ _ hprop (fun _ _ h => Expr.noConfusion h), extractFromChildren_filter] at h
    obtain ⟨⟨operand, found₁⟩, -, h⟩ := outcome_bind_eq_ok.mp h
    obtain ⟨⟨selector, found₂⟩, -, h⟩ := outcome_bind_eq_ok.mp h
    cases h
    rfl
  | .unary .parenth e =>
    rw [extractFrom_children _ _ _ _ _ hprop (fun _ _ h => Expr.noConfusion h), extractFromChildren_unary] at h
    obtain ⟨⟨operand, found₁⟩, hoperand, h⟩ := outcome_bind_eq_ok.mp h
    cases h
    have hroot : operand.isFiltered = true := extractFrom_isFiltered (e := e) he hoperand
    exact hroot
  | .formula name (some d) t =>
    rw [extractFrom_children _ _ _ _ _ hprop (fun _ _ h => Expr.noConfusion h), extractFromChildren_expanded] at h
    obtain ⟨⟨body, found₁⟩, hbody, h⟩ := outcome_bind_eq_ok.mp h
    cases h
    have hroot : body.isFiltered = true := extractFrom_isFiltered (e := d) he hbody
    exact hroot

/-- A filter is put around an expression, unless the expression is an answer by itself. -/
theorem prepared_isFiltered {e : Expr}
    (he : e.isSingleValued = false ∨ c.settings.storeVector = true ∨ e.isFiltered = true) :
    (c.prepared m e).isFiltered = true := by
  unfold prepared withDefaultFilter
  by_cases hstore : c.settings.storeVector = true
  · rw [if_pos hstore]
    rfl
  · rw [if_neg hstore]
    cases hsingle : e.isSingleValued with
    | false => rfl
    | true =>
      rw [if_pos rfl]
      rcases he with h | h | h
      · rw [hsingle] at h
        cases h
      · exact absurd h hstore
      · exact h

theorem minimised_off {e : Expr} (hminimise : c.settings.minimise = false) : c.minimised m e = pure (m, e) := by
  unfold minimised
  rw [hminimise]
  rfl

/-- What is checked after minimisation is a filter if it was one before. -/
theorem minimised_isFiltered {e e' : Expr} {m' : Model} (he : e.isFiltered = true)
    (h : outcome (c.minimised m e) r = .ok (m', e')) : e'.isFiltered = true := by
  unfold minimised at h
  by_cases hminimise : c.settings.minimise = true
  · rw [hminimise, Bool.not_true, if_neg Bool.false_ne_true] at h
    cases hm : c.minimiser with
    | none =>
      rw [hm] at h
      cases h
      exact he
    | some minimiser =>
      rw [hm] at h
      obtain ⟨⟨e₁, labels⟩, hextract, h⟩ := outcome_bind_eq_ok.mp h
      obtain ⟨-, -, h⟩ := outcome_bind_eq_ok.mp h
      obtain ⟨m₁, -, h⟩ := outcome_bind_eq_ok.mp h
      cases h
      obtain ⟨-, -, hextract⟩ := outcome_bind_eq_ok.mp hextract
      exact extractFrom_isFiltered he hextract
  · rw [Bool.eq_false_of_not_eq_true hminimise] at h
    cases h
    exact he

/-- A successful check is a successful evaluation from a fresh start, and what it reports is what this
evaluation leaves behind. -/
theorem check_eq_ok {e : Expr} {o : Outcome} (h : outcome (c.check m e) r = .ok o) :
    ∃ m' e' r₁, outcome (c.minimised m (c.prepared m e)) r = .ok (m', e') ∧
      r₁.answer = .none c.definitions.parameters ∧ r₁.hint = none ∧
      outcome (evalWith .whereOpen c m' .none e' none) r₁ = .ok o.values ∧
      o.answer = (after (evalWith .whereOpen c m' .none e' none) r₁).answer := by
  obtain ⟨⟨m', e'⟩, hminimised, h⟩ := outcome_bind_eq_ok.mp h
  obtain ⟨-, -, h⟩ := outcome_bind_eq_ok.mp h
  obtain ⟨values, hvalues, h⟩ := outcome_bind_eq_ok.mp h
  cases h
  exact ⟨m', e', _, hminimised, rfl, rfl, hvalues, rfl⟩

/-- A check without minimisation evaluates what was prepared. -/
theorem eval_of_check {e : Expr} (hminimise : c.settings.minimise = false) {o : Outcome}
    (h : outcome (c.check m e) r = .ok o) :
    ∃ r₁, outcome (evalWith .whereOpen c m .none (c.prepared m e) none) r₁ = .ok o.values ∧
      o.answer = (after (evalWith .whereOpen c m .none (c.prepared m e) none) r₁).answer := by
  obtain ⟨m', e', r₁, hminimised, -, -, hvalues, hanswer⟩ := check_eq_ok h
  rw [minimised_off hminimise] at hminimised
  cases hminimised
  exact ⟨r₁, hvalues, hanswer⟩

/-! ## What is reported -/

/-- The evaluation of an answer by itself, from a fresh start, reports the value of one of its filters. -/
theorem exists_filter_of_answer {e : Expr} {v : StateVector} {x : Value} {parameters : Option String}
    (he : e.isSingleValued = true) (hfresh : r.answer = .none parameters)
    (hv : outcome (evalWith .whereOpen c m .none e none) r = .ok v)
    (hx : (after (evalWith .whereOpen c m .none e none) r).answer.value = some (.value x)) :
    ∃ g ∈ e.filters, ∃ r₀ accuracy, outcome (evalWith .whereOpen c m .none g none) r₀ =
      .ok ((StateVector.constant x m.numStates).withAccuracy accuracy) := by
  have hstart : ReportedBy c m e.filters r.answer := by
    intro y hy
    rw [hfresh] at hy
    cases hy
  exact evalWith_keeps he (fun hg => filter_reports hg) none r hstart v hv x hx

/-- A value that is reported is the value of a filter in the expression that is evaluated, one that operators
may be applied to. If the expression is no answer by itself, or its vector is to be kept, or it is a filter, or
there is no filter in what is evaluated, then it is the value of the expression in every state that a set of
states can hold. -/
theorem check_reports_value (c : Checker) (m : Model) (e : Expr) (r : Run) (o : Outcome) (x : Value)
    (ho : outcome (c.check m e) r = .ok o) (hx : o.answer.value = some (.value x)) :
    (∀ m' e', outcome (c.minimised m (c.prepared m e)) r = .ok (m', e') → e'.isSingleValued = true →
      ∃ g ∈ e'.filters, ∃ r₀ accuracy, outcome (evalWith .whereOpen c m' .none g none) r₀ =
        .ok ((StateVector.constant x m'.numStates).withAccuracy accuracy)) ∧
    ((e.isSingleValued = false ∨ c.settings.storeVector = true ∨ e.isFiltered = true ∨
        ∀ m' e', outcome (c.minimised m (c.prepared m e)) r = .ok (m', e') →
          e'.isSingleValued = true ∧ e'.filters = []) →
      (x = .bool true → o.values.size < stateLimit) →
      ∀ s < o.values.size, ∃ y, o.values.valueAt s = .ok y ∧ y.same x = true) := by
  obtain ⟨m', e', r₁, hminimised, hfresh, -, hvalues, hanswer⟩ := check_eq_ok ho
  rw [hanswer] at hx
  refine ⟨fun m₂ e₂ h hsingle => ?_, fun he hn s hs => ?_⟩
  · rw [hminimised] at h
    cases h
    exact exists_filter_of_answer hsingle hfresh hvalues hx
  · have hfiltered : e'.isFiltered = true := by
      by_cases hroot : e.isSingleValued = false ∨ c.settings.storeVector = true ∨ e.isFiltered = true
      · exact minimised_isFiltered (prepared_isFiltered hroot) hminimised
      -- Nothing can be reported if there is no filter.
      · obtain ⟨hsingle, hfilters⟩ : e'.isSingleValued = true ∧ e'.filters = [] := by
          rcases he with h | h | h | h
          · exact absurd (Or.inl h) hroot
          · exact absurd (Or.inr (Or.inl h)) hroot
          · exact absurd (Or.inr (Or.inr h)) hroot
          · exact h m' e' hminimised
        obtain ⟨g, hg, -⟩ := exists_filter_of_answer hsingle hfresh hvalues hx
        rw [hfilters] at hg
        cases hg
    obtain ⟨accuracy, hvector⟩ := evalWith_single hfiltered hvalues hx
    have hsize : o.values.size = m'.numStates := by
      rw [hvector]
      exact (isPlain_constant x m'.numStates).1
    refine ⟨x, ?_, Value.same_self x⟩
    rw [hvector, valueAt_withAccuracy]
    rw [hsize] at hn hs
    exact valueAt_constant hn hs

/-! ### A sum and the successor of a sum -/

/-- The sum of a variable over all states. -/
def sumOfVar : Expr := .filter .sum (.var "x" 0 .int) none false true

theorem evalWith_sumOfVar (r : Run) :
    ∃ r', evalWith .whereOpen bare .twoStates .none sumOfVar none r = (.ok ⟨.ints #[1, 1], none⟩, r') ∧
      r'.answer.value = some (.value (.int 1)) := by
  unfold sumOfVar
  rw [evalWith_filter]
  unfold selected applyFilter
  simp only [evalWith_var]
  exact ⟨_, rfl, rfl⟩

/-- A check, put together from the run of its evaluation. -/
theorem check_of_minimised {e e' : Expr} {m' : Model} {v : StateVector} {r' : Run}
    (hminimised : outcome (c.minimised m (c.prepared m e)) r = .ok (m', e'))
    (h : evalWith .whereOpen c m' .none e' none
      (after (Check.restart c.definitions.parameters) (after (c.minimised m (c.prepared m e)) r)) = (.ok v, r')) :
    outcome (c.check m e) r = .ok ⟨v, r'.answer, r'.hint⟩ := by
  unfold check
  rw [outcome_bind_ok hminimised]
  simp only
  rw [outcome_bind_ok (outcome_restart _ _)]
  show outcome (evalWith .whereOpen c m' .none e' none >>= _) _ = _
  rw [outcome_bind_ok (congrArg Prod.fst h), show after _ _ = r' from congrArg Prod.snd h]
  rfl

/-- Without minimisation what was prepared is evaluated. -/
theorem check_of_eval {e : Expr} {v : StateVector} {r' : Run} (hminimise : c.settings.minimise = false)
    (h : evalWith .whereOpen c m .none (c.prepared m e) none (after (Check.restart c.definitions.parameters) r) =
      (.ok v, r')) :
    outcome (c.check m e) r = .ok ⟨v, r'.answer, r'.hint⟩ := by
  have hminimised := minimised_off (m := m) (e := c.prepared m e) hminimise
  refine check_of_minimised (by rw [hminimised]; rfl) ?_
  rw [hminimised]
  exact h

/-- The sum is reported as it is. -/
theorem check_reports_value_sum :
    ∃ o, outcome (bare.check .twoStates sumOfVar) .start = .ok o ∧ o.answer.value = some (.value (.int 1)) ∧
      (∃ g ∈ sumOfVar.filters, ∃ r₀ accuracy, outcome (evalWith .whereOpen bare .twoStates .none g none) r₀ =
        .ok ((StateVector.constant (.int 1) 2).withAccuracy accuracy)) ∧
      ∀ s < 2, ∃ y, o.values.valueAt s = .ok y ∧ y.same (.int 1) = true := by
  obtain ⟨r', h, hx⟩ := evalWith_sumOfVar (after (Check.restart none) .start)
  have ho : outcome (bare.check .twoStates sumOfVar) .start = .ok ⟨⟨.ints #[1, 1], none⟩, r'.answer, r'.hint⟩ :=
    check_of_eval rfl h
  have hreports := check_reports_value bare .twoStates sumOfVar .start _ (.int 1) ho hx
  exact ⟨_, ho, hx, hreports.1 _ _ rfl rfl, hreports.2 (Or.inr (Or.inr (Or.inl rfl))) fun h => by cases h⟩

/-- The sum is reported also in place of its successor. -/
theorem check_misreports_successor :
    ∃ o, outcome (bare.check .twoStates (.binary .plus sumOfVar (.literal (.int 1)))) .start = .ok o ∧
      o.answer.value = some (.value (.int 1)) ∧ o.values.valueAt 0 = .ok (.int 2) ∧
      (Value.int 2).same (.int 1) = false := by
  have heval : ∀ r, ∃ r',
      evalWith .whereOpen bare .twoStates .none (.binary .plus sumOfVar (.literal (.int 1))) none r =
        (.ok ⟨.ints #[2, 2], none⟩, r') ∧ r'.answer.value = some (.value (.int 1)) := by
    intro r
    obtain ⟨r', h, hx⟩ := evalWith_sumOfVar r
    refine ⟨r', ?_, hx⟩
    rw [evalWith_strict .whereOpen bare .twoStates .none none (by decide), evalWith_literal,
      run_bind_ok (congrArg Prod.fst h), show after _ _ = r' from congrArg Prod.snd h]
    rfl
  obtain ⟨r', h, hx⟩ := heval (after (Check.restart none) .start)
  exact ⟨_, check_of_eval rfl h, hx, rfl, rfl⟩

end Checker

end Statewise
