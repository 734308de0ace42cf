import Statewise.Proofs.Reporting
import Statewise.Proofs.Selecting
import Statewise.Proofs.Typing

/-!
# Default filters

An expression that is no answer by itself is put under a filter over the initial states. What is reported then is about
the values that the expression has in these states when it is evaluated over all states: whether they all hold, the value
in the only one, or the range of the values. Without an initial state there is no answer. The filter for one state is
taken only if there is one, so it never complains about several.
-/

namespace Statewise

open Check StateVector

theorem StateSet.exists_only {a : StateSet} (h : a.size = 1) : ∃ s, ∀ t, t ∈ a ↔ t = s := by
  obtain ⟨s, hs⟩ := List.length_eq_one_iff.mp h
  refine ⟨s, fun t => ?_⟩
  show t ∈ a.toList ↔ t = s
  rw [hs, List.mem_singleton]

/-- Among integers the least and the greatest value are bounds in the order of the integers. -/
theorem StateVector.int_bounds {v : StateVector} {states : StateSet} {low high : Value} (htype : v.type = .int)
    (hentry : ∀ s ∈ states, ∃ y, v.valueAt s = .ok y) (hlow : v.HasLeast states low)
    (hhigh : v.HasGreatest states high) :
    ∃ least greatest : Int64, low = .int least ∧ high = .int greatest ∧
      ∀ s ∈ states, ∃ k : Int64, v.valueAt s = .ok (.int k) ∧ least ≤ k ∧ k ≤ greatest := by
  have hint : ∀ {s x}, v.valueAt s = .ok x → ∃ k, x = .int k := by
    intro s x hx
    have hxtype := (type_of_valueAt hx).trans htype
    cases x with
    | int k => exact ⟨k, rfl⟩
    | _ => cases hxtype
  obtain ⟨s, -, hs⟩ := hlow.attained
  obtain ⟨t, -, ht⟩ := hhigh.attained
  obtain ⟨least, rfl⟩ := hint hs
  obtain ⟨greatest, rfl⟩ := hint ht
  refine ⟨least, greatest, rfl, rfl, fun i hi => ?_⟩
  obtain ⟨y, hy⟩ := hentry i hi
  obtain ⟨k, rfl⟩ := hint hy
  exact ⟨k, hy, Int64.not_lt.mp (hlow.least i hi _ hy), Int64.not_lt.mp (hhigh.greatest i hi _ hy)⟩

namespace Checker

variable {c : Checker} {m : Model} {e : Expr} {r : Run}

/-! ## The initial states -/

/-- The label of the initial states selects them, if neither the model nor a definition gives it another meaning. That
the initial states are states holds of every model that is built (`Model.Changes.wellFormed`). -/
theorem selected_initial (hn : m.numStates < stateLimit) (hinitial : ∀ s ∈ m.initial, s < m.numStates)
    (hmodel : m.labelStates? Expr.initName = none) (hlist : c.definitions.label? Expr.initName = none)
    (entered : Entered) (r : Run) :
    outcome (selected .whereOpen c m entered (some (.label Expr.initName))) r = .ok m.initial := by
  have hstates : StateSet.ofList ((List.range m.numStates).filter m.isInitial) = m.initial := by
    refine StateSet.ext fun s => ?_
    rw [StateSet.mem_ofList]
    have hindex : ∀ i < m.numStates, StateSet.index i = i :=
      fun i hi => StateSet.index_of_lt (Nat.lt_trans hi hn)
    constructor
    · rintro ⟨i, hi, rfl⟩
      obtain ⟨hlt, hcontains⟩ := List.mem_filter.mp hi
      have hmem := StateSet.contains_iff.mp hcontains
      rwa [hindex i (List.mem_range.mp hlt)] at hmem ⊢
    · intro hs
      have hlt := hinitial s hs
      refine ⟨s, List.mem_filter.mpr ⟨List.mem_range.mpr hlt, StateSet.contains_iff.mpr ?_⟩, (hindex s hlt).symm⟩
      rwa [hindex s hlt]
  have hbuiltin : builtinLabel m Expr.initName = return .ofSet m.initial m.numStates := by
    unfold builtinLabel
    rw [if_neg (by decide), if_pos rfl, hstates]
  show outcome (satisfying .whereOpen c m entered none (.label Expr.initName)) r = _
  unfold satisfying
  rw [evalWith_builtin .whereOpen c m entered none hmodel hlist, hbuiltin]
  rfl

/-! ## The filter that is put around -/

/-- What a default filter does. -/
def defaultOp (m : Model) (e : Expr) : FilterOp :=
  if e.type = .bool then .forAll else if m.numInitial = 1 then .state else .range

theorem defaultOp_ne {op : FilterOp} (h : op ≠ .forAll ∧ op ≠ .state ∧ op ≠ .range) : defaultOp m e ≠ op := by
  unfold defaultOp
  split
  · exact h.1.symm
  · split
    · exact h.2.1.symm
    · exact h.2.2.symm

/-- The default filter is put around an expression that is no answer by itself. -/
theorem prepared_default (hstore : c.settings.storeVector = false) (he : e.isSingleValued = false) :
    c.prepared m e = .filter (defaultOp m e) e (some (.label Expr.initName)) true true := by
  unfold prepared withDefaultFilter
  rw [hstore]
  simp only [Bool.false_eq_true, if_false, he]
  rfl

/-- And around the filter that stores the vector of an expression. -/
theorem prepared_stored (hstore : c.settings.storeVector = true) : c.prepared m e =
    .filter (defaultOp m e) (.filter .store e none true true) (some (.label Expr.initName)) true true := by
  unfold prepared
  rw [hstore]
  rfl

/-- An answer by itself is checked as it is. -/
theorem prepared_single (hstore : c.settings.storeVector = false) (he : e.isSingleValued = true) :
    c.prepared m e = e := by
  unfold prepared withDefaultFilter
  rw [hstore]
  simp only [Bool.false_eq_true, if_false, he, if_true]

/-- Over all initial states; the filter for one state is taken only if there is one. -/
theorem default_canSelect (hne : m.initial.isEmpty = false) :
    Filter.CanSelect ⟨defaultOp m e, some (.label Expr.initName), true, true⟩ m m.initial ∧
      (Filter.selectionOf ⟨defaultOp m e, some (.label Expr.initName), true, true⟩ m m.initial).states = m.initial := by
  have hsame : (Filter.selectionOf ⟨defaultOp m e, some (.label Expr.initName), true, true⟩ m m.initial).states =
      m.initial := Filter.selectionOf_states_of_ne _ m (defaultOp_ne (by decide))
  refine ⟨⟨hne, fun hop => ?_⟩, hsame⟩
  have hone : m.numInitial = 1 := by
    have hop : defaultOp m e = .state := hop
    unfold defaultOp at hop
    split at hop
    · cases hop
    · split at hop
      · assumption
      · cases hop
  exact (congrArg StateSet.size hsame).trans hone

/-- What goes wrong in a filter that can select its states is a computation on values, or it goes wrong in the
operand. -/
theorem error_of_applyFilter {f : Filter} {entered : Entered} {states : StateSet} {err : CheckError}
    (hcan : f.CanSelect m states) (h : outcome (applyFilter .whereOpen c m entered f e states) r = .error err) :
    (∃ r', outcome (evalWith .whereOpen c m entered e (some (f.selectionOf m states).states)) r' = .error err) ∨
      ∃ v, err = .eval v := by
  unfold applyFilter at h
  rw [outcome_bind_ok (Filter.select_succeeds f m hcan r)] at h
  rcases outcome_bind_eq_error.mp h with h | ⟨w, -, h⟩
  · exact .inl ⟨_, h⟩
  · rcases outcome_bind_eq_error.mp h with h | ⟨reduced, -, h⟩
    · exact .inr ((Filter.reduce_tells f m c.settings _ w).fails _ _ h)
    · exact .inr ((Filter.record_tells f c.settings c.definitions.parameters reduced).fails _ _ h)

/-- A check without minimisation fails as the evaluation of what was prepared does. -/
theorem check_of_eval_error {err : CheckError} (hminimise : c.settings.minimise = false) :
    outcome (c.check m e) r = .error err ↔
      outcome (evalWith .whereOpen c m .none (c.prepared m e) none)
        (after (Check.restart c.definitions.parameters) r) = .error err := by
  unfold check
  rw [minimised_off hminimise, pure_bind, outcome_bind_ok (outcome_restart _ _)]
  show outcome (evalWith .whereOpen c m .none (c.prepared m e) none >>= _) _ = _ ↔ _
  rw [outcome_bind_eq_error]
  refine ⟨fun h => h.resolve_right ?_, .inl⟩
  rintro ⟨values, -, h⟩
  cases h

/-! ## Checks over the initial states -/

/-- The expression is checked as it is, under a filter over the initial states and no other. -/
structure ChecksInitial (c : Checker) (m : Model) (e : Expr) : Prop where
  minimise : c.settings.minimise = false
  prepared : c.prepared m e = .filter (defaultOp m e) e (some (.label Expr.initName)) true true
  chosen : ∀ r, outcome (selected .whereOpen c m .none (some (.label Expr.initName))) r = .ok m.initial

theorem checksInitial (hn : m.numStates < stateLimit) (hinitial : ∀ s ∈ m.initial, s < m.numStates)
    (hmodel : m.labelStates? Expr.initName = none) (hlist : c.definitions.label? Expr.initName = none)
    (hstore : c.settings.storeVector = false) (hminimise : c.settings.minimise = false)
    (he : e.isSingleValued = false) : ChecksInitial c m e :=
  ⟨hminimise, prepared_default hstore he, selected_initial hn hinitial hmodel hlist .none⟩

namespace ChecksInitial

variable {v : StateVector} {states : StateSet}

theorem fails_without (h : ChecksInitial c m e) (hnone : m.numInitial = 0) :
    outcome (c.check m e) r = .error .emptyFilter := by
  have hempty : m.initial.isEmpty = true := List.isEmpty_iff_length_eq_zero.mpr hnone
  rw [check_of_eval_error h.minimise, h.prepared]
  exact fails_of_select h.chosen (Filter.select_empty _ m hempty) none _

/-- A complaint about the number of states comes from the expression, not from the filter around it. -/
theorem cardinality_inside (h : ChecksInitial c m e) {text : String} {k : Nat}
    (herror : outcome (c.check m e) r = .error (.filterCardinality text k)) :
    ∃ r', outcome (c.eval m .none e (some m.initial)) r' = .error (.filterCardinality text k) := by
  rw [check_of_eval_error h.minimise, h.prepared, evalWith_filter, outcome_bind_ok (h.chosen _)] at herror
  cases hempty : m.initial.isEmpty with
  | true =>
    unfold applyFilter at herror
    rw [outcome_bind_error (Filter.select_empty _ m hempty _)] at herror
    cases herror
  | false =>
    obtain ⟨hcan, hstates⟩ := default_canSelect (e := e) hempty
    rcases error_of_applyFilter hcan herror with ⟨r', h⟩ | ⟨_, h⟩
    · exact ⟨r', by rwa [hstates] at h⟩
    · cases h

/-- What the filter answers is what the check reports. -/
theorem reports (h : ChecksInitial c m e) {op : FilterOp} (hop : defaultOp m e = op) {y : ResultValue}
    (hleaves : Leaves c m .none (.filter op e (some (.label Expr.initName)) true true) y) (r : Run) :
    ∃ o, outcome (c.check m e) r = .ok o ∧ o.answer.value = some y := by
  rw [← hop, ← h.prepared] at hleaves
  obtain ⟨w, r', hrun, hvalue⟩ := hleaves none (after (Check.restart c.definitions.parameters) r)
  exact ⟨_, check_of_eval h.minimise hrun, hvalue⟩

theorem reports_conjunction (h : ChecksInitial c m e)
    (hselects : Selects c m .none (some (.label Expr.initName)) m.initial e v) (hbool : e.type = .bool)
    (htype : v.type = .bool) (r : Run) : ∃ o b, outcome (c.check m e) r = .ok o ∧
      o.answer.value = some (.value (.bool b)) ∧ (b = true ↔ ∀ s ∈ m.initial, v.valueAt s = .ok (.bool true)) := by
  have hentry : ∀ s ∈ m.initial, ∃ b, v.valueAt s = .ok (.bool b) := by
    intro s hs
    obtain ⟨x, hx⟩ := hselects.valueAt s hs
    have hxtype := (type_of_valueAt hx).trans htype
    cases x with
    | bool b => exact ⟨b, hx⟩
    | _ => cases hxtype
  choose! b hb using hentry
  obtain ⟨o, ho, hvalue⟩ :=
    h.reports (if_pos hbool) (hselects.answers_forAll (forAllOver_bools hb hselects.exists_mem)) r
  refine ⟨o, _, ho, hvalue, ?_⟩
  rw [List.all_eq_true]
  refine forall₂_congr fun s hs => ?_
  rw [hb s hs]
  simp

theorem reports_only (h : ChecksInitial c m e)
    (hselects : Selects c m .none (some (.label Expr.initName)) m.initial e v) (hbool : e.type ≠ .bool)
    {s : Nat} (honly : ∀ t, t ∈ m.initial ↔ t = s) (r : Run) :
    ∃ o x, outcome (c.check m e) r = .ok o ∧ v.valueAt s = .ok x ∧ o.answer.value = some (.value x) := by
  have hone : m.numInitial = 1 := congrArg StateSet.size (StateSet.eq_singleton honly)
  obtain ⟨x, hx⟩ := hselects.valueAt s ((honly s).mpr rfl)
  obtain ⟨o, ho, hvalue⟩ :=
    h.reports ((if_neg hbool).trans (if_pos hone)) (hselects.answers_state honly hx) r
  exact ⟨o, x, ho, hx, hvalue⟩

theorem reports_range (h : ChecksInitial c m e)
    (hselects : Selects c m .none (some (.label Expr.initName)) m.initial e v) (hbool : e.type ≠ .bool)
    (hone : m.numInitial ≠ 1) (r : Run) : ∃ o low high, outcome (c.check m e) r = .ok o ∧
      v.HasLeast m.initial low ∧ v.HasGreatest m.initial high ∧ o.answer.value = some (.range low high) := by
  obtain ⟨low, high, hlow, hhigh, -, -, hleaves⟩ := hselects.answers_extremes true true
  obtain ⟨o, ho, hvalue⟩ := h.reports ((if_neg hbool).trans (if_neg hone)) hleaves r
  exact ⟨o, low, high, ho, hlow, hhigh, hvalue⟩

end ChecksInitial

/-- An expression that is no answer by itself is checked over the initial states. Without one the check fails. Otherwise,
if the expression has a vector over all states, the check succeeds and reports whether its truth values all hold in the
initial states, its value in the only one, or the range of its values in several. That a filter selects too many states
can only be a complaint of a filter in the expression. -/
theorem check_default (c : Checker) (m : Model) (hn : m.numStates < stateLimit) (hm : m.LabelsInRange)
    (hinitial : ∀ s ∈ m.initial, s < m.numStates) (hmodel : m.labelStates? Expr.initName = none)
    (hlist : c.definitions.label? Expr.initName = none) (hc : c.solver = none)
    (hstore : c.settings.storeVector = false) (hminimise : c.settings.minimise = false)
    (hlabels : ∀ d ∈ c.definitions.labels, d.body.type = .bool)
    (hdef : c.definitions.Throughout c.definitions.Declares) (e : Expr) (hsingle : e.isSingleValued = false)
    (he : e.Throughout c.definitions.Declares) (r : Run) :
    (m.numInitial = 0 → outcome (c.check m e) r = .error .emptyFilter) ∧
    (∀ text k, outcome (c.check m e) r = .error (.filterCardinality text k) →
      ∃ r', outcome (c.eval m .none e (some m.initial)) r' = .error (.filterCardinality text k)) ∧
    ∀ v r₀, outcome (c.eval m .none e none) r₀ = .ok v → m.numInitial ≠ 0 → ∃ o, outcome (c.check m e) r = .ok o ∧
      (e.type = .bool → ∃ b, o.answer.value = some (.value (.bool b)) ∧
        (b = true ↔ ∀ s ∈ m.initial, v.valueAt s = .ok (.bool true))) ∧
      (e.type ≠ .bool → ∀ s, (∀ t, t ∈ m.initial ↔ t = s) →
        ∃ x, v.valueAt s = .ok x ∧ o.answer.value = some (.value x)) ∧
      (e.type = .int → 1 < m.numInitial → ∃ low high : Int64,
        o.answer.value = some (.range (.int low) (.int high)) ∧
        (∃ s ∈ m.initial, v.valueAt s = .ok (.int low)) ∧ (∃ s ∈ m.initial, v.valueAt s = .ok (.int high)) ∧
        ∀ s ∈ m.initial, ∃ k, v.valueAt s = .ok (.int k) ∧ low ≤ k ∧ k ≤ high) := by
  have h : ChecksInitial c m e := checksInitial hn hinitial hmodel hlist hstore hminimise hsingle
  refine ⟨h.fails_without, fun text k => h.cardinality_inside, fun v r₀ hv hsome => ?_⟩
  have hne : m.initial.isEmpty = false :=
    StateSet.isEmpty_eq_false_iff.mpr (List.exists_mem_of_length_pos (Nat.pos_of_ne_zero hsome))
  have hselects : Selects c m .none (some (.label Expr.initName)) m.initial e v :=
    selects hn hm hc (h.chosen r) hne hv
  have htype : v.type = e.type := evalWith_typed hc hlabels hdef .none e he none r₀ v hv
  by_cases hbool : e.type = .bool
  · obtain ⟨o, b, ho, hvalue, hb⟩ := h.reports_conjunction hselects hbool (htype.trans hbool) r
    refine ⟨o, ho, fun _ => ⟨b, hvalue, hb⟩, fun hne => absurd hbool hne, fun hint => ?_⟩
    rw [hbool] at hint
    cases hint
  · by_cases hone : m.numInitial = 1
    · obtain ⟨s, honly⟩ := StateSet.exists_only hone
      obtain ⟨o, x, ho, hx, hvalue⟩ := h.reports_only hselects hbool honly r
      refine ⟨o, ho, fun hb => absurd hb hbool, fun _ t ht => ?_, fun _ hseveral => ?_⟩
      · rw [(ht s).mp ((honly s).mpr rfl)] at hx
        exact ⟨x, hx, hvalue⟩
      · exact absurd hone (Nat.ne_of_gt hseveral)
    · obtain ⟨o, low, high, ho, hlow, hhigh, hvalue⟩ := h.reports_range hselects hbool hone r
      refine ⟨o, ho, fun hb => absurd hb hbool, fun _ s honly => ?_, fun hint _ => ?_⟩
      · exact absurd (congrArg StateSet.size (StateSet.eq_singleton honly)) hone
      · obtain ⟨least, greatest, rfl, rfl, hbounds⟩ := int_bounds (htype.trans hint) hselects.valueAt hlow hhigh
        exact ⟨least, greatest, hvalue, hlow.attained, hhigh.attained, hbounds⟩

/-- With both states initial, the value of `x` ranges from 0 to 1. -/
theorem check_default_bothInitial :
    ∃ o, outcome (bare.check { Model.twoStates with initial := .full 2 } (.var "x" 0 .int)) .start = .ok o ∧
      o.answer.value = some (.range (.int 0) (.int 1)) := by
  have hlabels : Model.LabelsInRange { Model.twoStates with initial := .full 2 } := Model.labelsInRange_twoStates
  have hdeclares : (Expr.var "x" 0 .int).Throughout bare.definitions.Declares := by
    simp [Expr.throughout_iff, Expr.children, Definitions.Declares]
  obtain ⟨-, -, hsucceeds⟩ := check_default bare { Model.twoStates with initial := .full 2 } (by decide) hlabels
    (fun s hs => StateSet.mem_full.mp hs) rfl rfl rfl rfl rfl (fun d hd => absurd hd List.not_mem_nil)
    Definitions.throughout_empty (.var "x" 0 .int) rfl hdeclares .start
  have hv : outcome (bare.eval { Model.twoStates with initial := .full 2 } .none (.var "x" 0 .int) none) .start =
      .ok ⟨.ints #[0, 1], none⟩ := by
    unfold eval
    rw [evalWith_var]
    rfl
  obtain ⟨o, ho, -, -, hrange⟩ := hsucceeds _ _ hv (by decide)
  obtain ⟨low, high, hvalue, ⟨s, hs, hlow⟩, ⟨t, ht, hhigh⟩, hbounds⟩ := hrange rfl (by decide)
  obtain ⟨zero, hzero, hlowzero, -⟩ := hbounds 0 (by decide)
  obtain ⟨one, hone, -, hhighone⟩ := hbounds 1 (by decide)
  cases hzero
  cases hone
  have hstates : ∀ i ∈ StateSet.full 2, i = 0 ∨ i = 1 := fun i hi => by
    have hlt : i < 2 := StateSet.mem_full.mp hi
    omega
  have hleast : low = 0 := by
    rcases hstates s hs with rfl | rfl
    · cases hlow
      rfl
    · cases hlow
      exact absurd hlowzero (by decide)
  have hgreatest : high = 1 := by
    rcases hstates t ht with rfl | rfl
    · cases hhigh
      exact absurd hhighone (by decide)
    · cases hhigh
      rfl
  exact ⟨o, ho, by rw [hvalue, hleast, hgreatest]⟩

end Checker

end Statewise
