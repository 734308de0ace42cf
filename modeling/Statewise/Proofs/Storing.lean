import Statewise.Proofs.Defaults
import Statewise.Proofs.Exactness
import Statewise.Proofs.Settings

/-!
# Keeping the vector

If vectors are to be kept, the expression is put under a filter that stores its vector before it is put under the default
filter. The operand is then evaluated over all states and not over the initial states alone. The default filter reports
the same, since in the initial states the two vectors agree, and it leaves the stored vector alone.
-/

namespace Statewise

open Check StateVector

/-! ## What filters leave behind -/

/-- The same is reported. -/
structure Reduced.SameReport (a b : Reduced) : Prop where
  value : b.value = a.value
  accuracy : b.accuracy = a.accuracy
  explanation : b.explanation = a.explanation

namespace Filter

variable {f : Filter} {settings : Settings}

theorem answer_of_sameReport {a b : Reduced} (h : a.SameReport b) (parameters : Option String)
    (stored stored' : Option StateVector) :
    f.answer settings parameters b stored' = { f.answer settings parameters a stored with vector := stored' } := by
  unfold answer
  rw [h.value, h.accuracy, h.explanation]

end Filter

namespace Checker

variable {c : Checker} {m : Model} {entered : Entered} {e : Expr} {r r' : Run} {invisible explained : Bool}

/-! ## Filters over a stored vector -/

/-- A filter that stores the vector of all states evaluates its operand over all states; the vector goes on and is left
behind. -/
theorem evalWith_stored (hn : m.numStates < stateLimit) (hm : m.LabelsInRange) (hc : c.solver = none)
    {domain : Option StateSet} {v : StateVector}
    (h : outcome (evalWith .whereOpen c m entered (.filter .store e none invisible explained) domain) r = .ok v) :
    (∀ r₀, outcome (evalWith .whereOpen c m entered e none) r₀ = .ok v) ∧
      (after (evalWith .whereOpen c m entered (.filter .store e none invisible explained) domain) r).answer.vector =
        some v := by
  have hstates : (Filter.selectionOf ⟨.store, none, invisible, explained⟩ m (.full m.numStates)).states =
      .full m.numStates := Filter.selectionOf_states_of_ne _ m fun h => by cases h
  have hsteady : Steady (evalWith .whereOpen c m entered e none) :=
    (evalWith_delivers .whereOpen c m hc entered e none).steady
  rw [evalWith_filter] at h ⊢
  change outcome (applyFilter .whereOpen c m entered _ e (.full m.numStates)) r = _ at h
  show _ ∧ (after (applyFilter .whereOpen c m entered _ e (.full m.numStates)) r).answer.vector = _
  unfold applyFilter at h ⊢
  obtain ⟨s, hs, h⟩ := outcome_bind_eq_ok.mp h
  obtain ⟨rfl, -⟩ := (Filter.select_delivers _ m _).spec r s hs
  rw [after_bind_ok hs]
  rw [hstates, evalWith_full hn hm hc entered e] at h ⊢
  obtain ⟨w, hw, h⟩ := outcome_bind_eq_ok.mp h
  rw [after_bind_ok hw]
  cases h
  exact ⟨fun r₀ => (hsteady _ _).trans hw, rfl⟩

/-- Evaluating an expression over a domain follows the filter that stores its vector. -/
theorem stored_simulates (hn : m.numStates < stateLimit) (hm : m.LabelsInRange) (hc : c.solver = none) :
    Simulates .whereOpen c m m entered (.filter .store e none invisible explained) entered e := by
  intro wide nar hd _ r r' v hv
  exact evalWith_follows (Compares.refl hc hn hm) entered e (Narrows.of_lt hd.nar_lt) r r' v
    ((evalWith_stored hn hm hc hv).1 r)

theorem reduceOver_steady (hc : c.solver = none) (f : Filter) (e : Expr) (states : StateSet) :
    Steady (reduceOver .whereOpen c m entered f e states) := by
  unfold reduceOver
  refine (Delivers.next (Q := fun _ => True) (f.select_delivers m states).steady fun s => ?_).steady
  refine Delivers.next (evalWith_delivers .whereOpen c m hc entered e _).steady fun v => ?_
  exact (f.reduce_delivers m c.settings s v).mono fun _ _ => trivial

/-- A filter over an expression reports what it reports over the stored vector of the expression. -/
theorem reduceOver_stored (hn : m.numStates < stateLimit) (hm : m.LabelsInRange) (hc : c.solver = none) {f : Filter}
    {states : StateSet} (hstates : ∀ s ∈ states, s < m.numStates) :
    Follows (reduceOver .whereOpen c m entered f (.filter .store e none invisible explained) states)
      (reduceOver .whereOpen c m entered f e states) Reduced.SameReport := by
  have hexact : ∀ e, Ensures (reduceOver .whereOpen c m entered f e states) Reduced.IsExact :=
    fun e => reduceOver_exact (evalWith_exact hc m entered e) states
  intro r r' reduced h
  obtain ⟨reduced', h', halike⟩ := reduceOver_follows (Compares.refl hc hn hm) rfl (stored_simulates hn hm hc) hstates
    r r' reduced h
  have haccuracy : reduced'.accuracy = reduced.accuracy := by
    rw [(hexact _ r reduced h).report, (hexact _ r' reduced' h').report]
  exact ⟨reduced', h', halike.value, haccuracy, halike.explanation rfl⟩

/-- It leaves the stored vector behind, unless it stores one itself. -/
theorem reduceOver_keeps_stored (hn : m.numStates < stateLimit) (hm : m.LabelsInRange) (hc : c.solver = none) {f : Filter}
    (hop : f.op ≠ .store) {states : StateSet} {reduced : Reduced}
    (h : outcome (reduceOver .whereOpen c m entered f (.filter .store e none invisible explained) states) r =
      .ok reduced) :
    ∃ v, (after (reduceOver .whereOpen c m entered f (.filter .store e none invisible explained) states) r).answer.vector =
        some v ∧ ∀ r₀, outcome (evalWith .whereOpen c m entered e none) r₀ = .ok v := by
  unfold reduceOver at h ⊢
  obtain ⟨s, hs, h⟩ := outcome_bind_eq_ok.mp h
  rw [after_bind_ok hs]
  obtain ⟨v, hv, h⟩ := outcome_bind_eq_ok.mp h
  rw [after_bind_ok hv]
  obtain ⟨heval, hstored⟩ := evalWith_stored hn hm hc hv
  refine ⟨v, ?_, heval⟩
  rw [(Filter.reduce_announces _ m c.settings s v hop).answer]
  exact hstored

/-! ## Checks that keep the vector -/

/-- The checker that keeps the vectors of what it checks, or does not. -/
def storing (c : Checker) (keep : Bool) : Checker := { c with settings := { c.settings with storeVector := keep } }

theorem evaluateAlike_storing (hc : c.solver = none) (keep : Bool) : c.EvaluateAlike (c.storing keep) :=
  ⟨rfl, ⟨rfl, rfl, rfl, rfl⟩, hc, hc⟩

/-- A check of an expression that is no answer by itself reports the same whether its vector is kept or not: what the
check that keeps it reports, the other one reports as well. The vector that is kept is that of the expression over all
states, with a value in each of them. -/
theorem check_storing (c : Checker) (m : Model) (hn : m.numStates < stateLimit) (hm : m.LabelsInRange)
    (hc : c.solver = none) (hminimise : c.settings.minimise = false) (e : Expr) (he : e.isSingleValued = false)
    (r r' r₀ : Run) (o : Outcome) (ho : outcome ((c.storing true).check m e) r = .ok o) :
    (∃ o', outcome ((c.storing false).check m e) r' = .ok o' ∧ o'.answer.value = o.answer.value ∧
      o'.answer.accuracy = o.answer.accuracy ∧ o'.answer.explanation = o.answer.explanation ∧
      o'.answer.parameters = o.answer.parameters) ∧
    ∃ v, o.answer.vector = some v ∧ outcome (c.eval m .none e none) r₀ = .ok v ∧
      ∀ s < m.numStates, ∃ y, v.valueAt s = .ok y := by
  -- Both checks evaluate as the checker itself does; what is prepared is all that differs.
  have hsame : ∀ keep e, SameEvaluation c (c.storing keep) m .none e := fun keep =>
    evalWith_same (evaluateAlike_storing hc keep) m .none
  obtain ⟨r₁, hvalues, hanswer⟩ := eval_of_check (c := c.storing true) hminimise ho
  rw [prepared_stored rfl, hsame true] at hvalues hanswer
  obtain ⟨states, reduced, r₁, r₂, hstates, hreduced, -, hrecorded⟩ := filter_eq_ok hvalues
  obtain ⟨hchosen, hlt⟩ := selected_steady hm hc hstates
  obtain ⟨v, hstored, hv⟩ := reduceOver_keeps_stored hn hm hc (defaultOp_ne (by decide)) hreduced
  rw [hrecorded] at hanswer
  constructor
  · obtain ⟨reduced', hreduced', hreport⟩ := reduceOver_stored hn hm hc hlt r₂ r₂ reduced hreduced
    obtain ⟨stored, r₃, heval, hunstored⟩ := filter_of_reduceOver hchosen
      (fun r => (reduceOver_steady hc _ e states r r₂).trans hreduced') none (after (Check.restart c.definitions.parameters) r')
    rw [← hsame false, ← prepared_default (c := c.storing false) rfl he] at heval
    refine ⟨_, check_of_eval hminimise heval, ?_⟩
    rw [hanswer, hunstored, Filter.answer_of_sameReport hreport _ none]
    exact ⟨rfl, rfl, rfl, rfl⟩
  · refine ⟨v, ?_, hv r₀, fun s hs => (plain_of_outcome hc (hv r₀)).valueAt hs⟩
    rw [hanswer]
    exact hstored

/-- The value of `x` in the initial state is reported, and its values in both states are kept. -/
theorem check_storing_twoStates : ∃ o o',
    outcome ((bare.storing true).check .twoStates (.var "x" 0 .int)) .start = .ok o ∧
      outcome ((bare.storing false).check .twoStates (.var "x" 0 .int)) .start = .ok o' ∧
      o'.answer.value = some (.value (.int 0)) ∧ o.answer.vector = some ⟨.ints #[0, 1], none⟩ := by
  have hinitial : ∀ r, outcome (selected .whereOpen (bare.storing true) .twoStates .none (some (.label Expr.initName))) r =
      .ok Model.twoStates.initial := selected_initial (by decide) (by decide) rfl rfl .none
  obtain ⟨r', heval, hvalue⟩ : ∃ r', evalWith .whereOpen (bare.storing true) .twoStates .none
      ((bare.storing true).prepared .twoStates (.var "x" 0 .int)) none (after (Check.restart none) .start) =
        (.ok ⟨.ints #[0, 0], none⟩, r') ∧ r'.answer.value = some (.value (.int 0)) := by
    rw [prepared_stored rfl, evalWith_filter, run_bind_ok (hinitial _)]
    unfold applyFilter
    simp only [evalWith_filter]
    unfold selected applyFilter
    simp only [evalWith_var]
    exact ⟨_, rfl, rfl⟩
  have ho := check_of_eval (c := bare.storing true) rfl heval
  obtain ⟨⟨o', ho', hreported, -⟩, v, hv, heval₀, -⟩ := check_storing bare .twoStates (by decide)
    Model.labelsInRange_twoStates rfl rfl (.var "x" 0 .int) rfl .start .start .start _ ho
  have hvar : outcome (bare.eval .twoStates .none (.var "x" 0 .int) none) .start = .ok ⟨.ints #[0, 1], none⟩ := by
    unfold eval
    rw [evalWith_var]
    rfl
  rw [hvar] at heval₀
  cases heval₀
  exact ⟨_, o', ho, ho', hreported.trans hvalue, hv⟩

end Checker

end Statewise
