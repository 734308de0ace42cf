import Statewise.Proofs.Extremes
import Statewise.Proofs.Narrowing
import Statewise.Proofs.Reporting

/-!
# Filters that keep the vector

The filters `print`, `printall`, `store` and `range` pass the vector of their operand on. They evaluate the operand
over the states that they select, so the vector has the values of the operand in these states, whatever the
domain. In the other states it holds false or zero, and whoever puts such a filter into a larger expression, or
checks it, reads these entries as if they were values.
-/

namespace Statewise

open Check StateVector

/-! ## Reductions of a vector that succeed -/

namespace StateVector

variable {n : Nat} {states : StateSet} {v : StateVector}

theorem rangeOver_succeeds (hv : v.IsPlain n) (hlt : ∀ s ∈ states, s < n) (hne : ∃ s, s ∈ states) :
    ∃ range, v.rangeOver states = .ok range := by
  have hentry : ∀ s ∈ states, ∃ y, v.valueAt s = .ok y := fun s hs => hv.valueAt (hlt s hs)
  obtain ⟨low, hlow, -⟩ := minOver_least hentry hne
  obtain ⟨high, hhigh, -⟩ := maxOver_greatest hentry hne
  exact ⟨(low, high), Yields.bind_eq_ok.mpr ⟨low, hlow, Yields.bind_eq_ok.mpr ⟨high, hhigh, rfl⟩⟩⟩

end StateVector

/-- A filter that keeps the vector succeeds on every vector with a value in each selected state. -/
theorem Filter.reduce_keeps {f : Filter} {settings : Settings} {m : Model} {s : Selection} {v : StateVector} {n : Nat}
    (hop : f.op.keepsVector = true) (hv : v.IsPlain n) (hlt : ∀ i ∈ s.states, i < n) (hne : ∃ i, i ∈ s.states)
    (r : Run) : ∃ reduced, outcome (f.reduce settings m s v) r = .ok reduced ∧ reduced.vector = v := by
  obtain ⟨op, selector, invisible, explained⟩ := f
  cases op <;> simp [FilterOp.keepsVector] at hop
  case range =>
    obtain ⟨range, hrange⟩ := rangeOver_succeeds hv hlt hne
    exact ⟨_, outcome_bind_eq_ok.mpr ⟨range, outcome_ofEval_eq_ok.mpr hrange, rfl⟩, rfl⟩
  case print => exact ⟨_, reducePrint_succeeds hv hlt false r, rfl⟩
  case printAll => exact ⟨_, reducePrint_succeeds hv hlt true r, rfl⟩
  case store => exact ⟨_, rfl, rfl⟩

namespace Checker

variable {c : Checker} {m : Model}

/-- A filter that keeps the vector can be checked over every domain if its operand can be checked over all states
and some states are selected. In each of these states its vector has the value of the operand, hence on the whole
domain if the domain lies within them. -/
theorem checkExpression_keepsVector (c : Checker) (m : Model) (hn : m.numStates < stateLimit) (hm : m.LabelsInRange)
    (hc : c.solver = none) (op : FilterOp) (hop : op.keepsVector = true) (e : Expr) (selector : Option Expr)
    (invisible explained : Bool) (r r₁ r₂ : Run) (v : StateVector) (states : StateSet)
    (hv : outcome (c.checkExpression m e none) r = .ok v)
    (hstates : outcome (selected .whereOpen c m .none selector) r₁ = .ok states) (hne : ∃ s, s ∈ states)
    (domain : Option StateSet) :
    ∃ w, outcome (c.checkExpression m (.filter op e selector invisible explained) domain) r₂ = .ok w ∧
      ∀ s ∈ states, ∃ y, v.valueAt s = .ok y ∧ w.valueAt s = .ok y := by
  have hself : c.Compares m m := Compares.refl hc hn hm
  have hselected : Delivers (selected .whereOpen c m .none selector) fun a =>
      (∀ s ∈ a, s < m.numStates) ∧ (selector = none → a = .full m.numStates) := selected_real hc hm selector
  have hlt := (hselected.spec r₁ states hstates).1
  have hsim : Simulates .whereOpen c m m .none e .none e :=
    evalWith_simulates hself (fun hst => by cases hst) .none e fun hst => by cases hst
  let f : Filter := ⟨op, selector, invisible, explained⟩
  have hfirst : op ≠ .first := fun hfirst => by rw [hfirst] at hop; cases hop
  have hstate : op ≠ .state := fun hstate => by rw [hstate] at hop; cases hop
  have hcan : f.CanSelect m states :=
    ⟨StateSet.isEmpty_eq_false_iff.mpr hne, fun h => absurd h hstate⟩
  have hsame : (f.selectionOf m states).states = states := if_neg hfirst
  rw [outcome_checkExpression] at hv
  rw [outcome_checkExpression, evalWith_filter,
    outcome_bind_ok ((hselected.steady _ r₁).trans hstates)]
  unfold applyFilter
  rw [outcome_bind_ok (f.select_succeeds m hcan _), hsame]
  obtain ⟨w, hw, hmatch⟩ := hsim none (some states) (Narrows.of_lt hlt) (fun hst => by cases hst) _ _ v hv
  have hplain := plain_of_outcome hc hw
  have hreduce : ∀ r, ∃ reduced, outcome (f.reduce c.settings m (f.selectionOf m states) w) r = .ok reduced ∧
      reduced.vector = w := by
    intro r
    refine Filter.reduce_keeps (f := f) hop hplain (fun i hi => hlt i ?_) ?_ r
    · rwa [hsame] at hi
    · rwa [hsame]
  refine ⟨w, ?_, fun s hs => ?_⟩
  · rw [outcome_bind_ok hw]
    obtain ⟨reduced, hreduced, hvector⟩ := hreduce _
    rw [outcome_bind_ok hreduced, ← hvector]
    rfl
  · obtain ⟨y, hy⟩ := hplain.valueAt (hlt s hs)
    exact ⟨y, (hmatch.entry s hs).trans hy, hy⟩

/-! ### Printing a successor in one state -/

/-- `filter(print, x + 1, x = 1)`, which selects the second of the two states. -/
def printSuccessor : Expr :=
  .filter .print (.binary .plus (.var "x" 0 .int) (.literal (.int 1)))
    (some (.binary .eq (.var "x" 0 .int) (.literal (.int 1)))) false true

theorem evalWith_successor (domain : Option StateSet) (hd : domain = none ∨ domain = some (.singleton 1)) (r : Run) :
    outcome (evalWith .whereOpen bare .twoStates .none (.binary .plus (.var "x" 0 .int) (.literal (.int 1))) domain) r =
      .ok ⟨.ints (if domain = none then #[1, 2] else #[0, 2]), none⟩ := by
  rw [evalWith_strict .whereOpen _ _ _ _ (by decide), evalWith_var, evalWith_literal]
  rcases hd with rfl | rfl <;> rfl

theorem evalWith_isOne (r : Run) :
    outcome (satisfying .whereOpen bare .twoStates .none none
      (.binary .eq (.var "x" 0 .int) (.literal (.int 1)))) r = .ok (.singleton 1) := by
  unfold satisfying
  rw [evalWith_strict .whereOpen _ _ _ _ (by decide), evalWith_var, evalWith_literal]
  rfl

/-- The vector has the successor in the selected state. -/
theorem checkExpression_keepsVector_printSuccessor :
    ∃ w, outcome (bare.checkExpression .twoStates printSuccessor (some (.full 2))) .start = .ok w ∧
      w.valueAt 1 = .ok (.int 2) := by
  have hv : outcome (bare.checkExpression .twoStates (.binary .plus (.var "x" 0 .int) (.literal (.int 1))) none)
      .start = .ok ⟨.ints #[1, 2], none⟩ := by
    rw [outcome_checkExpression]
    exact evalWith_successor none (Or.inl rfl) _
  obtain ⟨w, hw, hentry⟩ := checkExpression_keepsVector bare .twoStates (by decide) Model.labelsInRange_twoStates rfl
    .print rfl _ (some (.binary .eq (.var "x" 0 .int) (.literal (.int 1)))) false true .start .start .start _ _ hv
    (evalWith_isOne .start) ⟨1, by decide⟩ (some (.full 2))
  obtain ⟨y, hy, hw'⟩ := hentry 1 (by decide)
  cases hy
  exact ⟨w, hw, hw'⟩

/-- The filter over the states where `x = 1`, with its run. -/
theorem evalWith_printSuccessor (domain : Option StateSet) (r : Run) :
    outcome (evalWith .whereOpen bare .twoStates .none printSuccessor domain) r = .ok ⟨.ints #[0, 2], none⟩ := by
  let f : Filter := ⟨.print, some (.binary .eq (.var "x" 0 .int) (.literal (.int 1))), false, true⟩
  have hcan : f.CanSelect .twoStates (.singleton 1) := ⟨rfl, fun h => by cases h⟩
  have hsame : (f.selectionOf .twoStates (.singleton 1)).states = .singleton 1 := rfl
  unfold printSuccessor
  rw [evalWith_filter]
  show outcome (satisfying .whereOpen bare .twoStates .none none _ >>= _) _ = _
  rw [outcome_bind_ok (evalWith_isOne _)]
  unfold applyFilter
  rw [outcome_bind_ok (f.select_succeeds .twoStates hcan _), hsame,
    outcome_bind_ok (evalWith_successor _ (Or.inr rfl) _)]
  rfl

/-- The default filter asks for the value in the initial state and finds the entry of a state that was not selected. -/
theorem evalWith_defaultFilter (r : Run) :
    ∃ r', evalWith .whereOpen bare .twoStates .none (.invisibleFilter .state printSuccessor
        (some (.label Expr.initName))) none r = (.ok ⟨.ints #[0, 0], none⟩, r') ∧
      r'.answer.value = some (.value (.int 0)) := by
  let f : Filter := ⟨.state, some (.label Expr.initName), true, true⟩
  have hinit : outcome (satisfying .whereOpen bare .twoStates .none none (.label Expr.initName)) r =
      .ok (.singleton 0) := by
    unfold satisfying
    rw [evalWith_builtin .whereOpen bare .twoStates .none none rfl rfl]
    rfl
  have hcan : f.CanSelect .twoStates (.singleton 0) := ⟨rfl, fun _ => rfl⟩
  unfold Expr.invisibleFilter
  rw [evalWith_filter]
  show ∃ r', (satisfying .whereOpen bare .twoStates .none none _ >>= _) r = _ ∧ _
  rw [run_bind_ok hinit]
  unfold applyFilter
  rw [run_bind_ok (f.select_succeeds .twoStates hcan _), run_bind_ok (evalWith_printSuccessor _ _)]
  exact ⟨_, rfl, rfl⟩

/-- The successor is 1 in the first state, but the vector of the filter over both states has 0 there, and checking
the filter reports this 0 as the value in the initial state. -/
theorem checkExpression_losesVector :
    outcome (bare.checkExpression .twoStates (.binary .plus (.var "x" 0 .int) (.literal (.int 1))) none) .start =
        .ok ⟨.ints #[1, 2], none⟩ ∧
      outcome (selected .whereOpen bare .twoStates .none
        (some (.binary .eq (.var "x" 0 .int) (.literal (.int 1))))) .start = .ok (.singleton 1) ∧
      outcome (bare.checkExpression .twoStates printSuccessor (some (.full 2))) .start =
        .ok ⟨.ints #[0, 2], none⟩ ∧
      ∃ o, outcome (bare.check .twoStates printSuccessor) .start = .ok o ∧
        o.answer.value = some (.value (.int 0)) := by
  refine ⟨?_, evalWith_isOne .start, ?_, ?_⟩
  · rw [outcome_checkExpression]
    exact evalWith_successor none (Or.inl rfl) _
  · rw [outcome_checkExpression]
    exact evalWith_printSuccessor _ _
  · obtain ⟨r', h, hx⟩ := evalWith_defaultFilter (after (Check.restart none) .start)
    exact ⟨_, check_of_eval rfl h, hx⟩

end Checker

end Statewise
