import Statewise.Proofs.Keeping
import Statewise.Proofs.Reductions

/-!
# Filters over the states that they select

A filter evaluates its operand over the selected states only, and combines what it finds there. What it reports is
the combination of the values that the operand has in these states when it is evaluated over all states, whatever the
domain of the filter. Without a selected state there is no value, and only one state can be asked for its value.
-/

namespace Statewise

open Check StateVector

/-! ## What a reduction reports -/

/-- The first state is the least one. -/
theorem StateSet.first?_eq_some {a : StateSet} {s : Nat} (hs : s ∈ a) (hleast : ∀ t ∈ a, s ≤ t) :
    a.first? = some s := by
  obtain ⟨xs, hsorted, hbounded⟩ := a
  cases xs with
  | nil => exact absurd hs List.not_mem_nil
  | cons x xs =>
    have hxs : s ≤ x := hleast x List.mem_cons_self
    rcases List.mem_cons.mp hs with rfl | hs
    · rfl
    · have := (List.pairwise_cons.mp hsorted).1 s hs
      omega

theorem StateSet.first?_retainFirst (a : StateSet) : a.retainFirst.first? = a.first? := by
  obtain ⟨xs, hsorted, hbounded⟩ := a
  cases xs <;> rfl

theorem StateSet.eq_singleton {a : StateSet} {s : Nat} (h : ∀ t, t ∈ a ↔ t = s) : a = .singleton s := by
  have hs : s < stateLimit := a.bounded s ((h s).mpr rfl)
  refine StateSet.ext fun t => ?_
  rw [h, StateSet.mem_singleton, StateSet.index_of_lt hs]

theorem StateSet.size_le {a : StateSet} {n : Nat} (h : ∀ s ∈ a, s < n) : a.size ≤ n := by
  have hnodup : a.toList.Nodup := a.sorted.imp Nat.ne_of_lt
  have hsub : a.toList ⊆ List.range n := fun s hs => List.mem_range.mpr (h s hs)
  show a.toList.length ≤ n
  simpa using (hnodup.subperm hsub).length_le

namespace Filter

variable {f : Filter} {settings : Settings} {m : Model} {s : Selection} {w : StateVector} {x : Value}

/-- From every run the reduction succeeds and reports the value. -/
def Finds (f : Filter) (settings : Settings) (m : Model) (s : Selection) (w : StateVector) (y : ResultValue) : Prop :=
  ∀ r, ∃ reduced, outcome (f.reduce settings m s w) r = .ok reduced ∧ reduced.value = some y

theorem IsSingle.value_eq {n : Nat} {reduced : Reduced} (h : IsSingle n x reduced) :
    reduced.value = some (.value x) := by
  obtain ⟨accuracy, explanation, rfl⟩ := h
  rfl

/-- A reduction that succeeds exactly if something is computed, and then reports the value that belongs to it. -/
theorem finds_of_settles {α : Type} {computed : Except EvalError α} {g : α → Value} {a : α}
    (hsettles : Settles (f.reduce settings m s w) (∃ a, computed = .ok a) fun reduced =>
      ∃ a, computed = .ok a ∧ IsSingle m.numStates (g a) reduced)
    (ha : computed = .ok a) : f.Finds settings m s w (.value (g a)) := by
  intro r
  obtain ⟨reduced, hreduced, a', ha', hsingle⟩ := hsettles.succeeds ⟨a, ha⟩ r
  rw [ha] at ha'
  cases ha'
  exact ⟨reduced, hreduced, hsingle.value_eq⟩

theorem finds_single {value : Except EvalError Value} {accuracy : Option Accuracy} {explanation : String}
    (hreduce : f.reduce settings m s w = reduceSingle m value accuracy explanation) (hx : value = .ok x) :
    f.Finds settings m s w (.value x) :=
  finds_of_settles (hreduce ▸ reduceSingle_settles m value accuracy explanation) hx

theorem finds_extreme {kind : String} {extreme : Except EvalError Value}
    (hreduce : f.reduce settings m s w = reduceExtreme settings m s w kind extreme) (hx : extreme = .ok x)
    (hentry : ∀ i ∈ s.states, ∃ y, w.valueAt i = .ok y) (htype : x.type = w.type) :
    f.Finds settings m s w (.value x) := by
  have hclose : ∀ y, extreme = .ok y → ∃ found, w.closeStates y settings.tolerance (some s.states) = .ok found := by
    intro y hy
    rw [hx] at hy
    cases hy
    refine closeStates_succeeds (fun i hi => ?_) settings.tolerance
    obtain ⟨z, hz⟩ := hentry i hi
    exact ⟨z, hz, htype.trans (type_of_valueAt hz).symm⟩
  exact finds_of_settles (hreduce ▸ reduceExtreme_settles m settings s w kind hclose) hx

theorem finds_range {low high : Value} (hop : f.op = .range) (hlow : w.minOver s.states = .ok low)
    (hhigh : w.maxOver s.states = .ok high) : f.Finds settings m s w (.range low high) := by
  intro r
  have hrange : w.rangeOver s.states = .ok (low, high) :=
    Yields.bind_eq_ok.mpr ⟨low, hlow, Yields.bind_eq_ok.mpr ⟨high, hhigh, rfl⟩⟩
  have hreduce : f.reduce settings m s w = reduceRange s w := by
    unfold reduce
    rw [hop]
  rw [hreduce]
  exact ⟨_, outcome_bind_eq_ok.mpr ⟨_, outcome_ofEval_eq_ok.mpr hrange, rfl⟩, rfl⟩

theorem finds_forAll {b : Bool} (hop : f.op = .forAll) (hplain : w.isFrontier = false)
    (hb : w.forAllOver s.states = .ok b) : f.Finds settings m s w (.value (.bool b)) := by
  obtain ⟨a, ha, hsubset⟩ := Yields.bind_eq_ok.mp hb
  cases hsubset
  have hreduce : f.reduce settings m s w = reduceForAll m s w := by
    unfold reduce
    rw [hop]
  exact finds_of_settles (g := fun a => .bool (s.states.subset a)) (hreduce ▸ reduceForAll_settles m s w hplain) ha

theorem finds_thereIs {b : Bool} (hop : f.op = .thereIs) (hb : w.existsOver s.states = .ok b) :
    f.Finds settings m s w (.value (.bool b)) := by
  obtain ⟨a, ha, hany⟩ := Yields.bind_eq_ok.mp hb
  cases hany
  have hreduce : f.reduce settings m s w = reduceExists m s w := by
    unfold reduce
    rw [hop]
  exact finds_of_settles (g := fun a => .bool (s.states.toList.any a.contains))
    (hreduce ▸ reduceExists_settles m s w) ha

/-! ## Selections that fail -/

theorem select_empty (f : Filter) (m : Model) {states : StateSet} (h : states.isEmpty = true) (r : Run) :
    outcome (f.select m states) r = .error .emptyFilter := by
  unfold select
  rw [if_pos h]
  rfl

theorem select_several (f : Filter) (m : Model) {states : StateSet} (h : states.isEmpty = false) (hop : f.op = .state)
    (hsize : states.size ≠ 1) (r : Run) :
    outcome (f.select m states) r = .error (.filterCardinality f.selectorText states.size) := by
  have hsame : (f.selectionOf m states).states = states := if_neg fun hfirst => by rw [hop] at hfirst; cases hfirst
  have hstate : f.op = .state ∧ (f.selectionOf m states).states.size ≠ 1 := ⟨hop, hsame.symm ▸ hsize⟩
  have hfail : ∀ r, outcome (throw (.filterCardinality f.selectorText (f.selectionOf m states).states.size) >>=
      fun _ : Unit => do
        setHint (f.hint (f.selectionOf m states))
        return f.selectionOf m states) r = .error (.filterCardinality f.selectorText states.size) := by
    intro r
    rw [hsame]
    rfl
  unfold select
  simp only [h, Bool.false_eq_true, if_false]
  split
  · rw [outcome_bind_ok (outcome_message _ _)]
    exact (congrArg (fun x => outcome x _) (if_pos hstate)).trans (hfail _)
  · exact (congrArg (fun x => outcome x _) (if_pos hstate)).trans (hfail _)

end Filter

namespace Checker

variable {c : Checker} {m : Model} {entered : Entered}

/-! ## What a filter answers -/

/-- Over whatever domain and from whatever run, the expression can be evaluated and leaves the value behind as the
answer. -/
def Leaves (c : Checker) (m : Model) (entered : Entered) (e : Expr) (y : ResultValue) : Prop :=
  ∀ domain r, ∃ w r', c.eval m entered e domain r = (.ok w, r') ∧ r'.answer.value = some y

/-- Over whatever domain and from whatever run, evaluating the expression fails with the error. -/
def Fails (c : Checker) (m : Model) (entered : Entered) (e : Expr) (err : CheckError) : Prop :=
  ∀ domain r, outcome (c.eval m entered e domain) r = .error err

variable {e : Expr} {op : FilterOp} {selector : Option Expr} {invisible explained : Bool} {states : StateSet}

/-- A selector that selects some of the states, and an operand with a vector over all states. Over part of the selected
states the operand has the values of this vector. -/
structure Selects (c : Checker) (m : Model) (entered : Entered) (selector : Option Expr) (states : StateSet) (e : Expr)
    (v : StateVector) : Prop where
  small : m.numStates < stateLimit
  chosen : ∀ r, outcome (selected .whereOpen c m entered selector) r = .ok states
  lt : ∀ s ∈ states, s < m.numStates
  nonempty : states.isEmpty = false
  plain : v.IsPlain m.numStates
  operand : ∀ part : StateSet, (∀ s ∈ part, s ∈ states) → ∀ r, ∃ w,
    outcome (evalWith .whereOpen c m entered e (some part)) r = .ok w ∧
      w.IsPlain m.numStates ∧ Matches m.numStates (some part) v w

theorem selected_steady (hm : m.LabelsInRange) (hc : c.solver = none) {r : Run}
    (h : outcome (selected .whereOpen c m entered selector) r = .ok states) :
    (∀ r', outcome (selected .whereOpen c m entered selector) r' = .ok states) ∧ ∀ s ∈ states, s < m.numStates := by
  have hselected : Delivers (selected .whereOpen c m entered selector) fun a =>
      (∀ s ∈ a, s < m.numStates) ∧ (selector = none → a = .full m.numStates) := selected_real hc hm selector
  exact ⟨fun r' => (hselected.steady r' r).trans h, (hselected.spec r states h).1⟩

theorem selects (hn : m.numStates < stateLimit) (hm : m.LabelsInRange) (hc : c.solver = none) {v : StateVector}
    {r r₁ : Run} (hstates : outcome (selected .whereOpen c m entered selector) r₁ = .ok states)
    (hne : states.isEmpty = false) (hv : outcome (c.eval m entered e none) r = .ok v) :
    Selects c m entered selector states e v := by
  obtain ⟨hsteady, hlt⟩ := selected_steady hm hc hstates
  refine ⟨hn, hsteady, hlt, hne, plain_of_outcome hc hv, fun part hpart r' => ?_⟩
  have hd : Narrows m.numStates none (some part) := Narrows.of_lt fun s hs => hlt s (hpart s hs)
  obtain ⟨w, hw, hmatch⟩ := evalWith_follows (Compares.refl hc hn hm) entered e hd r r' v hv
  exact ⟨w, hw, plain_of_outcome hc hw, hmatch⟩

namespace Selects

variable {v : StateVector}

/-- The answer of a filter is what the reduction of its operand over the selected states reports. -/
theorem answers_of_finds (h : Selects c m entered selector states e v) {y : ResultValue} {part : StateSet}
    (hcan : Filter.CanSelect ⟨op, selector, invisible, explained⟩ m states)
    (hpart : (Filter.selectionOf ⟨op, selector, invisible, explained⟩ m states).states = part)
    (hfinds : ∀ w s, w.IsPlain m.numStates → Matches m.numStates (some part) v w → s.states = part →
      Filter.Finds ⟨op, selector, invisible, explained⟩ c.settings m s w y) :
    Leaves c m entered (.filter op e selector invisible explained) y := by
  intro domain r
  have hsub := (Filter.selectionOf_states _ m hcan).1
  rw [hpart] at hsub
  unfold eval
  rw [evalWith_filter, run_bind_ok (h.chosen r)]
  unfold applyFilter
  rw [run_bind_ok (Filter.select_succeeds _ m hcan _), hpart]
  obtain ⟨w, hw, hplain, hmatch⟩ := h.operand part hsub
    (after (Filter.select ⟨op, selector, invisible, explained⟩ m states)
      (after (selected .whereOpen c m entered selector) r))
  rw [run_bind_ok hw]
  obtain ⟨reduced, hreduced, hvalue⟩ := hfinds w _ hplain hmatch hpart (after (evalWith .whereOpen c m entered e _) _)
  rw [run_bind_ok hreduced]
  exact ⟨_, _, rfl, hvalue⟩

/-- A filter over all selected states. -/
theorem answers_all (h : Selects c m entered selector states e v) {y : ResultValue}
    (hop : op ≠ .first ∧ op ≠ .state)
    (hfinds : ∀ w s, w.IsPlain m.numStates → Matches m.numStates (some states) v w → s.states = states →
      Filter.Finds ⟨op, selector, invisible, explained⟩ c.settings m s w y) :
    Leaves c m entered (.filter op e selector invisible explained) y :=
  h.answers_of_finds ⟨h.nonempty, fun hstate => absurd hstate hop.2⟩ (if_neg hop.1) hfinds

theorem exists_mem (h : Selects c m entered selector states e v) : ∃ s, s ∈ states :=
  StateSet.isEmpty_eq_false_iff.mp h.nonempty

theorem valueAt (h : Selects c m entered selector states e v) : ∀ s ∈ states, ∃ y, v.valueAt s = .ok y :=
  fun s hs => h.plain.valueAt (h.lt s hs)

theorem answers_forAll (h : Selects c m entered selector states e v) {b : Bool} (hb : v.forAllOver states = .ok b) :
    Leaves c m entered (.filter .forAll e selector invisible explained) (.value (.bool b)) := by
  refine h.answers_all (by decide) fun w s hw hmatch hs => Filter.finds_forAll rfl hw.2 ?_
  rw [hs, ← forAllOver_congr hmatch h.small h.lt h.plain hw]
  exact hb

theorem answers_thereIs (h : Selects c m entered selector states e v) {b : Bool} (hb : v.existsOver states = .ok b) :
    Leaves c m entered (.filter .thereIs e selector invisible explained) (.value (.bool b)) := by
  refine h.answers_all (by decide) fun w s hw hmatch hs => Filter.finds_thereIs rfl ?_
  rw [hs, ← existsOver_congr hmatch h.small h.lt h.plain hw]
  exact hb

theorem answers_count (h : Selects c m entered selector states e v) {k : Nat} (hk : v.countOver states = .ok k) :
    Leaves c m entered (.filter .count e selector invisible explained) (.value (.int (Int64.ofNat k))) := by
  refine h.answers_all (by decide) fun w s hw hmatch hs => Filter.finds_single rfl ?_
  rw [hs, ← countOver_congr hmatch h.small h.lt h.plain hw, hk]
  rfl

theorem answers_sum (h : Selects c m entered selector states e v) {x : Value} (hx : v.sumOver states = .ok x) :
    Leaves c m entered (.filter .sum e selector invisible explained) (.value x) := by
  refine h.answers_all (by decide) fun w s hw hmatch hs => Filter.finds_single rfl ?_
  rw [hs, ← (sumOver_congr hmatch h.lt h.plain hw).1]
  exact hx

/-- A value that is picked by a fold over the selected states. -/
theorem answers_fold (h : Selects c m entered selector states e v) {kind : String}
    {combine : Value → Value → Except EvalError Value} (hop : op ≠ .first ∧ op ≠ .state)
    (hreduce : ∀ s w, Filter.reduce ⟨op, selector, invisible, explained⟩ c.settings m s w =
      Filter.reduceExtreme c.settings m s w kind (w.foldOver combine s.states))
    {x : Value} (hx : v.foldOver combine states = .ok x) (htype : x.type = v.type) :
    Leaves c m entered (.filter op e selector invisible explained) (.value x) := by
  refine h.answers_all hop fun w s hw hmatch hs => ?_
  refine Filter.finds_extreme (hreduce s w) ?_ ?_ (htype.trans hmatch.type)
  · rw [hs, ← foldOver_congr hmatch]
    exact hx
  · exact fun i hi => hw.valueAt (h.lt i (hs ▸ hi))

theorem answers_range (h : Selects c m entered selector states e v) {low high : Value}
    (hlow : v.minOver states = .ok low) (hhigh : v.maxOver states = .ok high) :
    Leaves c m entered (.filter .range e selector invisible explained) (.range low high) := by
  refine h.answers_all (by decide) fun w s hw hmatch hs => Filter.finds_range rfl ?_ ?_
  · rw [hs]
    exact (foldOver_congr hmatch _).symm.trans hlow
  · rw [hs]
    exact (foldOver_congr hmatch _).symm.trans hhigh

/-- The least and the greatest value, and both as a range. -/
theorem answers_extremes (h : Selects c m entered selector states e v) (invisible explained : Bool) :
    ∃ low high, v.HasLeast states low ∧ v.HasGreatest states high ∧
      Leaves c m entered (.filter .min e selector invisible explained) (.value low) ∧
      Leaves c m entered (.filter .max e selector invisible explained) (.value high) ∧
      Leaves c m entered (.filter .range e selector invisible explained) (.range low high) := by
  obtain ⟨low, hlow, hleast⟩ := minOver_least h.valueAt h.exists_mem
  obtain ⟨high, hhigh, hgreatest⟩ := maxOver_greatest h.valueAt h.exists_mem
  obtain ⟨s, -, hs⟩ := hleast.attained
  obtain ⟨t, -, ht⟩ := hgreatest.attained
  refine ⟨low, high, hleast, hgreatest, ?_, ?_, h.answers_range hlow hhigh⟩
  · exact h.answers_fold (by decide) (fun _ _ => rfl) hlow (type_of_valueAt hs)
  · exact h.answers_fold (by decide) (fun _ _ => rfl) hhigh (type_of_valueAt ht)

/-- The value in the least state. -/
theorem answers_first (h : Selects c m entered selector states e v) {s : Nat} (hs : s ∈ states)
    (hleast : ∀ t ∈ states, s ≤ t) {x : Value} (hx : v.valueAt s = .ok x) :
    Leaves c m entered (.filter .first e selector invisible explained) (.value x) := by
  have hstates : states.first? = some s := StateSet.first?_eq_some hs hleast
  refine h.answers_of_finds ⟨h.nonempty, fun hstate => by cases hstate⟩ rfl fun w sel hw hmatch hsel => ?_
  refine Filter.finds_single rfl ?_
  rw [hsel, ← firstIn_congr hmatch]
  show v.firstIn states.retainFirst = .ok x
  unfold firstIn
  rw [StateSet.first?_retainFirst, hstates]
  exact hx

/-- The value in the only state. -/
theorem answers_state (h : Selects c m entered selector states e v) {s : Nat} (honly : ∀ t, t ∈ states ↔ t = s)
    {x : Value} (hx : v.valueAt s = .ok x) :
    Leaves c m entered (.filter .state e selector invisible explained) (.value x) := by
  have hstates : states.first? = some s :=
    StateSet.first?_eq_some ((honly s).mpr rfl) fun t ht => Nat.le_of_eq ((honly t).mp ht).symm
  have hsize : states.size = 1 := by rw [StateSet.eq_singleton honly]; rfl
  refine h.answers_of_finds ⟨h.nonempty, fun _ => hsize⟩ rfl fun w sel hw hmatch hsel => ?_
  refine Filter.finds_single rfl ?_
  rw [hsel, ← firstIn_congr hmatch]
  show v.firstIn states = .ok x
  unfold firstIn
  rw [hstates]
  exact hx

end Selects

/-! ## Filters that fail -/

theorem fails_of_select {err : CheckError}
    (hstates : ∀ r, outcome (selected .whereOpen c m entered selector) r = .ok states)
    (hselect : ∀ r, outcome (Filter.select ⟨op, selector, invisible, explained⟩ m states) r = .error err) :
    Fails c m entered (.filter op e selector invisible explained) err := by
  intro domain r
  unfold eval
  rw [evalWith_filter, outcome_bind_ok (hstates r)]
  exact outcome_bind_error (hselect _)

/-- A filter fails without selected states, and a filter for one state also with several. Otherwise it reports the
combination of the values that its operand has in the selected states, if the operand can be evaluated over all
states: the conjunction, disjunction and number of truth values, the least and the greatest value and both as a range,
the sum of integers whose partial sums fit, and the value in the least or the only state. -/
theorem filter_answers (c : Checker) (m : Model) (hn : m.numStates < stateLimit) (hm : m.LabelsInRange)
    (hc : c.solver = none) (entered : Entered) (e : Expr) (selector : Option Expr) (invisible explained : Bool)
    (states : StateSet) (r₁ : Run) (hstates : outcome (selected .whereOpen c m entered selector) r₁ = .ok states) :
    (states.isEmpty = true → ∀ op, Fails c m entered (.filter op e selector invisible explained) .emptyFilter) ∧
    (states.isEmpty = false → states.size ≠ 1 → Fails c m entered (.filter .state e selector invisible explained)
      (.filterCardinality ((selector.map Expr.text).getD "true") states.size)) ∧
    (states.isEmpty = false → ∀ v r₀, outcome (c.eval m entered e none) r₀ = .ok v →
      let answers op y := Leaves c m entered (.filter op e selector invisible explained) y
      (∀ b : Nat → Bool, (∀ s ∈ states, v.valueAt s = .ok (.bool (b s))) →
        answers .forAll (.value (.bool (states.toList.all b))) ∧
        answers .thereIs (.value (.bool (states.toList.any b))) ∧
        (∃ k : Int64, k.toInt = states.toList.countP b ∧ answers .count (.value (.int k))) ∧
        answers .min (.value (.bool (states.toList.all b))) ∧
        answers .max (.value (.bool (states.toList.any b)))) ∧
      (∃ low high, v.HasLeast states low ∧ v.HasGreatest states high ∧
        answers .min (.value low) ∧ answers .max (.value high) ∧ answers .range (.range low high)) ∧
      (∀ k : Nat → Int64, (∀ s ∈ states, v.valueAt s = .ok (.int (k s))) →
        (∀ i, FitsWord ((states.toList.take i).map fun s => (k s).toInt).sum) →
        ∃ total : Int64, total.toInt = (states.toList.map fun s => (k s).toInt).sum ∧
          answers .sum (.value (.int total))) ∧
      (∀ s ∈ states, (∀ t ∈ states, s ≤ t) → ∃ x, v.valueAt s = .ok x ∧ answers .first (.value x)) ∧
      ∀ s, (∀ t, t ∈ states ↔ t = s) → ∃ x, v.valueAt s = .ok x ∧ answers .state (.value x)) := by
  obtain ⟨hsteady, hlt⟩ := selected_steady hm hc hstates
  refine ⟨fun hempty op => ?_, fun hne hsize => ?_, fun hne v r₀ hv => ?_⟩
  · exact fails_of_select hsteady (Filter.select_empty _ m hempty)
  · exact fails_of_select hsteady (Filter.select_several _ m hne rfl hsize)
  · have h : Selects c m entered selector states e v := selects hn hm hc hstates hne hv
    obtain ⟨low, high, hlow, hhigh, hanswers⟩ := h.answers_extremes invisible explained
    intro answers
    refine ⟨fun b hb => ?_, ⟨low, high, hlow, hhigh, hanswers⟩, fun k hk hfit => ?_, fun s hs hleast => ?_,
      fun s honly => ?_⟩
    · have hcount : states.toList.countP b < 9223372036854775808 := by
        have hle : states.toList.countP b ≤ states.toList.length := List.countP_le_length
        have hsize : states.toList.length ≤ m.numStates := StateSet.size_le hlt
        have hlimit : m.numStates < 4294967296 := hn
        omega
      refine ⟨h.answers_forAll (forAllOver_bools hb h.exists_mem), h.answers_thereIs (existsOver_bools hb h.exists_mem),
        ⟨_, ?_, h.answers_count (countOver_bools hb h.exists_mem)⟩, ?_, ?_⟩
      · exact Int64.toInt_ofNat_of_lt hcount
      · rw [← hlow.eq_all hb]
        exact hanswers.1
      · rw [← hhigh.eq_any hb]
        exact hanswers.2.1
    · obtain ⟨total, htotal, hsum⟩ := sumOver_ints hk h.exists_mem hfit
      exact ⟨total, hsum, h.answers_sum htotal⟩
    · obtain ⟨x, hx⟩ := h.valueAt s hs
      exact ⟨x, hx, h.answers_first hs hleast hx⟩
    · obtain ⟨x, hx⟩ := h.valueAt s ((honly s).mpr rfl)
      exact ⟨x, hx, h.answers_state honly hx⟩

end Checker

/-! ## Filters over two of three states -/

/-- Three states with the values 7, 2 and 1 of a variable. -/
def Model.descending : Model :=
  ⟨.dtmc, ["x"], #[⟨[.int 7], []⟩, ⟨[.int 2], []⟩, ⟨[.int 1], []⟩], .singleton 0, .empty, #[]⟩

theorem Model.labelsInRange_descending : descending.LabelsInRange := by
  intro name states h
  cases h

namespace Checker

/-- The condition `x < 7`, which selects the last two states. -/
def belowSeven : Expr := .binary .lt (.var "x" 0 .int) (.literal (.int 7))

/-- The condition `x != 2`. -/
def notTwo : Expr := .binary .ne (.var "x" 0 .int) (.literal (.int 2))

theorem selected_belowSeven (r : Run) :
    outcome (selected .whereOpen bare .descending .none (some belowSeven)) r = .ok (.ofList [1, 2]) := by
  show outcome (satisfying .whereOpen bare .descending .none none belowSeven) r = _
  unfold satisfying belowSeven
  rw [evalWith_strict .whereOpen _ _ _ _ (by decide), evalWith_var, evalWith_literal]
  rfl

theorem eval_descending (r : Run) :
    outcome (bare.eval .descending .none (.var "x" 0 .int) none) r = .ok ⟨.ints #[7, 2, 1], none⟩ := by
  unfold eval
  rw [evalWith_var]
  rfl

theorem eval_notTwo (r : Run) :
    outcome (bare.eval .descending .none notTwo none) r = .ok (.ofSet (.ofList [0, 2]) 3) := by
  unfold eval notTwo
  rw [evalWith_strict .whereOpen _ _ _ _ (by decide), evalWith_var, evalWith_literal]
  rfl

/-- Over the states with `x < 7` the variable has the values 2 and 1, and one of them is not 2. In the first state, with
its value 7, the sum, the greatest value, the first value and the count would be different. -/
theorem filter_answers_descending :
    let answers op e y := Leaves bare .descending .none (.filter op e (some belowSeven) false true) y
    let x : Expr := .var "x" 0 .int
    (answers .sum x (.value (.int 3)) ∧ answers .min x (.value (.int 1)) ∧ answers .max x (.value (.int 2)) ∧
      answers .range x (.range (.int 1) (.int 2)) ∧ answers .first x (.value (.int 2))) ∧
    (answers .forAll notTwo (.value (.bool false)) ∧ answers .thereIs notTwo (.value (.bool true)) ∧
      answers .count notTwo (.value (.int 1))) ∧
    Fails bare .descending .none (.filter .state x (some belowSeven) false true) (.filterCardinality belowSeven.text 2) := by
  intro answers x
  have hmem : ∀ s ∈ StateSet.ofList [1, 2], s = 1 ∨ s = 2 := by
    intro s hs
    simpa using (show s ∈ [1, 2] from hs)
  have hone : valueAt ⟨.ints #[7, 2, 1], none⟩ 1 = .ok (.int 2) := rfl
  have htwo : valueAt ⟨.ints #[7, 2, 1], none⟩ 2 = .ok (.int 1) := rfl
  have hless : Value.Less (.int 1) (.int 2) := show (1 : Int64) < 2 by decide
  obtain ⟨-, hfails, hanswers⟩ := filter_answers bare .descending (by decide) Model.labelsInRange_descending rfl .none
    x (some belowSeven) false true (.ofList [1, 2]) .start (selected_belowSeven .start)
  obtain ⟨-, ⟨low, high, hlow, hhigh, hmin, hmax, hrange⟩, hsum, hfirst, -⟩ := hanswers rfl _ _ (eval_descending .start)
  obtain ⟨-, -, hanswers⟩ := filter_answers bare .descending (by decide) Model.labelsInRange_descending rfl .none
    notTwo (some belowSeven) false true (.ofList [1, 2]) .start (selected_belowSeven .start)
  obtain ⟨hbools, -⟩ := hanswers rfl _ _ (eval_notTwo .start)
  have hlow : low = .int 1 := by
    obtain ⟨s, hs, hx⟩ := hlow.attained
    rcases hmem s hs with rfl | rfl
    · cases hx
      exact absurd hless (hlow.least 2 (by decide) _ htwo)
    · exact (Except.ok.inj hx).symm
  have hhigh : high = .int 2 := by
    obtain ⟨s, hs, hx⟩ := hhigh.attained
    rcases hmem s hs with rfl | rfl
    · exact (Except.ok.inj hx).symm
    · cases hx
      exact absurd hless (hhigh.greatest 1 (by decide) _ hone)
  subst hlow hhigh
  refine ⟨⟨?_, hmin, hmax, hrange, ?_⟩, ?_, hfails rfl (by decide)⟩
  · have hvalues : ∀ s ∈ StateSet.ofList [1, 2],
        valueAt ⟨.ints #[7, 2, 1], none⟩ s = .ok (.int (if s = 1 then 2 else 1)) := by
      intro s hs
      rcases hmem s hs with rfl | rfl <;> rfl
    have hfit : ∀ i, FitsWord (((StateSet.ofList [1, 2]).toList.take i).map
        fun s => (if s = 1 then 2 else 1 : Int64).toInt).sum := by
      intro i
      match i with
      | 0 | 1 => decide
      | i + 2 =>
        show FitsWord ((1 :: 2 :: List.take i []).map _).sum
        rw [List.take_nil]
        decide
    obtain ⟨total, htotal, hanswer⟩ := hsum _ hvalues hfit
    have hthree : total = 3 := Int64.toInt_inj.mp htotal
    exact hthree ▸ hanswer
  · obtain ⟨y, hy, hanswer⟩ := hfirst 1 (by decide) fun t ht => by rcases hmem t ht with rfl | rfl <;> decide
    cases hy
    exact hanswer
  · have hvalues : ∀ s ∈ StateSet.ofList [1, 2], valueAt (.ofSet (.ofList [0, 2]) 3) s = .ok (.bool (s == 2)) := by
      intro s hs
      rcases hmem s hs with rfl | rfl <;> rfl
    obtain ⟨hall, hany, ⟨k, hk, hcount⟩, -⟩ := hbools _ hvalues
    have hkone : k = 1 := Int64.toInt_inj.mp hk
    exact ⟨hall, hany, hkone ▸ hcount⟩

end Checker

end Statewise
