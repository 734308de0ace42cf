import Statewise.Check.Filter
import Statewise.Proofs.Tabulate
import Mathlib.Tactic.ByContra

/-!
# What filters yield

The selection of a filter depends on the satisfaction set of its selector alone, and its reduction on the
vector of its operand. None of the two looks at the run.
-/

namespace Statewise

open Check

namespace Filter

variable (f : Filter) (m : Model)

/-! ## Selecting -/

/-- What a filter selects when its selector holds in the given states. -/
def selectionOf (states : StateSet) : Selection :=
  { states := if f.op = .first then states.retainFirst else states
    isAll := states.isFull m.numStates
    isInit := Expr.selectsInit f.selector
    isOnlyInit := Expr.selectsInit f.selector && m.numInitial == 1 }

/-- There is something to select, and no more than the filter takes. -/
def CanSelect (states : StateSet) : Prop :=
  states.isEmpty = false ∧ (f.op = .state → (f.selectionOf m states).states.size = 1)

/-- Only the filter for the first state leaves states out. -/
theorem selectionOf_states_of_ne {states : StateSet} (hop : f.op ≠ .first) : (f.selectionOf m states).states = states :=
  if_neg hop

theorem retainFirst_nonempty {a : StateSet} (h : ∃ s, s ∈ a) : ∃ s, s ∈ a.retainFirst := by
  obtain ⟨s, hs⟩ := h
  obtain ⟨xs, hsorted, hbound⟩ := a
  cases xs with
  | nil => cases hs
  | cons x xs => exact ⟨x, List.mem_cons_self⟩

/-- A filter works on states that satisfy its selector, and on at least one. -/
theorem selectionOf_states {states : StateSet} (h : f.CanSelect m states) :
    (∀ s ∈ (f.selectionOf m states).states, s ∈ states) ∧ ∃ s, s ∈ (f.selectionOf m states).states := by
  have hne : ∃ s, s ∈ states := StateSet.isEmpty_eq_false_iff.mp h.1
  unfold selectionOf
  by_cases hop : f.op = .first
  · simp only [if_pos hop]
    exact ⟨fun s hs => (List.take_sublist 1 _).subset hs, retainFirst_nonempty hne⟩
  · simp only [if_neg hop]
    exact ⟨fun s hs => hs, hne⟩

theorem select_succeeds {states : StateSet} (h : f.CanSelect m states) (r : Run) :
    outcome (f.select m states) r = .ok (f.selectionOf m states) := by
  have hstate : ¬(f.op = .state ∧ (f.selectionOf m states).states.size ≠ 1) := fun hs => hs.2 (h.2 hs.1)
  unfold select
  simp only [h.1, Bool.false_eq_true, if_false]
  split
  · rw [outcome_bind_ok (outcome_message _ _)]
    exact (congrArg (fun x => outcome x _) (if_neg hstate)).trans rfl
  · exact (congrArg (fun x => outcome x _) (if_neg hstate)).trans rfl

theorem select_delivers (states : StateSet) :
    Delivers (f.select m states) fun s => s = f.selectionOf m states ∧ f.CanSelect m states := by
  unfold select
  refine Delivers.ite (fun _ => Delivers.throw _) fun hempty => ?_
  have hempty : states.isEmpty = false := by simpa using hempty
  have hrest : Delivers (do
      if f.op = .state ∧ (f.selectionOf m states).states.size ≠ 1 then
        throw (.filterCardinality f.selectorText (f.selectionOf m states).states.size)
      setHint (f.hint (f.selectionOf m states))
      return f.selectionOf m states) fun s => s = f.selectionOf m states ∧ f.CanSelect m states := by
    refine Delivers.ite (fun _ => Delivers.throw _) fun hstate => ?_
    refine Delivers.next (Steady.setHint _) fun _ => Delivers.pure ⟨rfl, hempty, fun hop => ?_⟩
    by_contra hsize
    exact hstate ⟨hop, hsize⟩
  refine Delivers.ite (fun _ => ?_) fun _ => ?_
  · exact Delivers.next (Steady.message _) fun _ => hrest
  · exact hrest

/-! ## Reducing -/

/-- Where the parts of a reduction come from. -/
inductive Origin (numStates : Nat) (states : StateSet) (v : StateVector) : Reduced → Prop where
  /-- The vector of the operand goes on; no single value is reported. -/
  | kept (value : Option ResultValue) (accuracy : Option Accuracy) (explanation : Option String)
      (h : ∀ x, value ≠ some (.value x)) : Origin numStates states v ⟨v, value, accuracy, explanation⟩
  /-- The value that is reported is everywhere in the vector. -/
  | single (x : Value) (accuracy : Option Accuracy) (explanation : String) :
      Origin numStates states v (.single numStates x accuracy explanation)
  | frontier (points : List (List Float)) :
      Origin numStates states v ⟨.constant (.bool true) numStates, some (.frontier points), none, none⟩
  /-- The vector holds in some of the states of the filter. -/
  | matching (found : StateSet) (h : ∀ s ∈ found, s ∈ states) :
      Origin numStates states v (.vectorOnly (.ofSet found numStates))

variable (settings : Settings) (s : Selection) (v : StateVector)

theorem closeStates_subset {target : Value} {t : Tolerance} {d found : StateSet}
    (h : v.closeStates target t (some d) = .ok found) : ∀ s ∈ found, s ∈ d := by
  obtain ⟨xs, hxs, heq⟩ := Yields.bind_eq_ok.mp h
  cases heq
  intro s hs
  obtain ⟨i, hi, rfl⟩ := StateSet.mem_ofList.mp hs
  have hmem : i ∈ d.toList := Yields.mem_of_filterM_eq_ok hxs i hi
  rw [StateSet.index_of_lt (d.bounded i hmem)]
  exact hmem

theorem matching_delivers (extreme : Value) :
    Delivers (matching settings s v extreme) fun found => ∀ i ∈ found, i ∈ s.states :=
  Delivers.ofEval fun _ h => closeStates_subset v h

theorem steady_showMatching (found : StateSet) (x : Value) : Steady (showMatching settings m found x) := by
  suffices h : Delivers (showMatching settings m found x) fun _ => True from h.steady
  unfold showMatching
  refine Delivers.next (Steady.message _) fun _ => Delivers.ite (fun _ => ?_) fun _ => ?_
  · exact ⟨Steady.forM fun _ => Steady.message _, fun _ _ _ => trivial⟩
  · refine Delivers.ite (fun _ => ?_) fun _ => ?_
    · refine Delivers.next (Steady.message _) fun _ => ?_
      exact ⟨Steady.forM fun _ => Steady.message _, fun _ _ _ => trivial⟩
    · exact ⟨Steady.forM fun _ => Steady.message _, fun _ _ _ => trivial⟩

theorem reducePrint_delivers (includeZeros : Bool) :
    Delivers (reducePrint f m s v includeZeros) (Origin m.numStates s.states v) := by
  have hlines : ∀ lines : List String, Delivers (do
      lines.forM message
      return Reduced.vectorOnly v) (Origin m.numStates s.states v) := fun lines =>
    Delivers.next (Steady.forM fun _ => Steady.message _) fun _ => Delivers.pure (.kept _ _ _ fun _ h => by cases h)
  unfold reducePrint
  refine Delivers.compute fun lines => Delivers.ite (fun _ => Delivers.ite (fun _ => ?_) fun _ => ?_) fun _ => ?_
  · exact Delivers.next (Steady.message _) fun _ => hlines lines
  · exact Delivers.next (Steady.message _) fun _ => hlines lines
  · exact Delivers.next (Steady.message _) fun _ => hlines lines

theorem reduceExtreme_delivers (kind : String) (extreme : Except EvalError Value) :
    Delivers (reduceExtreme settings m s v kind extreme) (Origin m.numStates s.states v) := by
  unfold reduceExtreme
  refine Delivers.compute fun x => Delivers.next (Steady.message _) fun _ => ?_
  refine Delivers.bind (matching_delivers settings s v x) fun found _ => ?_
  exact Delivers.next (steady_showMatching m settings found x) fun _ => Delivers.pure (.single ..)

theorem reduceArgument_delivers (capital kind : String) (extreme : Except EvalError Value) :
    Delivers (reduceArgument settings m s v capital kind extreme) (Origin m.numStates s.states v) := by
  unfold reduceArgument
  refine Delivers.compute fun x => Delivers.next (Steady.message _) fun _ => ?_
  refine Delivers.bind (matching_delivers settings s v x) fun found hfound => ?_
  exact Delivers.next (Steady.message _) fun _ => Delivers.pure (.matching found hfound)

theorem reduceSingle_delivers (value : Except EvalError Value) (accuracy : Option Accuracy) (explanation : String) :
    Delivers (reduceSingle m value accuracy explanation) (Origin m.numStates s.states v) := by
  unfold reduceSingle
  exact Delivers.compute fun x => Delivers.next (Steady.message _) fun _ => Delivers.pure (.single ..)

theorem reduceRange_delivers : Delivers (reduceRange s v) (Origin m.numStates s.states v) := by
  unfold reduceRange
  refine Delivers.compute fun x => Delivers.next (Steady.message _) fun _ => Delivers.pure (.kept _ _ _ ?_)
  exact fun _ h => by cases h

theorem reduceForAll_delivers : Delivers (reduceForAll m s v) (Origin m.numStates s.states v) := by
  unfold reduceForAll
  split
  · exact Delivers.next (Steady.message _) fun _ => Delivers.pure (.frontier _)
  · refine Delivers.compute fun holds => Delivers.compute fun satisfied => ?_
    exact Delivers.next (Steady.message _) fun _ => Delivers.pure (.single ..)

theorem reduceExists_delivers : Delivers (reduceExists m s v) (Origin m.numStates s.states v) := by
  unfold reduceExists
  exact Delivers.compute fun holds => Delivers.next (Steady.message _) fun _ => Delivers.pure (.single ..)

theorem reduce_delivers : Delivers (f.reduce settings m s v) (Origin m.numStates s.states v) := by
  unfold reduce
  split
  · exact reducePrint_delivers f m s v false
  · exact reducePrint_delivers f m s v true
  · exact Delivers.next (Steady.modify _) fun _ => Delivers.pure (.kept _ _ _ fun _ h => by cases h)
  · exact reduceExtreme_delivers m settings s v _ _
  · exact reduceExtreme_delivers m settings s v _ _
  · exact reduceArgument_delivers m settings s v _ _ _
  · exact reduceArgument_delivers m settings s v _ _ _
  · exact reduceSingle_delivers m s v _ _ _
  · exact reduceSingle_delivers m s v _ _ _
  · exact reduceSingle_delivers m s v _ _ _
  · exact reduceSingle_delivers m s v _ _ _
  · exact reduceRange_delivers m s v
  · exact reduceForAll_delivers m s v
  · exact reduceExists_delivers m s v
  · exact reduceSingle_delivers m s v _ _ _

/-! ## When reductions succeed -/

/-- The reduction reports a value, and this value is everywhere in its vector. -/
def IsSingle (numStates : Nat) (x : Value) (r : Reduced) : Prop :=
  ∃ accuracy explanation, r = .single numStates x accuracy explanation

theorem select_settles (states : StateSet) :
    Settles (f.select m states) (f.CanSelect m states) fun s => s = f.selectionOf m states := by
  constructor
  · intro r s h
    obtain ⟨hs, hcan⟩ := (f.select_delivers m states).spec r s h
    exact ⟨hcan, hs⟩
  · intro r e h hcan
    rw [f.select_succeeds m hcan r] at h
    cases h

theorem reduceSingle_settles (value : Except EvalError Value) (accuracy : Option Accuracy) (explanation : String) :
    Settles (reduceSingle m value accuracy explanation) (∃ x, value = .ok x)
      fun r => ∃ x, value = .ok x ∧ IsSingle m.numStates x r := by
  unfold reduceSingle
  refine Settles.bind (P := fun x => value = .ok x) (S := ∃ x, value = .ok x) ?_ id fun x hS hx => ?_
  · exact Settles.ofEval (fun x hx => ⟨⟨x, hx⟩, hx⟩) id
  · exact Settles.next (fun r => ⟨(), rfl⟩) fun _ => Settles.pure hS ⟨x, hx, _, _, rfl⟩

theorem outcome_showMatching (found : StateSet) (x : Value) (r : Run) :
    outcome (showMatching settings m found x) r = .ok () := by
  have hlist : ∀ (xs : List Nat) (r : Run), outcome (xs.forM fun i => message (m.describe i)) r = .ok () :=
    fun xs r => outcome_forM (fun _ _ => rfl) r
  unfold showMatching
  rw [outcome_bind_ok (outcome_message _ r)]
  split
  · exact hlist _ _
  · split
    · rw [outcome_bind_ok (outcome_message _ _)]
      exact hlist _ _
    · exact hlist _ _

theorem reduceExtreme_settles (kind : String) {extreme : Except EvalError Value}
    (hclose : ∀ x, extreme = .ok x → ∃ found, v.closeStates x settings.tolerance (some s.states) = .ok found) :
    Settles (reduceExtreme settings m s v kind extreme) (∃ x, extreme = .ok x)
      fun r => ∃ x, extreme = .ok x ∧ IsSingle m.numStates x r := by
  unfold reduceExtreme
  refine Settles.bind (P := fun x => extreme = .ok x) (S := ∃ x, extreme = .ok x) ?_ id fun x hS hx => ?_
  · exact Settles.ofEval (fun x hx => ⟨⟨x, hx⟩, hx⟩) id
  -- After the extreme is known only the search for states close to it could fail.
  · refine Settles.next (fun r => ⟨(), rfl⟩) fun _ => Settles.next (fun r => ?_) fun found => ?_
    · obtain ⟨found, hfound⟩ := hclose x hx
      exact ⟨found, outcome_ofEval_eq_ok.mpr hfound⟩
    · refine Settles.next (fun r => ⟨(), outcome_showMatching m settings found x r⟩) fun _ => ?_
      exact Settles.pure hS ⟨x, hx, _, _, rfl⟩

theorem reduceForAll_settles (hv : v.isFrontier = false) :
    Settles (reduceForAll m s v) (∃ a, v.satisfaction = .ok a)
      fun r => ∃ a, v.satisfaction = .ok a ∧ IsSingle m.numStates (.bool (s.states.subset a)) r := by
  have hpoints : v.points? = none := by
    unfold StateVector.points?
    unfold StateVector.isFrontier at hv
    split
    · next h => rw [h] at hv; cases hv
    · rfl
  unfold reduceForAll StateVector.forAllOver StateVector.countOver
  rw [hpoints]
  cases ha : v.satisfaction with
  | error e => exact Settles.throw _ (by simp)
  | ok a =>
    refine Settles.bind (S := True) (P := fun holds => holds = s.states.subset a) ?_ (fun _ => trivial)
      fun holds _ hholds => ?_
    · exact Settles.ofEval (fun holds h => by cases h; exact ⟨trivial, rfl⟩) fun _ => ⟨_, rfl⟩
    · subst hholds
      refine Settles.next (fun _ => ⟨_, rfl⟩) fun satisfied => Settles.next (fun _ => ⟨(), rfl⟩) fun _ => ?_
      exact Settles.pure ⟨a, rfl⟩ ⟨a, rfl, _, _, rfl⟩

theorem reduceExists_settles :
    Settles (reduceExists m s v) (∃ a, v.satisfaction = .ok a)
      fun r => ∃ a, v.satisfaction = .ok a ∧ IsSingle m.numStates (.bool (s.states.toList.any a.contains)) r := by
  unfold reduceExists StateVector.existsOver
  cases ha : v.satisfaction with
  | error e => exact Settles.throw _ (by simp)
  | ok a =>
    refine Settles.bind (S := True) (P := fun holds => holds = s.states.toList.any a.contains) ?_
      (fun _ => trivial) fun holds _ hholds => ?_
    · exact Settles.ofEval (fun holds h => by cases h; exact ⟨trivial, rfl⟩) fun _ => ⟨_, rfl⟩
    · subst hholds
      exact Settles.next (fun _ => ⟨(), rfl⟩) fun _ => Settles.pure ⟨a, rfl⟩ ⟨a, rfl, _, _, rfl⟩

/-! ## Recording -/

theorem record_delivers (parameters : Option String) (r : Reduced) :
    Delivers (f.record settings parameters r) fun w => w = r.vector :=
  Delivers.next (Steady.modify _) fun _ => Delivers.pure rfl

theorem record_settles {S : Prop} (hS : S) (parameters : Option String) (r : Reduced) :
    Settles (f.record settings parameters r) S fun w => w = r.vector :=
  Settles.next (fun _ => ⟨(), rfl⟩) fun _ => Settles.pure hS rfl

/-! ## What reductions leave behind -/

theorem showMatching_announces (found : StateSet) (x : Value) : Announces (showMatching settings m found x) := by
  have hstates : ∀ xs : List Nat, Announces (xs.forM fun i => message (m.describe i)) :=
    fun xs => Announces.forM fun _ => Announces.message _
  unfold showMatching
  refine Announces.bind (Announces.message _) fun _ => Announces.ite (hstates _) ?_
  exact Announces.ite (Announces.bind (Announces.message _) fun _ => hstates _) (hstates _)

theorem reduceSingle_announces (value : Except EvalError Value) (accuracy : Option Accuracy) (explanation : String) :
    Announces (reduceSingle m value accuracy explanation) := by
  unfold reduceSingle
  exact Announces.bind (Announces.ofEval _) fun _ => Announces.bind (Announces.message _) fun _ => Announces.pure _

theorem reduceExtreme_announces (kind : String) (extreme : Except EvalError Value) :
    Announces (reduceExtreme settings m s v kind extreme) := by
  unfold reduceExtreme
  refine Announces.bind (Announces.ofEval _) fun x => Announces.bind (Announces.message _) fun _ => ?_
  refine Announces.bind (Announces.ofEval _) fun found => ?_
  exact Announces.bind (showMatching_announces m settings found x) fun _ => Announces.pure _

theorem reduceArgument_announces (capital kind : String) (extreme : Except EvalError Value) :
    Announces (reduceArgument settings m s v capital kind extreme) := by
  unfold reduceArgument
  refine Announces.bind (Announces.ofEval _) fun x => Announces.bind (Announces.message _) fun _ => ?_
  exact Announces.bind (Announces.ofEval _) fun found => Announces.bind (Announces.message _) fun _ => Announces.pure _

theorem reducePrint_announces (includeZeros : Bool) : Announces (reducePrint f m s v includeZeros) := by
  have hlines : ∀ lines : List String, Announces (do lines.forM message; return Reduced.vectorOnly v) :=
    fun lines => Announces.bind (Announces.forM fun _ => Announces.message _) fun _ => Announces.pure _
  unfold reducePrint
  refine Announces.bind (Announces.ofEval _) fun lines => Announces.ite (Announces.ite ?_ ?_) ?_
  · exact Announces.bind (Announces.message _) fun _ => hlines lines
  · exact Announces.bind (Announces.message _) fun _ => hlines lines
  · exact Announces.bind (Announces.message _) fun _ => hlines lines

theorem reduceForAll_announces : Announces (reduceForAll m s v) := by
  unfold reduceForAll
  split
  · exact Announces.bind (Announces.message _) fun _ => Announces.pure _
  · refine Announces.bind (Announces.ofEval _) fun holds => Announces.bind (Announces.ofEval _) fun satisfied => ?_
    exact Announces.bind (Announces.message _) fun _ => Announces.pure _

/-- Only a filter that stores its vector writes to the answer before it records what it reports. -/
theorem reduce_announces (hop : f.op ≠ .store) : Announces (f.reduce settings m s v) := by
  unfold reduce
  split
  · exact reducePrint_announces f m s v false
  · exact reducePrint_announces f m s v true
  · next hstore => exact absurd hstore hop
  · exact reduceExtreme_announces m settings s v _ _
  · exact reduceExtreme_announces m settings s v _ _
  · exact reduceArgument_announces m settings s v _ _ _
  · exact reduceArgument_announces m settings s v _ _ _
  · exact reduceSingle_announces m _ _ _
  · exact reduceSingle_announces m _ _ _
  · exact reduceSingle_announces m _ _ _
  · exact reduceSingle_announces m _ _ _
  · exact Announces.bind (Announces.ofEval _) fun _ => Announces.bind (Announces.message _) fun _ => Announces.pure _
  · exact reduceForAll_announces m s v
  · exact Announces.bind (Announces.ofEval _) fun _ => Announces.bind (Announces.message _) fun _ => Announces.pure _
  · exact reduceSingle_announces m _ _ _

theorem reduce_tells : Tells (f.reduce settings m s v) := by
  by_cases hop : f.op = .store
  · unfold reduce
    rw [hop]
    exact Tells.bind (Tells.answer fun a => { a with vector := some v }) fun _ => Tells.pure _
  · exact (reduce_announces f m settings s v hop).toTells

theorem record_tells (parameters : Option String) (r : Reduced) : Tells (f.record settings parameters r) := by
  unfold record
  exact Tells.bind (Tells.answer fun a => ⟨r.value, r.accuracy, _, a.vector, parameters⟩) fun _ => Tells.pure _

end Filter

end Statewise
