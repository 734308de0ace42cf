import Statewise.Proofs.Composing
import Statewise.Proofs.RealStates

/-!
# What stops the program

A filter over a label can select states that the model does not have, if the label was attached with such states. Most
reductions answer them with an error. The sum and the mean of numbers read behind the end of the array, and this is the
only way in which a checker stops the program by itself (`aborts_only_behind`).
-/

namespace Statewise

open Check StateVector

namespace Filter

variable (f : Filter) (m : Model) (settings : Settings) (s : Selection) (v : StateVector)

/-! ## Reductions of filters -/

/-- The filter sums up, or takes a mean. -/
def Adds : Prop := f.op = .sum ∨ f.op = .avg

theorem showMatching_neverAborts (found : StateSet) (x : Value) : NeverAborts (showMatching settings m found x) := by
  have hstates : ∀ xs : List Nat, NeverAborts (xs.forM fun i => message (m.describe i)) :=
    fun xs => .forM fun _ => .message _
  refine .next (.message _) fun _ => .ite (hstates _) ?_
  exact .ite (.next (.message _) fun _ => hstates _) (hstates _)

theorem matching_neverAborts (x : Value) : NeverAborts (matching settings s v x) :=
  .ofEval (orderly_closeStates v x settings.tolerance (some s.states))

theorem reduceSingle_neverAborts {value : Except EvalError Value} (hvalue : Orderly value) (accuracy : Option Accuracy)
    (explanation : String) : NeverAborts (reduceSingle m value accuracy explanation) :=
  .next (.ofEval hvalue) fun _ => .next (.message _) fun _ => .pure _

theorem reduceExtreme_neverAborts (kind : String) {extreme : Except EvalError Value} (hextreme : Orderly extreme) :
    NeverAborts (reduceExtreme settings m s v kind extreme) := by
  refine .next (.ofEval hextreme) fun x => .next (.message _) fun _ => ?_
  refine .next (matching_neverAborts settings s v x) fun found => ?_
  exact .next (showMatching_neverAborts m settings found x) fun _ => .pure _

theorem reduceArgument_neverAborts (capital kind : String) {extreme : Except EvalError Value}
    (hextreme : Orderly extreme) : NeverAborts (reduceArgument settings m s v capital kind extreme) := by
  refine .next (.ofEval hextreme) fun x => .next (.message _) fun _ => ?_
  exact .next (matching_neverAborts settings s v x) fun found => .next (.message _) fun _ => .pure _

theorem reducePrint_neverAborts (includeZeros : Bool) : NeverAborts (reducePrint f m s v includeZeros) := by
  have hlines : ∀ lines : List String, NeverAborts (do lines.forM message; return Reduced.vectorOnly v) :=
    fun lines => .next (.forM fun _ => .message _) fun _ => .pure _
  refine .next (.ofEval (orderly_format v s.states includeZeros m.describe)) fun lines => ?_
  refine .ite (.ite ?_ ?_) ?_
  · exact .next (.message _) fun _ => hlines lines
  · exact .next (.message _) fun _ => hlines lines
  · exact .next (.message _) fun _ => hlines lines

theorem reduceForAll_neverAborts : NeverAborts (reduceForAll m s v) := by
  unfold reduceForAll
  split
  · exact .next (.message _) fun _ => .pure _
  · refine .next (.ofEval (orderly_forAllOver v s.states)) fun holds => ?_
    exact .next (.ofEval (orderly_countOver v s.states)) fun satisfied => .next (.message _) fun _ => .pure _

/-- A reduction stops the program only if it adds over states behind the end of the vector. -/
theorem reduce_neverAborts (h : f.Adds → ∀ i ∈ s.states, i < v.size) : NeverAborts (f.reduce settings m s v) := by
  unfold reduce
  split
  · exact reducePrint_neverAborts f m s v false
  · exact reducePrint_neverAborts f m s v true
  · exact .next (.modify _) fun _ => .pure _
  · exact reduceExtreme_neverAborts m settings s v _ (orderly_minOver v s.states)
  · exact reduceExtreme_neverAborts m settings s v _ (orderly_maxOver v s.states)
  · exact reduceArgument_neverAborts m settings s v _ _ (orderly_minOver v s.states)
  · exact reduceArgument_neverAborts m settings s v _ _ (orderly_maxOver v s.states)
  · exact reduceSingle_neverAborts m ((orderly_countOver v s.states).map _) _ _
  · next hop => exact reduceSingle_neverAborts m (orderly_sumOver (h (.inl hop))) _ _
  · next hop => exact reduceSingle_neverAborts m (orderly_avgOver (h (.inr hop))) _ _
  · exact reduceSingle_neverAborts m (orderly_firstIn v s.states) _ _
  · exact .next (.ofEval (orderly_rangeOver v s.states)) fun _ => .next (.message _) fun _ => .pure _
  · exact reduceForAll_neverAborts m s v
  · exact .next (.ofEval (orderly_existsOver v s.states)) fun _ => .next (.message _) fun _ => .pure _
  · exact reduceSingle_neverAborts m (orderly_firstIn v s.states) _ _

theorem select_neverAborts (states : StateSet) : NeverAborts (f.select m states) := by
  have hrest : ∀ selection : Selection, NeverAborts (do
      if f.op = .state ∧ selection.states.size ≠ 1 then
        throw (.filterCardinality f.selectorText selection.states.size)
      setHint (f.hint selection)
      return selection) := fun _ => .ite (.throw id) (.next (.modify _) fun _ => .pure _)
  unfold select
  exact .ite (.throw id) (.ite (.next (.message _) fun _ => hrest _) (hrest _))

end Filter

namespace Checker

variable {c : Checker} {m : Model} {entered : Entered} {domain : Option StateSet}

/-! ## Evaluations -/

/-- What the collaborators answer does not stop the program. -/
structure AskedSafely (c : Checker) (m : Model) : Prop where
  multi : ∀ answer, c.solver.bind (·.multi) = some answer → ∀ before args domain e,
    answer before m args domain = .error e → ¬e.Aborts
  rewards : c.solver ≠ none → ∀ source, c.rewards = some source → ∀ index allowNegative e,
    source m index allowNegative true = .error e → ¬e.Aborts
  quant : ∀ solver, c.solver = some solver → ∀ before request e, solver.quant before request = .error e → ¬e.Aborts

theorem AskedSafely.composes (h : c.AskedSafely m) : c.ComposesOrderly m fun _ x => NeverAborts x where
  throw _ he := .throw he
  tells _ hx := hx
  bind := .bind
  multi _ _ := fun _ _ he => by cases he
  rewards _ _ _ := fun _ _ he => by cases he
  multiAnswer answer hanswer _ _ _ := .ofExcept (h.multi answer hanswer _ _ _)
  rewardsAnswer hc source hsource _ _ := .ofExcept (h.rewards hc source hsource _ _)
  quantAnswer solver hsolver _ _ := .ofExcept (h.quant solver hsolver _ _)

/-- A sum or a mean that the evaluation may come to goes over a state behind the end of the vector of its operand. -/
def AddsBehind (c : Checker) (m : Model) (entered : Entered) (e : Expr) : Prop :=
  ∃ entered' op operand p invisible explained,
    c.definitions.ComesTo (entered, e) (entered', .filter op operand p invisible explained) ∧ (op = .sum ∨ op = .avg) ∧
    ∃ states r₁ r₂, selected .whereOpen c m entered' p r₁ = (.ok states, r₂) ∧
    ∃ v r₃ r₄, evalWith .whereOpen c m entered' operand (some states) r₃ = (.ok v, r₄) ∧ ∃ s ∈ states, v.size ≤ s

/-- Without one neither the evaluation nor the rewriting of an expression stops the program. -/
theorem neverAborts_of_not_addsBehind (h : c.AskedSafely m) {e : Expr} (he : ¬c.AddsBehind m entered e) :
    EvalHas (fun _ x => NeverAborts x) c m entered e ∧ ExtractHas (fun _ x => NeverAborts x) c m entered e := by
  have hrequests : RequestsBy (fun _ x => NeverAborts x) c m entered e :=
    fun _ _ _ _ _ _ _ _ _ _ _ _ _ he => by cases he
  refine h.composes.whole entered e (fun _ _ _ _ _ _ _ states _ => Filter.select_neverAborts _ m states) ?_ hrequests
  intro entered' op operand p invisible explained hto states ⟨r₁, r₂, hstates⟩ selection ⟨r, r', hselection⟩ v hv
  obtain ⟨r₃, r₄, hv⟩ := hv
  refine Filter.reduce_neverAborts _ m c.settings selection v fun hop i hi => ?_
  by_contra hbehind
  -- A filter that adds takes all states that its selector holds in, so the state is one of these.
  obtain ⟨rfl, -⟩ := (Filter.select_delivers _ m states).spec r selection (congrArg Prod.fst hselection)
  have hwhole : (Filter.selectionOf ⟨op, p, invisible, explained⟩ m states).states = states :=
    Filter.selectionOf_states_of_ne _ m fun hfirst => by rcases hop with hop | hop <;> cases hop.symm.trans hfirst
  rw [hwhole] at hv hi
  exact he ⟨entered', op, operand, p, invisible, explained, hto, hop, states, r₁, r₂, hstates, v, r₃, r₄, hv, i, hi,
    Nat.le_of_not_lt hbehind⟩

/-- Evaluated from the run the filter adds the numbers of a vector, over states of which the given one is the first
behind the end; if it sums up then the sum does not overflow before. -/
def Overreaches (c : Checker) (m : Model) (entered : Entered) (f : Filter) (operand : Expr) (r : Run) (v : StateVector)
    (s : Nat) : Prop :=
  ∃ states, outcome (selected .whereOpen c m entered f.selector) r = .ok states ∧
    outcome (evalWith .whereOpen c m entered operand (some states))
      (after (f.select m states) (after (selected .whereOpen c m entered f.selector) r)) = .ok v ∧
    v.HoldsNumbers ∧ v.FirstBehind states s ∧ (f.op = .avg ∨ f.op = .sum ∧ ∃ x, v.sumOver (v.inside states) = .ok x)

theorem Overreaches.aborts {f : Filter} {operand : Expr} {r : Run} {v : StateVector} {s : Nat}
    (h : c.Overreaches m entered f operand r v s) :
    outcome (evalWith .whereOpen c m entered (.filter f.op operand f.selector f.invisible f.explained) domain) r =
      .error (.eval (.outOfBounds v.size s)) := by
  obtain ⟨states, hstates, hv, hnumbers, hs, hop⟩ := h
  have hne : f.op ≠ .state ∧ f.op ≠ .first := by
    rcases hop with hop | ⟨hop, -⟩ <;> rw [hop] <;> exact ⟨nofun, nofun⟩
  have hcan : f.CanSelect m states := ⟨StateSet.isEmpty_eq_false_iff.mpr ⟨s, hs.mem⟩, fun h => absurd h hne.1⟩
  have hselect := f.select_succeeds m hcan (after (selected .whereOpen c m entered f.selector) r)
  have hwhole : (f.selectionOf m states).states = states := f.selectionOf_states_of_ne m hne.2
  rw [evalWith_filter, outcome_bind_ok hstates, applyFilter, outcome_bind_ok hselect, hwhole, outcome_bind_ok hv]
  refine outcome_bind_error ?_
  unfold Filter.reduce
  rcases hop with hop | ⟨hop, x, hx⟩
  · rw [hop, hwhole, avgOver_behind hnumbers hs]
    rfl
  · rw [hop, hwhole, sumOver_aborts_iff.mpr ⟨hnumbers, rfl, hs, x, hx⟩]
    rfl

/-! ## Labels in range -/

theorem not_addsBehind (hc : c.solver = none) (hm : m.LabelsInRange) (entered : Entered) (e : Expr) :
    ¬c.AddsBehind m entered e := by
  rintro ⟨entered', op, operand, p, invisible, explained, -, -, states, r₁, r₂, hstates, v, r₃, r₄, hv, s, hs, hbehind⟩
  have hrange := (selected_delivers fun q _ => evalWith_delivers .whereOpen c m hc entered' q).spec r₁ states
    (congrArg Prod.fst hstates) hm
  have hfits := (evalWith_delivers .whereOpen c m hc entered' operand _).spec r₃ v (congrArg Prod.fst hv)
  exact absurd (hrange s hs) (Nat.not_lt.mpr (hfits.plain.1 ▸ hbehind))

/-- Without a solver nobody is asked during an evaluation. -/
theorem askedSafely_unsolved (hc : c.solver = none) : c.AskedSafely m where
  multi answer hanswer := by
    rw [hc] at hanswer
    cases hanswer
  rewards h := absurd hc h
  quant solver hsolver := by
    rw [hc] at hsolver
    cases hsolver

/-- Without minimisation, or without a minimiser, the expression is checked as it is. -/
theorem minimised_neverAborts {e : Expr} (h : c.settings.minimise = false ∨ c.minimiser = none) :
    NeverAborts (c.minimised m e) ∧ ∀ a r r', c.minimised m e r = (.ok a, r') → a = (m, e) := by
  unfold minimised
  cases hsettings : c.settings.minimise with
  | false => exact ⟨.pure _, fun a r r' ha => (run_pure_eq_ok ha).1.symm⟩
  | true =>
    rw [h.resolve_left (hsettings ▸ Bool.noConfusion)]
    refine ⟨.next (.message _) fun _ => .pure _, fun a r r' ha => ?_⟩
    obtain ⟨_, _, -, ha⟩ := run_bind_eq_ok ha
    exact (run_pure_eq_ok ha).1.symm

/-- What users ask for stops the program only if an evaluation or a rewriting does. -/
theorem calls_neverAbort (h : ∀ e, EvalHas (fun _ x => NeverAborts x) c m .none e ∧
      ExtractHas (fun _ x => NeverAborts x) c m .none e) (e : Expr) :
    (∀ domain, NeverAborts (c.checkExpression m e domain)) ∧ NeverAborts (c.extract m e) ∧
    NeverAborts (c.registerFormulas m e) ∧ (∀ names, NeverAborts (c.checkLabels m names)) ∧
    (c.settings.minimise = false ∨ c.minimiser = none → NeverAborts (c.check m e)) := by
  have hextract : NeverAborts (c.extract m e) := .next (.modify _) fun _ => (h e).2 []
  refine ⟨fun domain => .next (.modify _) fun _ => (h e).1 domain, hextract, ?_, fun names => ?_, fun hminimise => ?_⟩
  · exact .next hextract fun _ => .next (.ofModel _) fun _ => .pure _
  · refine .next (.modify _) fun _ => .mapM fun name => .next ((h (.label name)).1 none) fun v => ?_
    exact .ofEval (orderly_satisfaction v)
  -- Nothing is minimised, so the expression is evaluated over the model itself.
  · obtain ⟨hminimised, hsame⟩ := minimised_neverAborts (m := m) (e := c.prepared m e) hminimise
    refine .bind hminimised fun a ⟨r, r', ha⟩ => ?_
    rw [hsame a r r' ha]
    refine .next (.modify _) fun _ => .next ((h (c.prepared m e)).1 none) fun values => ?_
    exact .next (fun _ _ he => by cases he) fun run => .next (.message _) fun _ => .pure _

/-! ## What stops the program, and what does not -/

/-- No reduction but the sum and the mean stops the program; extremes and ranges answer a state behind the end of the
vector with an error about the length. Sums and means of numbers stop it at the first such state, sums unless they
overflow before. An evaluation or a rewriting stops the program only if it may come to a sum or a mean over such a
state, and a filter that is one does. Without a solver and with labels that hold in states of the model only, as in
every model that a job loads, nothing that is asked of a checker does. -/
theorem aborts_only_behind (v : StateVector) (a : StateSet) (c : Checker) (m : Model) :
    (Orderly (v.minOver a) ∧ Orderly (v.maxOver a) ∧ Orderly (v.rangeOver a) ∧ Orderly (v.firstIn a) ∧
      Orderly (v.countOver a) ∧ Orderly (v.forAllOver a) ∧ Orderly (v.existsOver a)) ∧
    (∀ s, v.isFrontier = false → v.FirstBehind a s →
      v.minOver a = .error (.lengthMismatch v.size (s + 1)) ∧ v.maxOver a = .error (.lengthMismatch v.size (s + 1)) ∧
      v.rangeOver a = .error (.lengthMismatch v.size (s + 1))) ∧
    (∀ k s,
      (v.sumOver a = .error (.outOfBounds k s) ↔
        v.HoldsNumbers ∧ k = v.size ∧ v.FirstBehind a s ∧ ∃ x, v.sumOver (v.inside a) = .ok x) ∧
      (v.avgOver a = .error (.outOfBounds k s) ↔ v.HoldsNumbers ∧ k = v.size ∧ v.FirstBehind a s)) ∧
    (∀ entered e, c.AskedSafely m → ¬c.AddsBehind m entered e →
      (∀ domain, NeverAborts (evalWith .whereOpen c m entered e domain)) ∧
      ∀ found, NeverAborts (extractFrom .whereOpen c m entered found e)) ∧
    (∀ entered f operand domain r values s, c.Overreaches m entered f operand r values s →
      outcome (evalWith .whereOpen c m entered (.filter f.op operand f.selector f.invisible f.explained) domain) r =
        .error (.eval (.outOfBounds values.size s))) ∧
    (c.solver = none → m.LabelsInRange → ∀ e,
      (∀ domain, NeverAborts (c.checkExpression m e domain)) ∧ NeverAborts (c.extract m e) ∧
      NeverAborts (c.registerFormulas m e) ∧ (∀ names, NeverAborts (c.checkLabels m names)) ∧
      (c.settings.minimise = false ∨ c.minimiser = none → NeverAborts (c.check m e))) := by
  refine ⟨?_, fun s hv h => ?_, fun k s => ⟨sumOver_aborts_iff, avgOver_aborts_iff⟩,
    fun entered e h he => neverAborts_of_not_addsBehind h he,
    fun entered f operand domain r values s h => h.aborts, fun hc hm e => ?_⟩
  · exact ⟨orderly_minOver v a, orderly_maxOver v a, orderly_rangeOver v a, orderly_firstIn v a, orderly_countOver v a,
      orderly_forAllOver v a, orderly_existsOver v a⟩
  · have hmin : v.minOver a = .error (.lengthMismatch v.size (s + 1)) := foldOver_behind Value.picks_lesserValue hv h
    refine ⟨hmin, foldOver_behind Value.picks_greaterValue hv h, ?_⟩
    unfold rangeOver
    rw [hmin]
    rfl
  · exact calls_neverAbort (fun e =>
      neverAborts_of_not_addsBehind (askedSafely_unsolved hc) (not_addsBehind hc hm .none e)) e

end Checker

/-- Two states, and a label for a third one. -/
def Model.twoStatesOutside : Model := { Model.twoStates with labels := NameMap.insert .empty "outside" (.singleton 7) }

/-- A filter for the value 1 over the states of the label. -/
def Expr.overOutside (op : FilterOp) : Expr := .filter op (.literal (.int 1)) (some (.label "outside")) true true

namespace Checker

theorem selected_outside (r : Run) :
    selected .whereOpen bare .twoStatesOutside .none (some (.label "outside")) r = (.ok (.singleton 7), r) := by
  unfold selected satisfying
  simp only
  rw [evalWith_attached .whereOpen _ _ _ none
    (show Model.twoStatesOutside.labelStates? "outside" = some (.singleton 7) from rfl)]
  rfl

theorem firstBehind_outside : (StateVector.constant (.int 1) 2).FirstBehind (.singleton 7) 7 where
  mem := by decide
  behind := by decide
  least t ht _ := by
    rw [StateSet.mem_singleton.mp ht]
    decide

/-- A sum over the label stops the program; without the label there is nothing that could. -/
theorem aborts_only_behind_outside :
    outcome (evalWith .whereOpen bare .twoStatesOutside .none (.overOutside .sum) none) .start =
      .error (.eval (.outOfBounds 2 7)) ∧
    (StateVector.constant (.int 1) 2).minOver (.singleton 7) = .error (.lengthMismatch 2 8) ∧
    NeverAborts (evalWith .whereOpen bare .twoStates .none (.overOutside .sum) none) ∧
    NeverAborts (bare.check .twoStates (.overOutside .sum)) := by
  obtain ⟨-, hlength, -, -, hfilter, -⟩ :=
    aborts_only_behind (.constant (.int 1) 2) (.singleton 7) bare .twoStatesOutside
  obtain ⟨-, -, -, heval, -, hcalls⟩ := aborts_only_behind (.constant (.int 1) 2) (.singleton 7) bare .twoStates
  refine ⟨?_, ?_, ?_, ?_⟩
  · refine hfilter .none ⟨.sum, some (.label "outside"), true, true⟩ (.literal (.int 1)) none .start
      (.constant (.int 1) 2) 7 ⟨.singleton 7, congrArg Prod.fst (selected_outside _), ?_, ⟨by decide, rfl⟩,
        firstBehind_outside, .inr ⟨rfl, .int 0, rfl⟩⟩
    rw [evalWith_literal]
    rfl
  · exact (hlength 7 rfl firstBehind_outside).1
  · exact (heval .none (.overOutside .sum) (askedSafely_unsolved rfl)
      (not_addsBehind rfl Model.labelsInRange_twoStates _ _)).1 none
  · exact (hcalls rfl Model.labelsInRange_twoStates (.overOutside .sum)).2.2.2.2 (.inl rfl)

/-- The same states are an error about the length for the minimum, and stop the program in a sum or a mean. -/
theorem overOutside_differs :
    Model.twoStates.addLabel "outside" (.singleton 7) = .ok .twoStatesOutside ∧
    outcome (bare.checkExpression .twoStatesOutside (.overOutside .min) none) .start =
      .error (.eval (.lengthMismatch 2 8)) ∧
    outcome (bare.checkExpression .twoStatesOutside (.overOutside .sum) none) .start =
      .error (.eval (.outOfBounds 2 7)) ∧
    outcome (bare.checkExpression .twoStatesOutside (.overOutside .avg) none) .start =
      .error (.eval (.outOfBounds 2 7)) := by
  have hrun : ∀ op r, outcome (evalWith .whereOpen bare .twoStatesOutside .none (.overOutside op) none) r =
      outcome (do
        let selection ← Filter.select ⟨op, some (.label "outside"), true, true⟩ .twoStatesOutside (.singleton 7)
        Filter.record ⟨op, some (.label "outside"), true, true⟩ bare.settings bare.definitions.parameters
          (← Filter.reduce ⟨op, some (.label "outside"), true, true⟩ bare.settings .twoStatesOutside selection
            (.constant (.int 1) 2))) r := by
    intro op r
    unfold Expr.overOutside
    rw [evalWith_filter, outcome_bind_ok (congrArg Prod.fst (selected_outside r)), applyFilter]
    simp only [evalWith_literal, pure_bind]
    rw [show after _ r = r from congrArg Prod.snd (selected_outside r)]
    rfl
  simp only [outcome_checkExpression, hrun]
  exact ⟨rfl, rfl, rfl, rfl⟩

end Checker

end Statewise
