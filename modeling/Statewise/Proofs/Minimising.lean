import Statewise.Proofs.Mirroring
import Statewise.Proofs.Storing

/-!
# Minimising by attaching labels

A minimiser that leaves the model as it is and attaches the labels that it is given changes neither what is reported nor
the vector in the initial states. The expression that is checked has its state formulas replaced, its default filter
included: over the model with the labels its parts can stand for the old ones.
-/

namespace Statewise

open Check StateVector

/-! ## A minimiser that keeps the model -/

/-- The model with the given labels attached one after the other. -/
def Model.addLabels (m : Model) (found : Found) : Except ModelError Model :=
  found.foldlM (fun m p => m.addLabel p.1 p.2) m

namespace Expr

mutual

theorem renameLabels_id (e : Expr) : e.renameLabels id = e := by
  match e with
  | .ite c t e => simp only [renameLabels, renameLabels_id c, renameLabels_id t, renameLabels_id e]
  | .binary op l r => simp only [renameLabels, renameLabels_id l, renameLabels_id r]
  | .unary op e => simp only [renameLabels, renameLabels_id e]
  | .call f args => simp only [renameLabels, renameLabelsL_id args]
  | .formula name d t => simp only [renameLabels, renameLabelsD_id d]
  | .filter op e p i x => simp only [renameLabels, renameLabels_id e, renameLabelsD_id p]
  | .quant measure query e => simp only [renameLabels, renameLabels_id e]
  | .path op operands bound => simp only [renameLabels, renameLabelsL_id operands]
  | .label name => rfl
  | .literal _ | .constant .. | .ident .. | .var .. | .observable .. | .property .. => rfl

theorem renameLabelsL_id (es : List Expr) : renameLabelsL id es = es := by
  match es with
  | [] => rfl
  | e :: es => simp only [renameLabelsL, renameLabels_id e, renameLabelsL_id es]

theorem renameLabelsD_id (d : Option Expr) : renameLabelsD id d = d := by
  match d with
  | none => rfl
  | some e => simp only [renameLabelsD, renameLabels_id e]

end

end Expr

namespace Checker

variable {c : Checker} {m m' : Model} {entered : Entered} {e e' : Expr} {r : Run}

theorem addLabels_gains {found : Found} (h : m.addLabels found = .ok m') : Gains m found m' := by
  induction found generalizing m with
  | nil =>
    cases h
    exact Gains.refl _
  | cons p rest ih =>
    obtain ⟨m₁, hadd, h⟩ := Yields.bind_eq_ok.mp h
    exact (addLabel_gains hadd).cons (ih h)

/-- The minimiser that leaves the model as it is, with the given labels attached. -/
def labelling : Minimiser := fun m found => (m.addLabels found).mapError .model

/-- The checker that minimises models in this way before it checks them, or does not minimise them. -/
def minimising (c : Checker) (on : Bool) : Checker :=
  { c with settings := { c.settings with minimise := on }, minimiser := some labelling }

theorem evaluateAlike_minimising (hc : c.solver = none) : (c.minimising true).EvaluateAlike (c.minimising false) :=
  ⟨rfl, ⟨rfl, rfl, rfl, rfl⟩, hc, hc⟩

/-- What is checked after minimisation is extracted, and the model carries the labels. -/
theorem minimised_eq_ok (h : outcome ((c.minimising true).minimised m e) r = .ok (m', e')) :
    ∃ found r₁, outcome (extractFrom .whereOpen (c.minimising true) m .none [] e) r₁ = .ok (e', found) ∧
      Gains m found m' := by
  obtain ⟨⟨e₁, found⟩, hextract, h⟩ := outcome_bind_eq_ok.mp h
  obtain ⟨-, -, h⟩ := outcome_bind_eq_ok.mp h
  obtain ⟨m₁, hminimised, h⟩ := outcome_bind_eq_ok.mp h
  cases h
  obtain ⟨-, -, hextract⟩ := outcome_bind_eq_ok.mp hextract
  rw [outcome_ofExcept] at hminimised
  exact ⟨found, _, hextract, addLabels_gains (Yields.mapError_eq_ok.mp hminimised)⟩

/-! ## The minimised model -/

/-- A model that has gained the labels of an extraction differs from the old one in labels only. -/
theorem Gains.compares (hself : c.Compares m m) {found : Found} (h : Gains m found m')
    (hgrows : Found.Extends m.numStates [] found) : c.Compares m m' :=
  ⟨hself.solver, hself.small, hself.inRange,
    h.inRange (hgrows.lt fun _ hp => absurd hp List.not_mem_nil) hself.inRange, h.relabelled⟩

/-- Filters over all initial states can be compared in them. -/
theorem mem_comparable {f : Filter} {states : StateSet} (hop : f.op ≠ .first) {s : Nat} (hs : s ∈ states)
    (hlt : s < m.numStates) : s ∈ statesOf m.numStates (f.comparable (f.selectionOf m states)) := by
  unfold Filter.comparable
  rw [Filter.selectionOf_states_of_ne f m hop]
  split
  · exact hs
  · exact List.mem_range.mpr hlt

/-- What is checked in place of a filter is a filter whose operand and selector can stand for the old ones. -/
theorem extractFrom_filter (hself : c.Compares m m)
    (hdef : c.definitions.Throughout c.definitions.Replaceable) {op : FilterOp} {p : Option Expr}
    {invisible explained : Bool} (he : e.Throughout c.definitions.Replaceable)
    (hp : ∀ q ∈ p, q.Throughout c.definitions.Replaceable) {found : Found}
    (h : outcome (extractFrom .whereOpen c m entered [] (.filter op e p invisible explained)) r = .ok (e', found)) :
    ∃ operand selector, e' = .filter op operand selector invisible explained ∧ Found.Extends m.numStates [] found ∧
      ∀ m', c.Compares m m' → m'.Carries id found → ∀ entered',
        Simulates .whereOpen c m' m entered' operand entered e ∧
        Follows (selected .whereOpen c m' entered' selector) (selected .whereOpen c m entered p) fun a b => b = a := by
  rw [extractFrom_children .whereOpen c m entered [] (by simp [Expr.isProposition]) (by simp),
    extractFromChildren_filter] at h
  obtain ⟨⟨operand, found₁⟩, hoperand, h⟩ := outcome_bind_eq_ok.mp h
  obtain ⟨⟨selector, found₂⟩, hselector, h⟩ := outcome_bind_eq_ok.mp h
  cases h
  have hoperand := (extractFrom_extracts hself hdef entered e he []).spec _ _ hoperand
  have hselector := (extractSelector_delivers (fun q hq => extractFrom_extracts hself hdef entered q (hp q hq))
    found₁).spec _ _ hselector
  refine ⟨operand, selector, rfl, hoperand.grows.trans hselector.grows, fun m' h hcarries entered' => ?_⟩
  have hstands := hoperand.stands m' id h (hcarries.mono hselector.grows) entered'
  have hselects := hselector.stands m' id h hcarries entered'
  rw [Expr.renameLabels_id] at hstands
  rw [Expr.renameLabelsD_id] at hselects
  exact ⟨hstands.back, hselects.2⟩

/-! ## The same answer -/

/-- Starting from the run, the expression is evaluated over all states, with the value as the answer and with the
entries of the vector in the given states. -/
def AnswersFrom (c : Checker) (m : Model) (e : Expr) (r : Run) (value : Option ResultValue) (states : StateSet)
    (v : StateVector) : Prop :=
  ∃ w r', evalWith .whereOpen c m .none e none r = (.ok w, r') ∧ r'.answer.value = value ∧
    ∀ s ∈ states, v.valueAt s = w.valueAt s

/-- A filter over the states gives the answer of the filter that was extracted from it. -/
theorem filter_answersFrom (hself : c.Compares m m)
    (hdef : c.definitions.Throughout c.definitions.Replaceable) {op : FilterOp}
    (hop : op ≠ .first) {p : Option Expr} {invisible explained : Bool}
    (he : e.Throughout c.definitions.Replaceable)
    (hp : ∀ q ∈ p, q.Throughout c.definitions.Replaceable) {states : StateSet}
    (hstates : ∀ r, outcome (selected .whereOpen c m .none p) r = .ok states) {found : Found}
    (hextract : outcome (extractFrom .whereOpen c m .none [] (.filter op e p invisible explained)) r = .ok (e', found))
    (hgains : Gains m found m') {r₁ : Run} {v : StateVector}
    (hv : outcome (evalWith .whereOpen c m' .none e' none) r₁ = .ok v) (r' : Run) :
    AnswersFrom c m (.filter op e p invisible explained) r'
      (after (evalWith .whereOpen c m' .none e' none) r₁).answer.value states v := by
  obtain ⟨operand, selector, rfl, hgrows, hstands⟩ := extractFrom_filter hself hdef he hp hextract
  have h : c.Compares m m' := hgains.compares hself hgrows
  obtain ⟨hoperand, hselector⟩ := hstands m' h hgains.carries .none
  obtain ⟨chosen, reduced, r₂, r₃, hchosen, hreduced, rfl, hanswer⟩ := filter_eq_ok hv
  -- The selector has selected the same states as the old one.
  obtain ⟨_, hsame, rfl⟩ := hselector r₂ r₂ chosen hchosen
  rw [hstates] at hsame
  cases hsame
  have hreal : ∀ s ∈ states, s < m'.numStates := ((selected_real h.solver h.inRange' selector).spec r₂ _ hchosen).1
  have hsameOp : (Filter.mk op p invisible explained).op = (Filter.mk op selector invisible explained).op := rfl
  obtain ⟨reduced', hreduced', halike⟩ :=
    reduceOver_follows h.symm hsameOp hoperand hreal r₃ r₃ reduced hreduced
  have hsteady : Steady (reduceOver .whereOpen c m .none ⟨op, p, invisible, explained⟩ e states) :=
    reduceOver_steady hself.solver _ e states
  obtain ⟨stored, r₄, heval, hanswer'⟩ := filter_of_reduceOver hstates (fun r => (hsteady r r₃).trans hreduced') none r'
  refine ⟨_, r₄, heval, ?_, fun s hs => halike.vector.entry s (mem_comparable hop hs (hreal s hs))⟩
  rw [hanswer, hanswer']
  exact halike.value

/-- An answer by itself gives the answer of what was extracted from it. -/
theorem single_answersFrom (hself : c.Compares m m)
    (hdef : c.definitions.Throughout c.definitions.Replaceable)
    (he : e.Throughout c.definitions.Replaceable) (hsingle : e.isSingleValued = true)
    {found : Found} (hextract : outcome (extractFrom .whereOpen c m .none [] e) r = .ok (e', found))
    (hgains : Gains m found m') (r' : Run) {r₁ : Run} (hfresh : r'.answer.value = r₁.answer.value) {v : StateVector}
    (hv : outcome (evalWith .whereOpen c m' .none e' none) r₁ = .ok v) :
    AnswersFrom c m e r' (after (evalWith .whereOpen c m' .none e' none) r₁).answer.value (.full m.numStates) v := by
  obtain ⟨hextracted, hmirrored⟩ := (extractFrom_answer hself hdef .none e he hsingle).both [] r _ hextract
  have h : c.Compares m m' := hgains.compares hself hextracted.grows
  have hstands := hextracted.stands m' id h hgains.carries .none
  have hmirrors := hmirrored m' id h hgains.carries .none none fun s hs => List.mem_range.mp hs
  rw [Expr.renameLabels_id] at hstands hmirrors
  obtain ⟨w, hw, hmatch⟩ := hstands.back none none (Narrows.all _) (fun hst => by cases hst) r₁ r' v hv
  refine ⟨w, after _ r', Prod.ext hw rfl, (hmirrors r' r₁ w v hw hv hfresh.symm).symm, fun s hs => ?_⟩
  have hlt : s < m'.numStates := h.size ▸ mem_full_lt hs
  exact hmatch.entry s (List.mem_range.mpr hlt)

/-- What is prepared is a default filter, or an answer by itself. -/
theorem prepared_cases (c : Checker) (m : Model) (e : Expr) :
    (∃ operand, c.prepared m e = .filter (defaultOp m operand) operand (some (.label Expr.initName)) true true ∧
      (operand = e ∨ operand = .filter .store e none true true)) ∨
    c.prepared m e = e ∧ e.isSingleValued = true := by
  cases hstore : c.settings.storeVector with
  | true => exact Or.inl ⟨_, prepared_stored hstore, Or.inr rfl⟩
  | false =>
    cases hsingle : e.isSingleValued with
    | true => exact Or.inr ⟨prepared_single hstore hsingle, rfl⟩
    | false => exact Or.inl ⟨e, prepared_default hstore hsingle, Or.inl rfl⟩

/-- What was prepared gives the answer of what was extracted from it, with the same entries in the initial states. -/
theorem prepared_answersFrom (hself : c.Compares m m) (hdef : c.definitions.Throughout c.definitions.Replaceable)
    (he : e.Throughout c.definitions.Replaceable) (hinitial : ∀ s ∈ m.initial, s < m.numStates)
    (hinit : ∀ r, outcome (selected .whereOpen c m .none (some (.label Expr.initName))) r = .ok m.initial) {found : Found}
    (hextract : outcome (extractFrom .whereOpen c m .none [] (c.prepared m e)) r = .ok (e', found))
    (hgains : Gains m found m') (r' : Run) {r₁ : Run} (hfresh : r'.answer.value = r₁.answer.value) {v : StateVector}
    (hv : outcome (evalWith .whereOpen c m' .none e' none) r₁ = .ok v) :
    AnswersFrom c m (c.prepared m e) r' (after (evalWith .whereOpen c m' .none e' none) r₁).answer.value m.initial v := by
  rcases prepared_cases c m e with ⟨operand, hprepared, hoperand⟩ | ⟨hprepared, hsingle⟩
  · rw [hprepared] at hextract ⊢
    have hselector : ∀ q ∈ some (Expr.label Expr.initName), q.Throughout c.definitions.Replaceable := by
      rintro q ⟨⟩
      simp [Expr.throughout_iff, Expr.children, Definitions.Replaceable, Expr.KeepsWhole, Definitions.Declares]
    have hthroughout : operand.Throughout c.definitions.Replaceable := by
      rcases hoperand with rfl | rfl
      · exact he
      · exact Expr.throughout_iff.mpr ⟨⟨fun _ => rfl, trivial⟩, by simpa [Expr.children] using he⟩
    exact filter_answersFrom hself hdef (defaultOp_ne (by decide)) hthroughout hselector hinit hextract hgains hv r'
  · rw [hprepared] at hextract ⊢
    obtain ⟨w, r₂, heval, hvalue, hentries⟩ := single_answersFrom hself hdef he hsingle hextract hgains r' hfresh hv
    refine ⟨w, r₂, heval, hvalue, fun s hs => hentries s ?_⟩
    exact (StateSet.mem_full_of_lt hself.small).mpr (hinitial s hs)

/-- A minimiser that leaves the model as it is and attaches the labels that it is given changes no answer: if the check
with minimisation succeeds then so does the one without, with the same value and the same entries in the initial
states. -/
theorem check_minimising (c : Checker) (m : Model) (hn : m.numStates < stateLimit) (hm : m.LabelsInRange)
    (hinitial : ∀ s ∈ m.initial, s < m.numStates) (hmodel : m.labelStates? Expr.initName = none)
    (hlist : c.definitions.label? Expr.initName = none) (hc : c.solver = none)
    (hkeep : c.definitions.Throughout Expr.KeepsWhole) (hdecl : c.definitions.Throughout c.definitions.Declares)
    (e : Expr) (he : e.Throughout Expr.KeepsWhole) (hed : e.Throughout c.definitions.Declares) (r r' : Run)
    (o : Outcome) (ho : outcome ((c.minimising true).check m e) r = .ok o) :
    ∃ o', outcome ((c.minimising false).check m e) r' = .ok o' ∧ o'.answer.value = o.answer.value ∧
      ∀ s ∈ m.initial, ∃ y, o.values.valueAt s = .ok y ∧ o'.values.valueAt s = .ok y := by
  have hself : (c.minimising true).Compares m m := Compares.refl hc hn hm
  have hdef : c.definitions.Throughout c.definitions.Replaceable := fun x hx a ha => ⟨hkeep x hx a ha, hdecl x hx a ha⟩
  have hboth : e.Throughout c.definitions.Replaceable := fun a ha => ⟨he a ha, hed a ha⟩
  have hinit : ∀ r, outcome (selected .whereOpen (c.minimising true) m .none (some (.label Expr.initName))) r =
      .ok m.initial := selected_initial (c := c.minimising true) hn hinitial hmodel hlist .none
  obtain ⟨m', e', r₁, hminimised, hfresh, -, hvalues, hanswer⟩ := check_eq_ok ho
  obtain ⟨found, r₀, hextract, hgains⟩ := minimised_eq_ok hminimised
  have hnone : (after (Check.restart c.definitions.parameters) r').answer.value = r₁.answer.value := by
    rw [hfresh]
    rfl
  obtain ⟨w, r₂, heval, hvalue, hentries⟩ := prepared_answersFrom hself hdef hboth hinitial hinit hextract hgains
    (after (Check.restart c.definitions.parameters) r') hnone hvalues
  -- The checker that does not minimise has prepared the same, and evaluates it by the same computation.
  rw [← evalWith_same (evaluateAlike_minimising hc) m .none] at heval
  refine ⟨_, check_of_eval rfl heval, hvalue.trans (congrArg Answer.value hanswer).symm, fun s hs => ?_⟩
  obtain ⟨y, hy⟩ := (plain_of_outcome (c := c.minimising false) hc (congrArg Prod.fst heval)).valueAt (hinitial s hs)
  exact ⟨y, (hentries s hs).trans hy, hy⟩

/-! ### The initial states as a label -/

/-- A minimised check of `x` extracts a label for the initial states. -/
theorem minimised_var :
    outcome ((bare.minimising true).minimised .twoStates
      ((bare.minimising true).prepared .twoStates (.var "x" 0 .int))) .start =
        .ok (.twoStatesNumbered, .filter .state (.var "x" 0 .int) (some (.label "L0")) true true) := by
  have hextract : ∀ r, outcome (extractFrom .whereOpen (bare.minimising true) .twoStates .none []
      (.filter .state (.var "x" 0 .int) (some (.label Expr.initName)) true true)) r =
        .ok (.filter .state (.var "x" 0 .int) (some (.label "L0")) true true, [("L0", .singleton 0)]) := by
    intro r
    rw [extractFrom_children .whereOpen _ _ _ _ (by decide) (by simp), extractFromChildren_filter,
      extractFrom_children .whereOpen _ _ _ _ (by decide) (by simp), extractFromChildren_leaf _ _ _ _ _ rfl, pure_bind]
    unfold extractSelector
    simp only
    rw [extractFrom_proposition .whereOpen _ _ _ _ (by decide)]
    unfold satisfying
    rw [evalWith_builtin .whereOpen _ _ _ none rfl rfl]
    rfl
  show outcome (extract _ _ (.filter .state (.var "x" 0 .int) (some (.label Expr.initName)) true true) >>= _) _ = _
  unfold extract
  rw [bind_assoc, outcome_bind_ok (outcome_restart none .start), outcome_bind_ok (hextract _)]
  rfl

/-- The filter over the label reports the value of `x` in the first state. -/
theorem evalWith_var_numbered (r : Run) :
    ∃ r', evalWith .whereOpen (bare.minimising true) .twoStatesNumbered .none
      (.filter .state (.var "x" 0 .int) (some (.label "L0")) true true) none (after (Check.restart none) r) =
        (.ok ⟨.ints #[0, 0], none⟩, r') ∧ r'.answer.value = some (.value (.int 0)) := by
  rw [evalWith_filter]
  unfold selected satisfying applyFilter
  simp only
  rw [evalWith_attached .whereOpen _ _ _ none
    (show Model.twoStatesNumbered.labelStates? "L0" = some (.singleton 0) from rfl)]
  simp only [evalWith_var]
  exact ⟨_, rfl, rfl⟩

/-- With the initial states as a label the value of `x` in the initial state is the same. -/
theorem check_minimising_twoStates : ∃ o o',
    outcome ((bare.minimising true).check .twoStates (.var "x" 0 .int)) .start = .ok o ∧
      outcome ((bare.minimising false).check .twoStates (.var "x" 0 .int)) .start = .ok o' ∧
      o'.answer.value = some (.value (.int 0)) ∧ ∃ y, o.values.valueAt 0 = .ok y ∧ o'.values.valueAt 0 = .ok y := by
  obtain ⟨r', heval, hvalue⟩ := evalWith_var_numbered (after ((bare.minimising true).minimised .twoStates
    ((bare.minimising true).prepared .twoStates (.var "x" 0 .int))) .start)
  have ho := check_of_minimised (c := bare.minimising true) minimised_var heval
  have hkeep : (Expr.var "x" 0 .int).Throughout Expr.KeepsWhole := by
    simp [Expr.throughout_iff, Expr.children, Expr.KeepsWhole]
  have hdecl : (Expr.var "x" 0 .int).Throughout bare.definitions.Declares := by
    simp [Expr.throughout_iff, Expr.children, Definitions.Declares]
  obtain ⟨o', ho', hreported, hentries⟩ := check_minimising bare .twoStates (by decide) Model.labelsInRange_twoStates
    (by decide) rfl rfl rfl Definitions.throughout_empty Definitions.throughout_empty (.var "x" 0 .int) hkeep hdecl
    .start .start _ ho
  exact ⟨_, o', ho, ho', hreported.trans hvalue, hentries 0 (by decide)⟩

end Checker

end Statewise
