import Statewise.Proofs.Composing
import Statewise.Proofs.Reporting

/-!
# The hint of an outcome

The hint that a check returns is the one that the last filter has left behind, from however deep in the evaluation,
since every filter sets the hint and none restores it. If no filter is beneath the one at the root, and none is
reached through definitions, then this is the hint for the root: there is one exactly if the filter is about one
state, and it says about which.
-/

namespace Statewise

open Check

/-! ## Keeping the hint -/

namespace Check

/-- If the computation succeeds, then what held of the hint before holds of it afterwards. -/
def KeepsHint (P : Option Hint → Prop) {α : Type} (x : Check α) : Prop :=
  ∀ r, P r.hint → ∀ a, outcome x r = .ok a → P (after x r).hint

end Check

theorem StateSet.exists_first? {a : StateSet} (h : ∃ s, s ∈ a) : ∃ s, a.first? = some s := by
  obtain ⟨s, hs⟩ := h
  exact Option.isSome_iff_exists.mp (List.isSome_head?.mpr (List.ne_nil_of_mem hs))

namespace Filter

variable {f : Filter} {m : Model} {states : StateSet} {P : Option Hint → Prop}

/-- What a selection does to the hint. -/
theorem select_keepsHint (h : f.CanSelect m states → P (f.hint (f.selectionOf m states))) :
    KeepsHint P (f.select m states) := by
  intro r _ s hs
  obtain ⟨rfl, hcan⟩ := (f.select_delivers m states).spec r s hs
  rw [(f.select_setsHint m states r).2 _ hs]
  exact h hcan

/-- The filter is about one state: it is for one state, or it looks at the only initial one. -/
def AboutOne (f : Filter) (m : Model) : Prop :=
  f.op = .state ∨ (f.op = .forAll ∨ f.op = .first) ∧ Expr.selectsInit f.selector = true ∧ m.numInitial = 1

/-- The hint of a filter that is about one state is about the first state that it has selected; other filters have
none. -/
theorem hint_selectionOf (h : f.CanSelect m states) :
    (f.AboutOne m ∧ ∃ s, (f.selectionOf m states).states.first? = some s ∧
      f.hint (f.selectionOf m states) = some ⟨f.op, s⟩) ∨
    ¬f.AboutOne m ∧ f.hint (f.selectionOf m states) = none := by
  obtain ⟨s, hs⟩ := StateSet.exists_first? (f.selectionOf_states m h).2
  have hinit : (f.selectionOf m states).isOnlyInit = true ↔
      Expr.selectsInit f.selector = true ∧ m.numInitial = 1 := by
    simp only [selectionOf, Bool.and_eq_true, beq_iff_eq]
  by_cases hone : f.AboutOne m
  · refine Or.inl ⟨hone, s, hs, ?_⟩
    rcases hone with hop | ⟨hop | hop, honly⟩
    · simp only [hint, hop, hs, Option.map_some]
    · simp only [hint, hop, hinit.mpr honly, hs, if_true, Option.map_some]
    · simp only [hint, hop, hinit.mpr honly, hs, if_true, Option.map_some]
  · refine Or.inr ⟨hone, hint_eq_none (fun hop => hone (Or.inl hop)) fun hop => ?_⟩
    exact Bool.eq_false_iff.mpr fun honly => hone (Or.inr ⟨hop, hinit.mp honly⟩)

end Filter

namespace Checker

variable {c : Checker} {m : Model} {entered : Entered} {domain : Option StateSet} {P : Option Hint → Prop}

theorem keepsHint_composes (c : Checker) (m : Model) (P : Option Hint → Prop) :
    c.Composes m fun _ x => KeepsHint P x where
  throw e := fun _ _ _ h => by cases h
  tells hx := fun r hr _ _ => by rwa [hx.hint r]
  bind hx hf := fun r hr b hb => by
    obtain ⟨a, ha, hb⟩ := outcome_bind_eq_ok.mp hb
    rw [after_bind_ok ha]
    exact hf a ⟨r, _, Prod.ext ha rfl⟩ _ (hx r hr a ha) b hb
  multi _ _ := fun _ hr _ _ => hr
  rewards _ _ _ := fun _ hr _ _ => hr

/-- The hint is that of a filter which is about one state: it has its operator, and the state that it has selected. -/
def IsHintOf (c : Checker) (m : Model) (entered : Entered) (f : Filter) (h : Hint) : Prop :=
  f.AboutOne m ∧ h.op = f.op ∧ ∃ states r r', selected .whereOpen c m entered f.selector r = (.ok states, r') ∧
    (f.selectionOf m states).states.first? = some h.state

/-- A filter that the evaluation may come to has selected the states, and the hint is what it leaves behind. -/
inductive SetsHint (c : Checker) (m : Model) (entered : Entered) (e : Expr) : Option Hint → Prop where
  | filter {entered' : Entered} {op : FilterOp} {operand : Expr} {p : Option Expr} {invisible explained : Bool}
      {states : StateSet} {r r' : Run}
      (hto : c.definitions.ComesTo (entered, e) (entered', .filter op operand p invisible explained))
      (hstates : selected .whereOpen c m entered' p r = (.ok states, r'))
      (hcan : Filter.CanSelect ⟨op, p, invisible, explained⟩ m states) :
      SetsHint c m entered e (Filter.hint ⟨op, p, invisible, explained⟩
        (Filter.selectionOf ⟨op, p, invisible, explained⟩ m states))

theorem SetsHint.exists_filter {e : Expr} {h : Hint} (hset : SetsHint c m entered e (some h)) :
    ∃ entered' op operand p invisible explained,
      c.definitions.ComesTo (entered, e) (entered', .filter op operand p invisible explained) ∧
        c.IsHintOf m entered' ⟨op, p, invisible, explained⟩ h := by
  generalize hhint : some h = hint at hset
  cases hset with
  | filter hto hstates hcan =>
    refine ⟨_, _, _, _, _, _, hto, ?_⟩
    rcases Filter.hint_selectionOf hcan with ⟨hone, s, hs, hsome⟩ | ⟨-, hnone⟩
    · rw [hsome] at hhint
      cases hhint
      exact ⟨hone, rfl, _, _, _, hstates, hs⟩
    · rw [hnone] at hhint
      cases hhint

/-- An evaluation keeps what the hints have in common that it may set. -/
theorem evalWith_keepsHint {e : Expr} (h : ∀ hint, SetsHint c m entered e hint → P hint) :
    KeepsHint P (evalWith .whereOpen c m entered e domain) := by
  refine ((keepsHint_composes c m P).whole entered e ?_ fun _ _ _ _ _ _ _ _ _ _ _ _ hr _ _ => hr).1 domain
  intro entered' op operand p invisible explained hto states ⟨r, r', hstates⟩
  exact Filter.select_keepsHint fun hcan => h _ (.filter hto hstates hcan)

/-- The hint after an evaluation is the one before, or one of those that the evaluation may set. -/
theorem hint_after_evalWith {e : Expr} {r : Run} {v : StateVector}
    (hv : outcome (evalWith .whereOpen c m entered e domain) r = .ok v) :
    (after (evalWith .whereOpen c m entered e domain) r).hint = r.hint ∨
      SetsHint c m entered e (after (evalWith .whereOpen c m entered e domain) r).hint :=
  evalWith_keepsHint (P := fun hint => hint = r.hint ∨ SetsHint c m entered e hint) (fun _ h => Or.inr h) r
    (Or.inl rfl) v hv

end Checker

/-! ## Filters beneath others -/

/-- An evaluation of the expression comes to no filter. -/
def Definitions.FilterFree (d : Definitions) (entered : Entered) (e : Expr) : Prop :=
  ∀ entered' op operand p invisible explained,
    ¬d.ComesTo (entered, e) (entered', .filter op operand p invisible explained)

/-- The filter that the expression is, perhaps in parentheses or as the definition of a formula, and its operand. -/
def Expr.root? : Expr → Option (Filter × Expr)
  | filter op e p invisible explained => some (⟨op, p, invisible, explained⟩, e)
  | unary .parenth e => e.root?
  | formula _ (some d) _ => d.root?
  | _ => none

namespace Checker

variable {c : Checker} {m : Model} {entered : Entered} {domain : Option StateSet}

/-- Without filters the hint stays. -/
theorem hint_of_filterFree {e : Expr} (he : c.definitions.FilterFree entered e) {r : Run} {v : StateVector}
    (hv : outcome (evalWith .whereOpen c m entered e domain) r = .ok v) :
    (after (evalWith .whereOpen c m entered e domain) r).hint = r.hint := by
  rcases hint_after_evalWith hv with h | h
  · exact h
  · generalize (after (evalWith .whereOpen c m entered e domain) r).hint = hint at h
    cases h with
    | filter hto => exact absurd hto (he _ _ _ _ _ _)

/-- A filter with no other beneath it leaves the hint for what it has selected. -/
theorem hint_of_root {e operand : Expr} {f : Filter} (hroot : e.root? = some (f, operand))
    (hoperand : c.definitions.FilterFree entered operand) {r : Run} {v : StateVector}
    (hv : outcome (evalWith .whereOpen c m entered e domain) r = .ok v) :
    ∃ states r₁ r₂, selected .whereOpen c m entered f.selector r₁ = (.ok states, r₂) ∧ f.CanSelect m states ∧
      (after (evalWith .whereOpen c m entered e domain) r).hint = f.hint (f.selectionOf m states) := by
  match e with
  | .filter op e p invisible explained =>
    cases hroot
    rw [evalWith_filter] at hv ⊢
    obtain ⟨states, hstates, hv⟩ := outcome_bind_eq_ok.mp hv
    obtain ⟨selection, hselection, hv⟩ := outcome_bind_eq_ok.mp hv
    obtain ⟨rfl, hcan⟩ := (Filter.select_delivers _ m states).spec _ _ hselection
    refine ⟨states, r, _, Prod.ext hstates rfl, hcan, ?_⟩
    rw [after_bind_ok hstates, applyFilter, after_bind_ok hselection]
    have hset := (Filter.select_setsHint ⟨op, p, invisible, explained⟩ m states _).2 _ hselection
    -- From the selection on, nothing changes the hint.
    have hkept : EvalHas (fun _ x => KeepsHint (· = Filter.hint ⟨op, p, invisible, explained⟩
        (Filter.selectionOf ⟨op, p, invisible, explained⟩ m states)) x) c m entered operand :=
      fun domain r hr v hv => (hint_of_filterFree hoperand hv).trans hr
    exact (keepsHint_composes c m _).reduced _ hkept _ _ hset v hv
  | .unary .parenth e =>
    rw [evalWith_parenth] at hv ⊢
    exact hint_of_root (e := e) hroot hoperand hv
  | .formula name (some d) t =>
    rw [evalWith_expanded] at hv ⊢
    exact hint_of_root (e := d) hroot hoperand hv

/-- No filter is evaluated but the one that the expression is, and those in its selector. -/
def NoneBeneath (c : Checker) (e : Expr) : Prop :=
  match e.root? with
  | some (_, operand) => c.definitions.FilterFree .none operand
  | none => c.definitions.FilterFree .none e

/-- The hint is about the answer of the expression: there is one if and only if the expression is a filter that is about
one state, and it has the operator of this filter and the state that the filter has selected. -/
structure Describes (c : Checker) (m : Model) (e : Expr) (hint : Option Hint) : Prop where
  exists_iff : (∃ h, hint = some h) ↔ ∃ f operand, e.root? = some (f, operand) ∧ f.AboutOne m
  source : ∀ h, hint = some h → ∃ f operand, e.root? = some (f, operand) ∧ c.IsHintOf m .none f h

theorem describes_of_noneBeneath {e : Expr} (he : c.NoneBeneath e) {r : Run} (hfresh : r.hint = none) {v : StateVector}
    (hv : outcome (evalWith .whereOpen c m .none e none) r = .ok v) :
    c.Describes m e (after (evalWith .whereOpen c m .none e none) r).hint := by
  unfold NoneBeneath at he
  cases hroot : e.root? with
  | none =>
    rw [hroot] at he
    have hnone := (hint_of_filterFree he hv).trans hfresh
    rw [hnone]
    exact ⟨iff_of_false (by simp) (by simp [hroot]), fun h hh => by cases hh⟩
  | some root =>
    obtain ⟨f, operand⟩ := root
    rw [hroot] at he
    obtain ⟨states, r₁, r₂, hstates, hcan, hhint⟩ := hint_of_root hroot he hv
    rw [hhint]
    rcases Filter.hint_selectionOf hcan with ⟨hone, s, hs, hsome⟩ | ⟨hone, hnone⟩
    · rw [hsome]
      refine ⟨iff_of_true ⟨_, rfl⟩ ⟨f, operand, hroot, hone⟩, fun h hh => ?_⟩
      cases hh
      exact ⟨f, operand, hroot, hone, rfl, states, r₁, r₂, hstates, hs⟩
    · rw [hnone]
      refine ⟨iff_of_false (by simp) ?_, fun h hh => by cases hh⟩
      rintro ⟨f', operand', hroot', hone'⟩
      rw [hroot] at hroot'
      cases hroot'
      exact hone hone'

/-! ## What a check returns -/

/-- A successful check is a successful evaluation without a hint, and it returns the hint that this leaves behind. -/
theorem hint_of_check {e e' : Expr} {m' : Model} {r : Run} {o : Outcome} (ho : outcome (c.check m e) r = .ok o)
    (hchecked : outcome (c.minimised m (c.prepared m e)) r = .ok (m', e')) :
    ∃ r₁ v, r₁.hint = none ∧ outcome (evalWith .whereOpen c m' .none e' none) r₁ = .ok v ∧
      o.hint = (after (evalWith .whereOpen c m' .none e' none) r₁).hint := by
  obtain ⟨_, hminimised, ho⟩ := outcome_bind_eq_ok.mp ho
  rw [hchecked] at hminimised
  cases hminimised
  obtain ⟨-, -, ho⟩ := outcome_bind_eq_ok.mp ho
  obtain ⟨values, hvalues, ho⟩ := outcome_bind_eq_ok.mp ho
  cases ho
  exact ⟨_, values, rfl, hvalues, rfl⟩

/-- If no filter is beneath the one that is checked, nor reached through definitions, then the returned hint describes
the answer. In any case a returned hint is that of some filter which the evaluation may come to. -/
theorem check_hint (c : Checker) (m : Model) (e : Expr) (r : Run) (o : Outcome)
    (ho : outcome (c.check m e) r = .ok o) (m' : Model) (e' : Expr)
    (hchecked : outcome (c.minimised m (c.prepared m e)) r = .ok (m', e')) :
    (c.NoneBeneath e' → c.Describes m' e' o.hint) ∧
      ∀ h, o.hint = some h → ∃ entered op operand p invisible explained,
        c.definitions.ComesTo (.none, e') (entered, .filter op operand p invisible explained) ∧
          c.IsHintOf m' entered ⟨op, p, invisible, explained⟩ h := by
  obtain ⟨r₁, v, hfresh, hv, hhint⟩ := hint_of_check ho hchecked
  rw [hhint]
  refine ⟨fun he => describes_of_noneBeneath he hfresh hv, fun h hsome => ?_⟩
  rcases hint_after_evalWith hv with hsame | hset
  · rw [hsame, hfresh] at hsome
    cases hsome
  · rw [hsome] at hset
    exact hset.exists_filter

/-! ### The value in the initial state -/

/-- The value of a variable in the initial state. -/
def initialOfVar : Expr := .filter .state (.var "x" 0 .int) (some (.label Expr.initName)) true true

theorem selected_initialOfTwo (r : Run) :
    outcome (selected .whereOpen bare .twoStates .none (some (.label Expr.initName))) r = .ok (.singleton 0) := by
  show outcome (satisfying .whereOpen bare .twoStates .none none _) r = _
  unfold satisfying
  rw [evalWith_builtin .whereOpen bare .twoStates .none none rfl rfl]
  rfl

theorem evalWith_initialOfVar (r : Run) :
    ∃ r', evalWith .whereOpen bare .twoStates .none initialOfVar none r = (.ok ⟨.ints #[0, 0], none⟩, r') ∧
      r'.hint = some ⟨.state, 0⟩ := by
  let f : Filter := ⟨.state, some (.label Expr.initName), true, true⟩
  have hcan : f.CanSelect .twoStates (.singleton 0) := ⟨rfl, fun _ => rfl⟩
  unfold initialOfVar
  rw [evalWith_filter, run_bind_ok (selected_initialOfTwo r)]
  unfold applyFilter
  rw [run_bind_ok (f.select_succeeds .twoStates hcan _), evalWith_var]
  exact ⟨_, rfl, rfl⟩

/-- The value of the variable is asked for in the only initial state, and the hint says so. -/
theorem check_hint_initial :
    ∃ o h, outcome (bare.check .twoStates (.var "x" 0 .int)) .start = .ok o ∧ o.hint = some h ∧ h.op = .state := by
  obtain ⟨r', heval, -⟩ := evalWith_initialOfVar (after (Check.restart none) .start)
  have ho : outcome (bare.check .twoStates (.var "x" 0 .int)) .start = .ok ⟨_, r'.answer, r'.hint⟩ :=
    check_of_eval rfl heval
  have hbeneath : bare.NoneBeneath initialOfVar := by
    intro entered op operand p invisible explained hto
    rcases Definitions.comesTo_iff.mp hto with h | ⟨s, hs, -⟩
    · cases h
    · cases hs
  obtain ⟨hdescribes, -⟩ := check_hint bare .twoStates (.var "x" 0 .int) .start _ ho .twoStates initialOfVar rfl
  obtain ⟨h, hh⟩ := (hdescribes hbeneath).exists_iff.mpr ⟨_, _, rfl, Or.inl rfl⟩
  obtain ⟨f, operand, hroot, -, hop, -⟩ := (hdescribes hbeneath).source h hh
  cases hroot
  exact ⟨_, h, ho, hh, hop⟩

/-- The value that a filter has found somewhere, asked for in the initial state. -/
def initialOfExists : Expr :=
  .filter .state (.filter .thereIs (.binary .eq (.var "x" 0 .int) (.literal (.int 0))) none false true)
    (some (.label Expr.initName)) false true

/-- The filter beneath is evaluated last and leaves no hint. -/
theorem evalWith_initialOfExists (r : Run) :
    ∃ v r', evalWith .whereOpen bare .twoStates .none initialOfExists none r = (.ok v, r') ∧ r'.hint = none := by
  let f : Filter := ⟨.state, some (.label Expr.initName), false, true⟩
  have hcan : f.CanSelect .twoStates (.singleton 0) := ⟨rfl, fun _ => rfl⟩
  have hstrict : ¬(Strategy.whereOpen = .whereOpen ∧ BinaryOp.eq.isLazy = true) := by decide
  unfold initialOfExists
  rw [evalWith_filter, run_bind_ok (selected_initialOfTwo r)]
  unfold applyFilter
  rw [run_bind_ok (f.select_succeeds .twoStates hcan _), evalWith_filter]
  unfold selected applyFilter
  simp only [evalWith_strict .whereOpen _ _ _ _ hstrict, evalWith_var, evalWith_literal]
  exact ⟨_, _, rfl, rfl⟩

/-- A filter beneath takes the hint away, and a filter in an operator leaves its own. -/
theorem check_otherHint :
    (∃ o, outcome (bare.check .twoStates initialOfExists) .start = .ok o ∧
      ¬bare.Describes .twoStates initialOfExists o.hint) ∧
    ∃ o, outcome (bare.check .twoStates (.binary .plus initialOfVar (.literal (.int 1)))) .start = .ok o ∧
      ¬bare.Describes .twoStates (.binary .plus initialOfVar (.literal (.int 1))) o.hint := by
  constructor
  · obtain ⟨v, r', heval, hhint⟩ := evalWith_initialOfExists (after (Check.restart none) .start)
    refine ⟨_, check_of_eval rfl heval, fun hdescribes => ?_⟩
    obtain ⟨h, hh⟩ := hdescribes.exists_iff.mpr ⟨_, _, rfl, Or.inl rfl⟩
    rw [hhint] at hh
    cases hh
  · obtain ⟨r', hfilter, hhint⟩ := evalWith_initialOfVar (after (Check.restart none) .start)
    have heval : ∃ v, evalWith .whereOpen bare .twoStates .none (.binary .plus initialOfVar (.literal (.int 1))) none
        (after (Check.restart none) .start) = (.ok v, r') := by
      rw [evalWith_strict .whereOpen bare .twoStates .none none (by decide), evalWith_literal,
        run_bind_ok (congrArg Prod.fst hfilter), show after _ _ = r' from congrArg Prod.snd hfilter]
      exact ⟨_, rfl⟩
    obtain ⟨v, heval⟩ := heval
    refine ⟨_, check_of_eval rfl heval, fun hdescribes => ?_⟩
    obtain ⟨f, operand, hroot, -⟩ := hdescribes.source _ hhint
    cases hroot

end Checker

end Statewise
