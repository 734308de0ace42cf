import Statewise.Proofs.Extraction

/-!
# Only real states

Sets of states are passed around without a look at the size of the model, and the sets of labels are taken as they are.
If the labels hold in states of the model only, then so does every set that comes out: what an expression holds in, what
a filter selects, what an operand is evaluated over, what a formula is replaced by. The domain from outside plays no part
in it.
-/

namespace Statewise

open Check

/-- All members are below `n`. -/
def StateSet.Below (a : StateSet) (n : Nat) : Prop := ∀ s ∈ a, s < n

namespace StateSet

variable {a b : StateSet} {n : Nat}

theorem below_complement : (a.complement n).Below n := Checker.complement_lt a

/-- A domain cannot bring in a state. -/
theorem Below.narrow (h : a.Below n) (domain : Option StateSet) : (Statewise.narrow a domain).Below n := by
  intro s hs
  cases domain with
  | none => exact h s hs
  | some d => exact h s (mem_inter.mp hs).1

theorem Below.openStates (h : a.Below n) (op : BinaryOp) : (Checker.openStates op n a).Below n := by
  unfold Checker.openStates
  split
  · exact below_complement
  · exact h

end StateSet

namespace Checker

variable {c : Checker} {m : Model} {entered : Entered}

/-! ## Sets that extraction finds -/

/-- Whatever is extracted, the labels made so far are kept, and sets of real states are added. -/
def Grows (c : Checker) (m : Model) (entered : Entered) (e : Expr) : Prop :=
  ∀ found, Ensures (extractFrom .whereOpen c m entered found e) fun p => Found.Extends m.numStates found p.2

theorem extractFromAll_grows {es : List Expr} (hes : ∀ e ∈ es, Grows c m entered e) (found : Found) :
    Ensures (extractFromAll .whereOpen c m entered found es) fun p => Found.Extends m.numStates found p.2 := by
  induction es generalizing found with
  | nil =>
    rw [extractFromAll_nil]
    exact .pure (.refl _ found)
  | cons e rest ih =>
    rw [extractFromAll_cons]
    refine .bind (hes e List.mem_cons_self found) fun p hp => ?_
    refine .bind (ih (fun a ha => hes a (List.mem_cons_of_mem e ha)) p.2) fun q hq => .pure (hp.trans hq)

theorem extractFrom_grows (hc : c.solver = none) (hm : m.LabelsInRange) (entered : Entered) (e : Expr) :
    Grows c m entered e := by
  -- The induction is on where the extraction goes: into the operands, or into a definition.
  induction entered, e using Definitions.expansion_induction c.definitions with
  | step entered e ih =>
    intro found
    by_cases hprop : e.type = .bool ∧ e.isProposition = true
    · rw [extractFrom_proposition .whereOpen c m entered found hprop]
      refine .bind (P := fun a => ∀ s ∈ a, s < m.numStates) ?_ fun a ha => .pure (replace_extends ha)
      exact .of_delivers (satisfying_real hc hm none) fun _ ha => ha
    · by_cases hname : ∃ name t, e = .property name t
      · obtain ⟨name, t, rfl⟩ := hname
        cases hd : c.definitions.property? name with
        | none =>
          rw [extractFrom_unknownProperty .whereOpen c m entered found t hd]
          exact .throw _
        | some body =>
          cases hn : entered.properties.contains name with
          | true =>
            rw [extractFrom_cyclicProperty .whereOpen c m entered found t hd hn]
            exact .throw _
          | false =>
            rw [extractFrom_definedProperty .whereOpen c m entered found t hd hn]
            exact ih _ (Definitions.mem_successors_of_property hd hn) found
      · rw [extractFrom_children .whereOpen c m entered found hprop fun name t h => hname ⟨name, t, h⟩,
          extractFromChildren_eq]
        refine .bind (extractFromAll_grows (fun a ha => ih _ (Definitions.mem_successors_of_child ha)) found) ?_
        exact fun p hp => .pure hp

theorem extract_below (hc : c.solver = none) (hm : m.LabelsInRange) (e : Expr) :
    Ensures (c.extract m e) fun p => ∀ l ∈ p.2, l.2.Below m.numStates :=
  .next fun _ => fun r p hp => (extractFrom_grows hc hm .none e [] r p hp).lt fun _ hl => absurd hl List.not_mem_nil

/-! ## Every set -/

/-- Without a solver and with labels that hold in real states only, every set of states that a check comes across
holds in real states only: where an expression holds, checked over whatever domain; the states of a selector and those
of a filter; the sets of extracted formulas, also as labels of the model that they are registered in; the states of
labels; and the domains to which conditionals and connectives narrow the one that they are evaluated over. -/
theorem sets_below (c : Checker) (m : Model) (hc : c.solver = none) (hm : m.LabelsInRange) :
    (∀ e domain r v a, outcome (c.checkExpression m e domain) r = .ok v → v.satisfaction = .ok a →
      a.Below m.numStates) ∧
    (∀ entered p r a, outcome (selected .whereOpen c m entered p) r = .ok a → a.Below m.numStates ∧
      ∀ (f : Filter) r' s, outcome (f.select m a) r' = .ok s → s.states.Below m.numStates) ∧
    (∀ e r e' found, outcome (c.extract m e) r = .ok (e', found) → ∀ l ∈ found, l.2.Below m.numStates) ∧
    (∀ e r e' m', outcome (c.registerFormulas m e) r = .ok (e', m') →
      m'.numStates = m.numStates ∧ m'.LabelsInRange) ∧
    (∀ names r sets, outcome (c.checkLabels m names) r = .ok sets → ∀ a ∈ sets, a.Below m.numStates) ∧
    ∀ entered e domain r holds, outcome (satisfying .whereOpen c m entered domain e) r = .ok holds →
      (narrow holds domain).Below m.numStates ∧ (narrow (holds.complement m.numStates) domain).Below m.numStates ∧
        ∀ op, (narrow (openStates op m.numStates holds) domain).Below m.numStates := by
  have hreal : ∀ entered e domain, Ensures (satisfying .whereOpen c m entered domain e) (·.Below m.numStates) :=
    fun entered e domain => .of_delivers (satisfying_real hc hm domain) fun _ ha => ha
  refine ⟨fun e domain r v a hv ha => ?_, fun entered p r a ha => ?_, fun e r e' found h => ?_, fun e r e' m' h => ?_,
    fun names r sets h => ?_, fun entered e domain r holds h => ?_⟩
  · rw [outcome_checkExpression] at hv
    exact (evalWith_real hc hm domain).spec _ v hv |>.lt a ha
  · have ha : a.Below m.numStates :=
      (selected_delivers fun e _ => evalWith_delivers .whereOpen c m hc entered e).spec r a ha hm
    refine ⟨ha, fun f r' s hs => ?_⟩
    obtain ⟨rfl, hcan⟩ := (f.select_delivers m a).spec r' s hs
    exact fun z hz => ha z ((f.selectionOf_states m hcan).1 z hz)
  · exact extract_below hc hm e r _ h
  · obtain ⟨⟨e₁, found⟩, hextract, h⟩ := outcome_bind_eq_ok.mp h
    obtain ⟨⟨renames, m₁⟩, hattach, heq⟩ := outcome_bind_eq_ok.mp h
    cases heq
    have hattached : Attached m found renames m' := attachLabels_spec (outcome_ofModel_eq_ok.mp hattach)
    refine ⟨?_, hattached.inRange (extract_below hc hm e r _ hextract) hm⟩
    obtain ⟨labels, rfl⟩ := hattached.relabelled
    rfl
  · have hsets : Ensures (c.checkLabels m names) fun sets => ∀ a ∈ sets, a.Below m.numStates :=
      .next fun _ => .mapM fun name _ => hreal .none (.label name) none
    exact hsets r sets h
  · have hholds : holds.Below m.numStates := hreal entered e domain r holds h
    exact ⟨hholds.narrow domain, StateSet.below_complement.narrow domain,
      fun op => (hholds.openStates op).narrow domain⟩

/-- The condition `x = 0` becomes a label of a model that has labels for real states only, and where a condition does
not hold is narrowed to real states under a domain that has others. -/
theorem sets_below_twoStates : Model.twoStatesLabelled.LabelsInRange ∧
    (narrow ((StateSet.full 2).complement 2) (some (.singleton 7))).Below Model.twoStates.numStates := by
  obtain ⟨-, -, -, hregister, -, hnarrow⟩ := sets_below bare .twoStates rfl Model.labelsInRange_twoStates
  have htrue : outcome (satisfying .whereOpen bare .twoStates .none (some (.singleton 7)) .truth) .start =
      .ok (.full 2) := by
    unfold satisfying Expr.truth
    rw [evalWith_literal]
    rfl
  exact ⟨(hregister _ _ _ _ registerFormulas_pickSeven).2, (hnarrow _ _ _ _ _ htrue).2.1⟩

end Checker

end Statewise
