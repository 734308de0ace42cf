import Statewise.Model.Restrict
import Statewise.Proofs.Submodel
import Mathlib

/-!
# Building models

A model is built from the empty one by operations that may fail. An operation fails exactly if what it is given does not
fit the model (`Model.Refuses`), and otherwise makes of it what `Model.Changes` says. Whatever it does, every state keeps
a value for each variable, transitions and initial states stay among the states, and no transition is listed twice. Only
a restriction takes anything away.
-/

namespace Statewise

/-! ## Well-formed models -/

/-- A state with one more successor, unless it is one already. -/
def StateData.link (d : StateData) (target : Nat) : StateData :=
  if d.successors.contains target then d else { d with successors := d.successors ++ [target] }

@[simp] theorem StateData.values_link (d : StateData) (target : Nat) : (d.link target).values = d.values := by
  unfold StateData.link
  split <;> rfl

theorem StateData.prefix_link (d : StateData) (target : Nat) : d.successors <+: (d.link target).successors := by
  unfold StateData.link
  split
  · exact List.prefix_rfl
  · exact List.prefix_append _ _

/-- A value for each variable, and successors among the states, each listed once. -/
structure StateData.WellFormed (d : StateData) (numVariables numStates : Nat) : Prop where
  values : d.values.length = numVariables
  successors : ∀ t ∈ d.successors, t < numStates
  nodup : d.successors.Nodup

theorem StateData.WellFormed.mono {d : StateData} {k n n' : Nat} (h : d.WellFormed k n) (hle : n ≤ n') :
    d.WellFormed k n' := ⟨h.values, fun t ht => Nat.lt_of_lt_of_le (h.successors t ht) hle, h.nodup⟩

theorem StateData.WellFormed.link {d : StateData} {k n target : Nat} (h : d.WellFormed k n) (htarget : target < n) :
    (d.link target).WellFormed k n := by
  unfold StateData.link
  cases hcontains : d.successors.contains target with
  | true => exact h
  | false =>
    have hnew : target ∉ d.successors := by simpa using hcontains
    rw [if_neg Bool.false_ne_true]
    refine ⟨h.values, fun t ht => ?_, ?_⟩
    · rcases List.mem_append.mp ht with ht | ht
      · exact h.successors t ht
      · rw [List.mem_singleton.mp ht]
        exact htarget
    · rw [← List.concat_eq_append]
      exact h.nodup.concat hnew

/-- Every state has well-formed data, initial states are states, and there are no more observations than states. -/
structure Model.WellFormed (m : Model) : Prop where
  states : ∀ s < m.numStates, ∃ d, m.states[s]? = some d ∧ d.WellFormed m.variableNames.length m.numStates
  initial : ∀ s ∈ m.initial, s < m.numStates
  observations : m.observations.size ≤ m.numStates

/-- The second model has all that the first one has: its states with their values and transitions, in the same order,
its initial states and its labels. -/
structure Model.Extends (m m' : Model) : Prop where
  kind : m'.kind = m.kind
  variableNames : m'.variableNames = m.variableNames
  states : ∀ (s : Nat) (d : StateData), m.states[s]? = some d →
    ∃ d' : StateData, m'.states[s]? = some d' ∧ d'.values = d.values ∧ d.successors <+: d'.successors
  initial : ∀ s ∈ m.initial, s ∈ m'.initial
  labels : ∀ name a, m.labelStates? name = some a → m'.labelStates? name = some a

/-! ## Operations -/

/-- What a model is asked to do. -/
inductive Operation where
  | addState (values : List Value)
  | addInitial (s : Nat)
  | addTransition (source target : Nat)
  | setObservation (s : Nat) (observation : List Value)
  | addLabel (name : String) (states : StateSet)
  /-- The name is made from `base` and differs from all those in `defined`. -/
  | addUniqueLabel (base : String) (states : StateSet) (defined : List String)
  | restrict (keep : StateSet)

namespace Operation

/-- Restrictions are the only operations that take something away. -/
def Adds : Operation → Prop
  | restrict _ => False
  | _ => True

/-- The model after an operation. -/
def apply : Operation → Model → Except ModelError Model
  | addState values, m => m.addState values
  | addInitial s, m => m.addInitial s
  | addTransition source target, m => m.addTransition source target
  | setObservation s observation, m => m.setObservation s observation
  | addLabel name states, m => m.addLabel name states
  | addUniqueLabel base states defined, m => (m.addUniqueLabel base states defined).map (·.2)
  | restrict keep, m => .ok (m.restrict keep)

end Operation

namespace Model

variable {m m' : Model} {op : Operation}

/-! ## Fresh names -/

theorem candidate_injective (base : String) : Function.Injective (candidate base) := by
  have hne : ∀ i : Nat, base ≠ base ++ "_" ++ toString i := by
    intro i h
    have hlen := congrArg String.length h
    simp only [String.length_append] at hlen
    have : "_".length = 1 := rfl
    omega
  intro i j h
  match i, j with
  | 0, 0 => rfl
  | 0, j + 1 => exact absurd h (hne j)
  | i + 1, 0 => exact absurd h.symm (hne i)
  | i + 1, j + 1 =>
    have hij : toString i = toString j := (String.append_right_inj _).mp h
    rw [Nat.repr_injective hij]

/-- Among one candidate more than there are taken names one is free, so the name that is chosen is. -/
theorem freshName_not_mem (base : String) (taken : List String) : freshName base taken ∉ taken := by
  unfold freshName
  cases hfind : ((List.range (taken.length + 1)).map (candidate base)).find? fun n => !taken.contains n with
  | some name => simpa using List.find?_some hfind
  | none =>
    -- All candidates are taken, but there are too many of them.
    have hall : (List.range (taken.length + 1)).map (candidate base) ⊆ taken := by
      intro name hname
      simpa using List.find?_eq_none.mp hfind name hname
    have hnodup : ((List.range (taken.length + 1)).map (candidate base)).Nodup :=
      List.Nodup.map (candidate_injective base) List.nodup_range
    have hlen := (hnodup.subperm hall).length_le
    rw [List.length_map, List.length_range] at hlen
    exact absurd hlen (Nat.not_succ_le_self _)

theorem hasLabel_iff {name : String} : m.hasLabel name = true ↔ name ∈ m.labels.names := by
  unfold hasLabel NameMap.contains NameMap.get? NameMap.names
  rw [Option.isSome_iff_ne_none, ne_eq, List.lookup_eq_none_iff]
  simp

/-- The name that is chosen for a new label is free. -/
theorem addUniqueLabel_eq (m : Model) (base : String) (states : StateSet) (defined : List String) :
    let name := freshName base (m.labels.names ++ defined)
    (m.hasLabel name = false ∧ name ∉ defined) ∧
      m.addUniqueLabel base states defined = .ok (name, { m with labels := m.labels.insert name states }) := by
  intro name
  have hfresh : name ∉ m.labels.names ++ defined := freshName_not_mem base _
  rw [List.mem_append, not_or] at hfresh
  have hname : m.hasLabel name = false := Bool.eq_false_iff.mpr (hasLabel_iff.not.mpr hfresh.1)
  refine ⟨⟨hname, hfresh.2⟩, ?_⟩
  simp only [addUniqueLabel, addLabel]
  rw [if_neg (Bool.eq_false_iff.mp hname)]
  rfl

/-! ## What an operation does -/

/-- What an operation makes of a model to which it fits. -/
inductive Changes (m : Model) : Operation → Model → Prop
  | addState {values : List Value} (hvalues : values.length = m.variableNames.length) :
      Changes m (.addState values) { m with states := m.states.push ⟨values, []⟩ }
  | addInitial {s : Nat} (hs : s < m.numStates) :
      Changes m (.addInitial s) { m with initial := m.initial.insert s }
  | addTransition {source target : Nat} (hsource : source < m.numStates) (htarget : target < m.numStates) :
      Changes m (.addTransition source target) { m with states := m.states.modify source (·.link target) }
  | setObservation {s : Nat} {observation : List Value} (hs : s < m.numStates) :
      Changes m (.setObservation s observation)
        { m with observations :=
            (m.observations ++ Array.replicate (m.numStates - m.observations.size) []).set! s observation }
  | addLabel {name : String} {states : StateSet} (hname : m.hasLabel name = false) :
      Changes m (.addLabel name states) { m with labels := m.labels.insert name states }
  | addUniqueLabel {base name : String} {states : StateSet} {defined : List String}
      (hname : m.hasLabel name = false) (hdefined : name ∉ defined) :
      Changes m (.addUniqueLabel base states defined) { m with labels := m.labels.insert name states }
  | restrict {keep : StateSet} : Changes m (.restrict keep) (m.restrict keep)

/-- What does not fit a model, and the complaint about it. -/
inductive Refuses (m : Model) : Operation → ModelError → Prop
  | addState {values : List Value} (hvalues : values.length ≠ m.variableNames.length) :
      Refuses m (.addState values) (.valuationArity m.numStates m.variableNames.length values.length)
  | addInitial {s : Nat} (hs : m.numStates ≤ s) : Refuses m (.addInitial s) (.stateOutOfRange s m.numStates)
  | source {source target : Nat} (hsource : m.numStates ≤ source) :
      Refuses m (.addTransition source target) (.stateOutOfRange source m.numStates)
  | target {source target : Nat} (hsource : source < m.numStates) (htarget : m.numStates ≤ target) :
      Refuses m (.addTransition source target) (.stateOutOfRange target m.numStates)
  | setObservation {s : Nat} {observation : List Value} (hs : m.numStates ≤ s) :
      Refuses m (.setObservation s observation) (.stateOutOfRange s m.numStates)
  | addLabel {name : String} {states : StateSet} (hname : m.hasLabel name = true) :
      Refuses m (.addLabel name states) (.duplicateLabel name)

theorem checkState_of_lt {s : Nat} (h : s < m.numStates) : m.checkState s = .ok () := if_pos h

theorem checkState_of_le {s : Nat} (h : m.numStates ≤ s) :
    m.checkState s = .error (.stateOutOfRange s m.numStates) := if_neg (Nat.not_lt.mpr h)

/-- An operation changes the model, or it refuses. -/
theorem apply_cases (m : Model) (op : Operation) :
    (∃ m', op.apply m = .ok m' ∧ m.Changes op m') ∨ ∃ e, op.apply m = .error e ∧ m.Refuses op e := by
  cases op with
  | addState values =>
    by_cases hvalues : values.length = m.variableNames.length
    · exact .inl ⟨_, if_pos hvalues, .addState hvalues⟩
    · exact .inr ⟨_, if_neg hvalues, .addState hvalues⟩
  | addInitial s =>
    by_cases hs : s < m.numStates
    · refine .inl ⟨_, ?_, .addInitial hs⟩
      simp only [Operation.apply, Model.addInitial, checkState_of_lt hs]
      rfl
    · have hs := Nat.not_lt.mp hs
      refine .inr ⟨_, ?_, .addInitial hs⟩
      simp only [Operation.apply, Model.addInitial, checkState_of_le hs]
      rfl
  | addTransition source target =>
    by_cases hsource : source < m.numStates
    · by_cases htarget : target < m.numStates
      · refine .inl ⟨_, ?_, .addTransition hsource htarget⟩
        simp only [Operation.apply, Model.addTransition, checkState_of_lt hsource, checkState_of_lt htarget]
        rfl
      · have htarget := Nat.not_lt.mp htarget
        refine .inr ⟨_, ?_, .target hsource htarget⟩
        simp only [Operation.apply, Model.addTransition, checkState_of_lt hsource, checkState_of_le htarget]
        rfl
    · have hsource := Nat.not_lt.mp hsource
      refine .inr ⟨_, ?_, .source hsource⟩
      simp only [Operation.apply, Model.addTransition, checkState_of_le hsource]
      rfl
  | setObservation s observation =>
    by_cases hs : s < m.numStates
    · refine .inl ⟨_, ?_, .setObservation hs⟩
      simp only [Operation.apply, Model.setObservation, checkState_of_lt hs]
      rfl
    · have hs := Nat.not_lt.mp hs
      refine .inr ⟨_, ?_, .setObservation hs⟩
      simp only [Operation.apply, Model.setObservation, checkState_of_le hs]
      rfl
  | addLabel name states =>
    cases hname : m.hasLabel name with
    | false => exact .inl ⟨_, if_neg (by simp [hname]), .addLabel hname⟩
    | true => exact .inr ⟨_, if_pos hname, .addLabel hname⟩
  | addUniqueLabel base states defined =>
    obtain ⟨⟨hname, hdefined⟩, hadd⟩ := addUniqueLabel_eq m base states defined
    exact .inl ⟨_, by rw [Operation.apply, hadd]; rfl, .addUniqueLabel hname hdefined⟩
  | restrict keep => exact .inl ⟨_, rfl, .restrict⟩

/-- What a model refuses does not fit it. -/
theorem Refuses.not_changes {e : ModelError} (h : m.Refuses op e) : ¬m.Changes op m' := by
  intro hchanges
  cases h with
  | addState hvalues => cases hchanges with | addState hvalues' => exact hvalues hvalues'
  | addInitial hs => cases hchanges with | addInitial hs' => omega
  | source hs => cases hchanges with | addTransition hs' => omega
  | target _ hs => cases hchanges with | addTransition _ hs' => omega
  | setObservation hs => cases hchanges with | setObservation hs' => omega
  | addLabel hname => cases hchanges with | addLabel hname' => simp [hname] at hname'

/-- There is one complaint about what does not fit. -/
theorem Refuses.unique {e e' : ModelError} (h : m.Refuses op e) (h' : m.Refuses op e') : e = e' := by
  cases h with
  | source hs => cases h' with
    | source => rfl
    | target hs' => omega
  | target hs => cases h' with
    | source hs' => omega
    | target => rfl
  | _ => cases h'; rfl

/-- An operation fails exactly if the model refuses it. -/
theorem apply_eq_error_iff {e : ModelError} : op.apply m = .error e ↔ m.Refuses op e := by
  rcases apply_cases m op with ⟨m', hm', hchanges⟩ | ⟨e', he', hrefuses⟩
  · rw [hm']
    exact iff_of_false (fun h => by cases h) fun h => h.not_changes hchanges
  · rw [he', Except.error.injEq]
    exact ⟨fun h => h ▸ hrefuses, fun h => hrefuses.unique h⟩

theorem wellFormed_empty (kind : ModelKind) (names : List String) : (empty kind names).WellFormed :=
  ⟨fun _ hs => absurd hs (Nat.not_lt_zero _), fun s hs => absurd hs (StateSet.not_mem_empty s), Nat.le_refl 0⟩

theorem addState_wellFormed (h : m.WellFormed) {values : List Value}
    (hvalues : values.length = m.variableNames.length) :
    WellFormed { m with states := m.states.push ⟨values, []⟩ } := by
  have hsize : (m.states.push ⟨values, []⟩).size = m.numStates + 1 := Array.size_push ..
  refine ⟨fun s hs => ?_, fun s hs => ?_, ?_⟩
  · simp only [numStates, hsize] at hs ⊢
    rw [Array.getElem?_push]
    split
    · exact ⟨_, rfl, hvalues, fun t ht => absurd ht List.not_mem_nil, List.nodup_nil⟩
    · next hne =>
      obtain ⟨d, hd, hwf⟩ := h.states s (by simp only [numStates]; omega)
      exact ⟨d, hd, hwf.mono (Nat.le_succ _)⟩
  · simp only [numStates, hsize]
    exact Nat.lt_succ_of_lt (h.initial s hs)
  · simp only [numStates, hsize]
    exact Nat.le_succ_of_le h.observations

theorem addInitial_wellFormed (h : m.WellFormed) {s : Nat} (hs : s < m.numStates) :
    WellFormed { m with initial := m.initial.insert s } := by
  refine ⟨h.states, fun t ht => ?_, h.observations⟩
  rcases StateSet.mem_insert.mp ht with rfl | ht
  · exact Nat.lt_of_le_of_lt (Nat.mod_le _ _) hs
  · exact h.initial t ht

theorem addTransition_wellFormed (h : m.WellFormed) (source : Nat) {target : Nat} (htarget : target < m.numStates) :
    WellFormed { m with states := m.states.modify source (·.link target) } := by
  have hsize : (m.states.modify source (·.link target)).size = m.numStates := Array.size_modify ..
  refine ⟨fun s hs => ?_, fun s hs => ?_, ?_⟩
  · simp only [numStates, hsize] at hs ⊢
    obtain ⟨d, hd, hwf⟩ := h.states s hs
    rw [Array.getElem?_modify, hd]
    split
    · exact ⟨_, rfl, hwf.link htarget⟩
    · exact ⟨d, rfl, hwf⟩
  · simp only [numStates, hsize]
    exact h.initial s hs
  · simp only [numStates, hsize]
    exact h.observations

theorem setObservation_wellFormed (h : m.WellFormed) (s : Nat) (observation : List Value) :
    WellFormed { m with observations :=
      (m.observations ++ Array.replicate (m.numStates - m.observations.size) []).set! s observation } := by
  refine ⟨h.states, h.initial, ?_⟩
  have := h.observations
  simp [numStates] at this ⊢
  omega

theorem restrict_wellFormed (h : m.WellFormed) (keep : StateSet) : (m.restrict keep).WellFormed := by
  refine ⟨fun i hi => ?_, fun i hi => ?_, ?_⟩
  · obtain ⟨s, hs⟩ := exists_kept hi
    obtain ⟨d, hd, hwf⟩ := h.states s (lt_of_kept hs)
    refine ⟨keepData (m.kept keep) d, by rw [states_restrict hs, hd]; rfl, hwf.values, fun t ht => ?_, ?_⟩
    · obtain ⟨t', -, ht⟩ := List.mem_filterMap.mp ht
      exact lt_of_getElem?_kept ((renumber?_eq_some (nodup_kept m keep)).mp ht)
    · -- States that are kept do not share a number.
      refine hwf.nodup.filterMap fun a b i ha hb => ?_
      have ha := (renumber?_eq_some (nodup_kept m keep)).mp ha
      have hb := (renumber?_eq_some (nodup_kept m keep)).mp hb
      rw [ha] at hb
      exact Option.some.inj hb
  · obtain ⟨j, hj, rfl⟩ := StateSet.mem_ofList.mp hi
    obtain ⟨s, -, hs⟩ := List.mem_filterMap.mp hj
    have hlt := lt_of_getElem?_kept ((renumber?_eq_some (nodup_kept m keep)).mp hs)
    exact Nat.lt_of_le_of_lt (Nat.mod_le _ _) hlt
  · rw [numStates_restrict]
    unfold restrict
    simp only
    split <;> simp

/-- Whatever an operation does, the model stays well-formed. -/
theorem Changes.wellFormed (h : m.WellFormed) (hchanges : m.Changes op m') : m'.WellFormed := by
  cases hchanges with
  | addState hvalues => exact addState_wellFormed h hvalues
  | addInitial hs => exact addInitial_wellFormed h hs
  | addTransition _ htarget => exact addTransition_wellFormed h _ htarget
  | setObservation => exact setObservation_wellFormed h _ _
  | addLabel => exact ⟨h.states, h.initial, h.observations⟩
  | addUniqueLabel => exact ⟨h.states, h.initial, h.observations⟩
  | restrict => exact restrict_wellFormed h _

/-- Neither the kind of a model nor its variables change. -/
theorem Changes.kind_eq (hchanges : m.Changes op m') : m'.kind = m.kind ∧ m'.variableNames = m.variableNames := by
  cases hchanges <;> exact ⟨rfl, rfl⟩

/-! ## Nothing is lost -/

theorem Extends.refl (m : Model) : m.Extends m :=
  ⟨rfl, rfl, fun _ d hd => ⟨d, hd, rfl, List.prefix_rfl⟩, fun _ hs => hs, fun _ _ ha => ha⟩

theorem Extends.trans {m'' : Model} (h : m.Extends m') (h' : m'.Extends m'') : m.Extends m'' where
  kind := h'.kind.trans h.kind
  variableNames := h'.variableNames.trans h.variableNames
  states := fun s d hd => by
    obtain ⟨d', hd', hvalues, hprefix⟩ := h.states s d hd
    obtain ⟨d'', hd'', hvalues', hprefix'⟩ := h'.states s d' hd'
    exact ⟨d'', hd'', hvalues'.trans hvalues, hprefix.trans hprefix'⟩
  initial := fun s hs => h'.initial s (h.initial s hs)
  labels := fun name a ha => h'.labels name a (h.labels name a ha)

/-- A label under a new name replaces none. -/
theorem insertLabel_extends {name : String} (hname : m.hasLabel name = false) (states : StateSet) :
    m.Extends { m with labels := m.labels.insert name states } := by
  refine ⟨rfl, rfl, fun _ d hd => ⟨d, hd, rfl, List.prefix_rfl⟩, fun _ hs => hs, fun n a ha => ?_⟩
  have hne : n ≠ name := by
    rintro rfl
    have hsome : m.hasLabel n = true := Option.isSome_of_eq_some ha
    simp [hname] at hsome
  exact (NameMap.get?_insert ..).trans ((if_neg hne).trans ha)

theorem Changes.extends (hchanges : m.Changes op m') (hop : op.Adds) : m.Extends m' := by
  cases hchanges with
  | addState =>
    refine ⟨rfl, rfl, fun s d hd => ⟨d, ?_, rfl, List.prefix_rfl⟩, fun _ hs => hs, fun _ _ ha => ha⟩
    obtain ⟨hlt, -⟩ := Array.getElem?_eq_some_iff.mp hd
    rw [Array.getElem?_push, if_neg (Nat.ne_of_lt hlt)]
    exact hd
  | addInitial =>
    exact ⟨rfl, rfl, fun _ d hd => ⟨d, hd, rfl, List.prefix_rfl⟩, fun _ hs => StateSet.mem_insert.mpr (.inr hs),
      fun _ _ ha => ha⟩
  | @addTransition source target =>
    refine ⟨rfl, rfl, fun s d hd => ?_, fun _ hs => hs, fun _ _ ha => ha⟩
    simp only [Array.getElem?_modify, hd]
    split
    · exact ⟨d.link target, rfl, d.values_link target, d.prefix_link target⟩
    · exact ⟨d, rfl, rfl, List.prefix_rfl⟩
  | setObservation =>
    exact ⟨rfl, rfl, fun _ d hd => ⟨d, hd, rfl, List.prefix_rfl⟩, fun _ hs => hs, fun _ _ ha => ha⟩
  | addLabel hname => exact insertLabel_extends hname _
  | addUniqueLabel hname => exact insertLabel_extends hname _
  | restrict => exact hop.elim

end Model

end Statewise
