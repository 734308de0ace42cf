import Statewise.Job
import Statewise.Proofs.Building
import Statewise.Proofs.Running

/-!
# Loading jobs

A job can be loaded exactly if its model is of a known kind and everything in it fits the states that are listed
(`ModelSpec.Valid`). The model then says what the description says, no more and no less (`ModelSpec.Describes`). The
description is gone through in loops, each of which looks at one part of it and stops at the first thing that does not
fit. Where all things fit a loop is a fold, and so the model is known in full (`ModelSpec.model`).
-/

namespace Statewise

/-! ## What a description says -/

namespace ModelSpec

/-- Everything in the description fits the states that are listed. -/
structure Valid (spec : ModelSpec) : Prop where
  /-- The kind is known; its letters may be of either case. -/
  kind : ∃ kind : ModelKind, kind.keyword = spec.kind.toLower
  values : ∀ values ∈ spec.states, values.length = spec.variableNames.length
  initial : ∀ s ∈ spec.initial, s < spec.states.length
  transitions : ∀ t ∈ spec.transitions, t.1 < spec.states.length ∧ t.2 < spec.states.length
  labels : ∀ l ∈ spec.labels.toList, ∀ s ∈ l.2, s < spec.states.length
  observations : spec.observations = [] ∨ spec.observations.length = spec.states.length

/-- The targets of the transitions of a state, each where it is listed first. -/
def targets (spec : ModelSpec) (s : Nat) : List Nat :=
  ((spec.transitions.filter (·.1 == s)).map (·.2)).eraseDups

/-- The model says what the description says. -/
structure Describes (spec : ModelSpec) (m : Model) : Prop where
  kind : m.kind.keyword = spec.kind.toLower
  variableNames : m.variableNames = spec.variableNames
  values : m.states.toList.map (·.values) = spec.states
  initial : ∀ s, s ∈ m.initial ↔ s ∈ spec.initial
  successors : ∀ s < spec.states.length, m.successors s = spec.targets s
  labelNames : m.labels.names = spec.labels.names
  label : ∀ name states, spec.labels.get? name = some states → ∃ a, m.labelStates? name = some a ∧
    (∀ s, s ∈ a ↔ s ∈ states) ∧ ∀ s ∈ a, s < m.numStates
  observations : m.observations.toList = spec.observations

/-- The model of a kind that says what the description says. -/
def model (spec : ModelSpec) (kind : ModelKind) : Model where
  kind := kind
  variableNames := spec.variableNames
  states := (spec.states.zipIdx.map fun (values, s) => ⟨values, spec.targets s⟩).toArray
  initial := .ofList spec.initial
  labels := spec.labels.map .ofList
  observations := spec.observations.toArray

end ModelSpec

/-! ## Loops that check what they take -/

namespace Yields

variable {α β ε : Type} {f : β → α → Except ε β} {g : β → α → β} {P : α → Prop} {I : β → Prop}

/-- A loop whose steps succeed exactly on what satisfies a condition succeeds if everything does, and is a fold then. -/
theorem foldlM_eq_ok_iff {l : List α} (hstep : ∀ b, I b → ∀ x ∈ l, ∀ y, f b x = .ok y ↔ P x ∧ g b x = y)
    (hkeep : ∀ b, I b → ∀ x ∈ l, P x → I (g b x)) {b y : β} (hb : I b) :
    l.foldlM f b = .ok y ↔ (∀ x ∈ l, P x) ∧ l.foldl g b = y := by
  induction l generalizing b with
  | nil => simp [pure, Except.pure]
  | cons x l ih =>
    have ih := fun {b : β} => ih (b := b) (fun b hb z hz => hstep b hb z (List.mem_cons_of_mem x hz))
      fun b hb z hz => hkeep b hb z (List.mem_cons_of_mem x hz)
    rw [List.foldlM_cons, bind_eq_ok, List.forall_mem_cons, List.foldl_cons]
    constructor
    · rintro ⟨b₁, hb₁, hrest⟩
      obtain ⟨hx, rfl⟩ := (hstep b hb x List.mem_cons_self b₁).mp hb₁
      obtain ⟨hl, hlast⟩ := (ih (hkeep b hb x List.mem_cons_self hx)).mp hrest
      exact ⟨⟨hx, hl⟩, hlast⟩
    · rintro ⟨⟨hx, hl⟩, hlast⟩
      refine ⟨g b x, (hstep b hb x List.mem_cons_self _).mpr ⟨hx, rfl⟩, ?_⟩
      exact (ih (hkeep b hb x List.mem_cons_self hx)).mpr ⟨hl, hlast⟩

end Yields

/-! ## Steps of the loops -/

namespace Model

variable {m m' : Model}

theorem checkState_eq_ok_iff {s : Nat} {u : Unit} : m.checkState s = .ok u ↔ s < m.numStates := by
  unfold checkState
  split <;> simp_all

theorem addState_eq_ok_iff {values : List Value} : m.addState values = .ok m' ↔
    values.length = m.variableNames.length ∧ { m with states := m.states.push ⟨values, []⟩ } = m' := by
  unfold addState
  split <;> simp_all

theorem addInitial_eq_ok_iff {s : Nat} : m.addInitial s = .ok m' ↔
    s < m.numStates ∧ { m with initial := m.initial.insert s } = m' := by
  simp [addInitial, Yields.bind_eq_ok, checkState_eq_ok_iff, pure, Except.pure]

theorem addTransition_eq_ok_iff {t : Nat × Nat} : m.addTransition t.1 t.2 = .ok m' ↔
    (t.1 < m.numStates ∧ t.2 < m.numStates) ∧
      { m with states := m.states.modify t.1 (·.link t.2) } = m' := by
  simp only [addTransition, Yields.bind_eq_ok, checkState_eq_ok_iff, exists_const, and_assoc]
  exact and_congr_right fun _ => and_congr_right fun _ => ⟨fun h => Except.ok.inj h, fun h => h ▸ rfl⟩

theorem setObservation_eq_ok_iff {s : Nat} {observation : List Value} : m.setObservation s observation = .ok m' ↔
    s < m.numStates ∧ { m with observations :=
      (m.observations ++ Array.replicate (m.numStates - m.observations.size) []).set! s observation } = m' := by
  simp [setObservation, Yields.bind_eq_ok, checkState_eq_ok_iff, pure, Except.pure]

/-! ## What the loops make -/

theorem foldl_addState (m : Model) (states : List (List Value)) :
    states.foldl (fun m values => { m with states := m.states.push ⟨values, []⟩ }) m =
      { m with states := m.states ++ (states.map fun values => ⟨values, []⟩).toArray } := by
  induction states generalizing m with
  | nil => simp
  | cons values states ih => simp [ih]

theorem foldl_addInitial (m : Model) (initial : List Nat) :
    initial.foldl (fun m s => { m with initial := m.initial.insert s }) m =
      { m with initial := initial.foldl .insert m.initial } := by
  induction initial generalizing m with
  | nil => rfl
  | cons s initial ih => exact ih _

theorem foldl_addTransition (m : Model) (transitions : List (Nat × Nat)) :
    transitions.foldl (fun m t => { m with states := m.states.modify t.1 (·.link t.2) }) m =
      { m with states := transitions.foldl (fun states t => states.modify t.1 (·.link t.2)) m.states } := by
  induction transitions generalizing m with
  | nil => rfl
  | cons t transitions ih => exact ih _

end Model

/-- The set of some states, made by putting one after the other into it. -/
theorem StateSet.foldl_insert (states : List Nat) : states.foldl .insert .empty = ofList states := by
  suffices h : ∀ (a : StateSet) z, z ∈ states.foldl .insert a ↔ z ∈ a ∨ ∃ s ∈ states, z = index s by
    refine StateSet.ext fun z => ?_
    rw [h, mem_ofList]
    simp
  induction states with
  | nil => simp
  | cons s states ih =>
    intro a z
    rw [List.foldl_cons, ih, mem_insert, List.exists_mem_cons_iff]
    tauto

namespace StateData

/-- A state that is linked to one target after the other leads to each once, in the order of their first links. -/
theorem foldl_link (values : List Value) (targets : List Nat) :
    targets.foldl link ⟨values, []⟩ = ⟨values, targets.eraseDups⟩ := by
  induction targets using List.reverseRecOn with
  | nil => rfl
  | append_singleton targets t ih =>
    rw [List.foldl_append, ih, List.eraseDups_append]
    by_cases ht : t ∈ targets
    · simp [link, ht, List.removeAll]
    · simp [link, ht, List.removeAll, List.eraseDups_cons]

/-- Each state gets the links of its own transitions. -/
theorem foldl_modify_link (transitions : List (Nat × Nat)) (states : Array StateData) (s : Nat) :
    (transitions.foldl (fun states t => states.modify t.1 (·.link t.2)) states)[s]? =
      states[s]?.map (((transitions.filter (·.1 == s)).map (·.2)).foldl link) := by
  induction transitions generalizing states with
  | nil => simp
  | cons t transitions ih =>
    rw [List.foldl_cons, ih, Array.getElem?_modify, List.filter_cons]
    by_cases ht : t.1 = s
    · simp [ht, Function.comp_def]
    · simp [ht]

end StateData

/-! ## Labels and observations -/

namespace NameMap

variable {α : Type}

theorem eq_of_toList_eq {l l' : NameMap α} (h : l.toList = l'.toList) : l = l' := by
  cases l
  cases l'
  cases h
  rfl

theorem mem_of_get? {l : NameMap α} {name : String} {v : α} (h : l.get? name = some v) : (name, v) ∈ l.toList := by
  obtain ⟨before, behind, hl, -⟩ := List.lookup_eq_some_iff.mp h
  rw [hl]
  exact List.mem_append_right _ List.mem_cons_self

/-- A name behind all others is put at the end. -/
theorem insertList_of_lt {name : String} {v : α} {l : List (String × α)} (h : ∀ e ∈ l, e.1 < name) :
    insertList name v l = l ++ [(name, v)] := by
  induction l with
  | nil => rfl
  | cons e l ih =>
    obtain ⟨he, hl⟩ := List.forall_mem_cons.mp h
    have hne : name ≠ e.1 := fun heq => String.lt_irrefl _ (heq ▸ he)
    simp only [insertList, if_neg (String.lt_asymm he), if_neg hne, ih hl, List.cons_append]

end NameMap

namespace ModelSpec

variable {m m' : Model} {n : Nat}

theorem liftModel_eq_ok {α : Type} {x : Except ModelError α} {a : α} : liftModel x = .ok a ↔ x = .ok a := by
  cases x <;> simp [liftModel, Except.mapError]

theorem labelSet_eq_ok_iff {label : String} {states : List Nat} {a : StateSet} :
    labelSet label n states = .ok a ↔ (∀ s ∈ states, s < n) ∧ .ofList states = a := by
  rw [← StateSet.foldl_insert]
  refine Yields.foldlM_eq_ok_iff (I := fun _ => True) (fun a _ s _ a' => ?_) (fun _ _ _ _ _ => trivial) trivial
  split <;> simp_all

/-- The labels are put in one after the other. They come in the order of their names, so none is there already. -/
theorem addLabels_eq_ok_iff {labels : List (String × List Nat)} (hsorted : labels.Pairwise (·.1 < ·.1))
    (hnew : ∀ e ∈ m.labels.toList, ∀ l ∈ labels, e.1 < l.1) :
    labels.foldlM (fun m (name, states) => do liftModel (m.addLabel name (← labelSet name n states))) m = .ok m' ↔
      (∀ l ∈ labels, ∀ s ∈ l.2, s < n) ∧ ∃ all : NameMap StateSet,
        all.toList = m.labels.toList ++ labels.map (fun l => (l.1, .ofList l.2)) ∧ { m with labels := all } = m' := by
  induction labels generalizing m with
  | nil =>
    constructor
    · intro h
      obtain rfl : m = m' := Except.ok.inj h
      exact ⟨fun l hl => absurd hl List.not_mem_nil, m.labels, (List.append_nil _).symm, rfl⟩
    · rintro ⟨-, all, hall, rfl⟩
      rw [NameMap.eq_of_toList_eq (hall.trans (List.append_nil _))]
      rfl
  | cons l labels ih =>
    obtain ⟨name, states⟩ := l
    obtain ⟨hlt, hsorted⟩ := List.pairwise_cons.mp hsorted
    have hbehind : ∀ e ∈ m.labels.toList, e.1 < name := fun e he => hnew e he _ List.mem_cons_self
    have hfree : m.hasLabel name = false := by
      rw [Bool.eq_false_iff, ne_eq, Model.hasLabel_iff]
      intro hmem
      obtain ⟨e, he, rfl⟩ := List.mem_map.mp hmem
      exact String.lt_irrefl _ (hbehind e he)
    -- The label stands behind those that are there, and before those that are to come.
    have hinsert : ∀ a, (m.labels.insert name a).toList = m.labels.toList ++ [(name, a)] :=
      fun a => NameMap.insertList_of_lt hbehind
    have hnew' : ∀ a, ∀ e ∈ (m.labels.insert name a).toList, ∀ l ∈ labels, e.1 < l.1 := by
      intro a e he l hl
      rw [hinsert, List.mem_append, List.mem_singleton] at he
      rcases he with he | rfl
      · exact hnew e he l (List.mem_cons_of_mem _ hl)
      · exact hlt l hl
    rw [List.foldlM_cons, Yields.bind_eq_ok, List.forall_mem_cons]
    have hstep : ∀ m₁, (do liftModel (m.addLabel name (← labelSet name n states))) = Except.ok m₁ ↔
        (∀ s ∈ states, s < n) ∧ { m with labels := m.labels.insert name (.ofList states) } = m₁ := by
      intro m₁
      rw [Yields.bind_eq_ok]
      simp only [labelSet_eq_ok_iff, liftModel_eq_ok, Model.addLabel, hfree, Bool.false_eq_true, if_false,
        Except.ok.injEq, and_assoc]
      simp
    simp only [hstep]
    constructor
    · rintro ⟨_, ⟨hstates, rfl⟩, hrest⟩
      obtain ⟨hlabels, all, hall, rfl⟩ := (ih hsorted (hnew' _)).mp hrest
      refine ⟨⟨hstates, hlabels⟩, all, ?_, rfl⟩
      rw [hall, hinsert, List.append_assoc]
      rfl
    · rintro ⟨⟨hstates, hlabels⟩, all, hall, rfl⟩
      refine ⟨_, ⟨hstates, rfl⟩, (ih hsorted (hnew' _)).mpr ⟨hlabels, all, ?_, rfl⟩⟩
      rw [hall, hinsert, List.append_assoc]
      rfl

/-- The observations of `n` states with that of one more state, and empty ones where there are none yet. -/
def observed (n : Nat) (observations : Array (List Value)) (o : List Value × Nat) : Array (List Value) :=
  (observations ++ Array.replicate (n - observations.size) []).set! o.2 o.1

/-- After some observations the others are empty. -/
theorem foldl_observed {observations : List (List Value)} {o : List Value} (h : observations.length < n) :
    (observations ++ [o]).zipIdx.foldl (observed n) #[] =
      (observations ++ o :: List.replicate (n - (observations.length + 1)) []).toArray := by
  obtain ⟨k, rfl⟩ := Nat.exists_eq_add_of_lt h
  induction observations using List.reverseRecOn generalizing o k with
  | nil => exact Array.ext' (by simp [observed, List.replicate_succ])
  | append_singleton observations o' ih =>
    have hn : (observations ++ [o']).length + k + 1 = observations.length + (k + 1) + 1 := by
      rw [List.length_append, List.length_singleton]
      omega
    rw [List.zipIdx_append, List.foldl_append, hn, ih (k + 1) (by omega)]
    have hk : observations.length + (k + 1) + 1 - (observations.length + 1) = k + 1 := by omega
    have hk' : observations.length + (k + 1) + 1 - ((observations ++ [o']).length + 1) = k := by
      rw [List.length_append, List.length_singleton]
      omega
    have hset : ∀ xs : List (List Value), (xs ++ [] :: List.replicate k []).set xs.length o =
        xs ++ o :: List.replicate k [] := fun xs => by simp
    have hall := hset (observations ++ [o'])
    simp only [List.append_assoc, List.singleton_append, List.length_append, List.length_singleton] at hall
    rw [hk, hk']
    simp [observed, List.replicate_succ, hall]

theorem foldl_setObservation (m : Model) (observations : List (List Value × Nat)) :
    observations.foldl (fun m o => { m with observations := observed m.numStates m.observations o }) m =
      { m with observations := observations.foldl (observed m.numStates) m.observations } := by
  induction observations generalizing m with
  | nil => rfl
  | cons o observations ih => exact ih _

theorem observe_eq_ok_iff {spec : ModelSpec} (hm : m.observations = #[]) : spec.observe m = .ok m' ↔
    (spec.observations = [] ∨ spec.observations.length = m.numStates) ∧
      { m with observations := spec.observations.toArray } = m' := by
  unfold observe
  split
  · next hempty =>
    have hnil : spec.observations = [] := List.isEmpty_iff.mp hempty
    rw [hnil, ← hm]
    simp
  · next hne =>
    have hne : spec.observations ≠ [] := fun h => hne (List.isEmpty_iff.mpr h)
    split
    · next hlen => exact iff_of_false nofun fun h => (h.1.resolve_left hne |> hlen)
    · next hlen =>
      have hlen : spec.observations.length = m.numStates := not_not.mp hlen
      have hloop := Yields.foldlM_eq_ok_iff (I := fun b : Model => b.numStates = m.numStates)
        (P := fun o : List Value × Nat => o.2 < m.numStates) (b := m) (y := m') (l := spec.observations.zipIdx)
        (f := fun m o => liftModel (m.setObservation o.2 o.1))
        (g := fun m o => { m with observations := observed m.numStates m.observations o })
        (fun b hb o _ b' => by rw [liftModel_eq_ok, Model.setObservation_eq_ok_iff, hb]; rfl)
        (fun b hb o _ _ => hb) rfl
      have hplaces : ∀ o ∈ spec.observations.zipIdx, o.2 < m.numStates := fun o ho => by
        have := (List.mem_zipIdx (x := o.1) (i := o.2) ho).2.1
        omega
      have hall : spec.observations.zipIdx.foldl (observed m.numStates) #[] = spec.observations.toArray := by
        obtain ⟨observations, o, heq⟩ := (List.eq_nil_or_concat' spec.observations).resolve_left hne
        rw [heq, List.length_append, List.length_singleton] at hlen
        rw [heq, foldl_observed (by omega), hlen, Nat.sub_self]
        rfl
      rw [← hall, ← hm, ← foldl_setObservation]
      refine hloop.trans (and_congr_left fun _ => ⟨fun _ => .inr hlen, fun _ => hplaces⟩)

/-! ## The loops one after the other -/

theorem addStates_eq_ok_iff {kind : ModelKind} {names : List String} {states : List (List Value)} :
    states.foldlM Model.addState (.empty kind names) = .ok m ↔ (∀ values ∈ states, values.length = names.length) ∧
      { Model.empty kind names with states := (states.map fun values => ⟨values, []⟩).toArray } = m := by
  have hloop := Yields.foldlM_eq_ok_iff (I := fun b : Model => b.variableNames = names)
    (P := fun values : List Value => values.length = names.length) (b := .empty kind names) (y := m) (l := states)
    (f := Model.addState) (g := fun m values => { m with states := m.states.push ⟨values, []⟩ })
    (fun b hb values _ b' => hb ▸ Model.addState_eq_ok_iff) (fun b hb _ _ _ => hb) rfl
  rw [Model.foldl_addState] at hloop
  simpa [Model.empty] using hloop

theorem addInitials_eq_ok_iff {initial : List Nat} (hm : m.initial = .empty) :
    initial.foldlM Model.addInitial m = .ok m' ↔
      (∀ s ∈ initial, s < m.numStates) ∧ { m with initial := .ofList initial } = m' := by
  have hloop := Yields.foldlM_eq_ok_iff (I := fun b : Model => b.numStates = m.numStates)
    (P := fun s : Nat => s < m.numStates) (b := m) (y := m') (l := initial) (f := Model.addInitial)
    (g := fun m s => { m with initial := m.initial.insert s })
    (fun b hb s _ b' => hb ▸ Model.addInitial_eq_ok_iff) (fun b hb _ _ _ => hb) rfl
  rw [Model.foldl_addInitial, hm, StateSet.foldl_insert] at hloop
  exact hloop

theorem addTransitions_eq_ok_iff {transitions : List (Nat × Nat)} :
    transitions.foldlM (fun m t => m.addTransition t.1 t.2) m = .ok m' ↔
      (∀ t ∈ transitions, t.1 < m.numStates ∧ t.2 < m.numStates) ∧
      { m with states := transitions.foldl (fun states t => states.modify t.1 (·.link t.2)) m.states } = m' := by
  have hloop := Yields.foldlM_eq_ok_iff (I := fun b : Model => b.numStates = m.numStates)
    (P := fun t : Nat × Nat => t.1 < m.numStates ∧ t.2 < m.numStates) (b := m) (y := m') (l := transitions)
    (f := fun m t => m.addTransition t.1 t.2) (g := fun m t => { m with states := m.states.modify t.1 (·.link t.2) })
    (fun b hb t _ b' => hb ▸ Model.addTransition_eq_ok_iff) (fun b hb t _ _ => hb ▸ Array.size_modify ..) rfl
  rw [Model.foldl_addTransition] at hloop
  exact hloop

/-! ## The model of a description -/

theorem ofTyped?_eq_some_iff {kind : ModelKind} {s : String} :
    ModelKind.ofTyped? s = some kind ↔ kind.keyword = s.toLower := by
  constructor
  · intro h
    simpa using List.find?_some h
  · intro h
    unfold ModelKind.ofTyped?
    rw [← h]
    cases kind <;> rfl

/-- The states after all transitions have been added are those of the description. -/
theorem linked_states (spec : ModelSpec) (kind : ModelKind) :
    spec.transitions.foldl (fun states t => states.modify t.1 (·.link t.2))
      (spec.states.map fun values => ⟨values, []⟩).toArray = (spec.model kind).states := by
  refine Array.ext_getElem? fun s => ?_
  rw [StateData.foldl_modify_link]
  simp only [model, List.getElem?_toArray, List.getElem?_map, List.getElem?_zipIdx, Nat.zero_add, Option.map_map]
  refine congrArg (Option.map · spec.states[s]?) (funext fun values => ?_)
  exact StateData.foldl_link values _

/-- A description is built exactly if it is valid, and into the model that it describes. -/
theorem build_eq_ok_iff {spec : ModelSpec} :
    spec.build = .ok m ↔ spec.Valid ∧ ∃ kind, kind.keyword = spec.kind.toLower ∧ spec.model kind = m := by
  unfold build
  cases hkind : ModelKind.ofTyped? spec.kind with
  | none =>
    refine iff_of_false nofun fun h => ?_
    obtain ⟨kind, hkeyword⟩ := h.1.kind
    rw [ofTyped?_eq_some_iff.mpr hkeyword] at hkind
    cases hkind
  | some kind =>
    have hkeyword := ofTyped?_eq_some_iff.mp hkind
    have hsorted : spec.labels.toList.Pairwise (·.1 < ·.1) := spec.labels.sorted
    -- Every loop starts from what the loops before it have made of the empty model.
    let m₁ : Model := { Model.empty kind spec.variableNames with
      states := (spec.states.map fun values => ⟨values, []⟩).toArray }
    have hn₁ : m₁.numStates = spec.states.length := by simp [m₁, Model.numStates]
    let m₂ : Model := { m₁ with initial := .ofList spec.initial }
    let m₃ : Model := { m₂ with states := (spec.model kind).states }
    have hn₃ : m₃.numStates = spec.states.length := by simp [m₃, Model.numStates, model]
    have h₁ : ∀ m, spec.states.foldlM Model.addState (.empty kind spec.variableNames) = .ok m ↔
        (∀ values ∈ spec.states, values.length = spec.variableNames.length) ∧ m₁ = m :=
      fun m => addStates_eq_ok_iff
    have h₂ : ∀ m, spec.initial.foldlM Model.addInitial m₁ = .ok m ↔
        (∀ s ∈ spec.initial, s < spec.states.length) ∧ m₂ = m :=
      fun m => hn₁ ▸ addInitials_eq_ok_iff rfl
    have h₃ : ∀ m, spec.transitions.foldlM (fun m t => m.addTransition t.1 t.2) m₂ = .ok m ↔
        (∀ t ∈ spec.transitions, t.1 < spec.states.length ∧ t.2 < spec.states.length) ∧ m₃ = m := by
      intro m
      rw [addTransitions_eq_ok_iff, show m₂.numStates = _ from hn₁]
      show _ ∧ { m₂ with states := _ } = m ↔ _
      rw [show m₂.states = _ from rfl, linked_states]
    let m₄ : Model := { m₃ with labels := spec.labels.map .ofList }
    have h₄ : ∀ m, spec.labels.toList.foldlM (fun m (name, states) => do
        liftModel (m.addLabel name (← labelSet name spec.states.length states))) m₃ = .ok m ↔
        (∀ l ∈ spec.labels.toList, ∀ s ∈ l.2, s < spec.states.length) ∧ m₄ = m := by
      intro m
      rw [addLabels_eq_ok_iff hsorted fun e he => absurd he List.not_mem_nil]
      refine and_congr_right fun _ => ⟨?_, fun h => ⟨spec.labels.map .ofList, rfl, h⟩⟩
      rintro ⟨all, hall, rfl⟩
      have heq : all = spec.labels.map .ofList := NameMap.eq_of_toList_eq hall
      rw [heq]
    have h₅ : ∀ m, spec.observe m₄ = .ok m ↔
        (spec.observations = [] ∨ spec.observations.length = spec.states.length) ∧ spec.model kind = m := by
      intro m
      rw [observe_eq_ok_iff rfl, show m₄.numStates = _ from hn₃]
      rfl
    simp only [Yields.bind_eq_ok, liftModel_eq_ok, h₁]
    constructor
    · rintro ⟨_, ⟨hvalues, rfl⟩, _, hb, _, hc, _, hd, he⟩
      obtain ⟨hinitial, rfl⟩ := (h₂ _).mp hb
      obtain ⟨htransitions, rfl⟩ := (h₃ _).mp hc
      obtain ⟨hlabels, rfl⟩ := (h₄ _).mp hd
      obtain ⟨hobservations, rfl⟩ := (h₅ _).mp he
      exact ⟨⟨⟨kind, hkeyword⟩, hvalues, hinitial, htransitions, hlabels, hobservations⟩, kind, hkeyword, rfl⟩
    · rintro ⟨h, kind', hkeyword', rfl⟩
      obtain rfl : kind = kind' := by
        rw [ofTyped?_eq_some_iff.mpr hkeyword'] at hkind
        exact (Option.some.inj hkind).symm
      exact ⟨m₁, ⟨h.values, rfl⟩, m₂, (h₂ _).mpr ⟨h.initial, rfl⟩, m₃, (h₃ _).mpr ⟨h.transitions, rfl⟩,
        m₄, (h₄ _).mpr ⟨h.labels, rfl⟩, (h₅ _).mpr ⟨h.observations, rfl⟩⟩

/-- A model that is built from a valid description says what the description says. -/
theorem Valid.describes {spec : ModelSpec} (h : spec.Valid) (hn : spec.states.length < stateLimit) {kind : ModelKind}
    (hkind : kind.keyword = spec.kind.toLower) : spec.Describes (spec.model kind) := by
  have hset : ∀ {states : List Nat}, (∀ s ∈ states, s < spec.states.length) →
      ∀ s, s ∈ StateSet.ofList states ↔ s ∈ states := by
    intro states hstates s
    rw [StateSet.mem_ofList]
    constructor
    · rintro ⟨t, ht, rfl⟩
      rw [StateSet.index_of_lt (Nat.lt_trans (hstates t ht) hn)]
      exact ht
    · exact fun hs => ⟨s, hs, (StateSet.index_of_lt (Nat.lt_trans (hstates s hs) hn)).symm⟩
  have hsize : (spec.model kind).numStates = spec.states.length := by simp [model, Model.numStates]
  refine ⟨hkind, rfl, ?_, hset h.initial, fun s hs => ?_, ?_, fun name states hstates => ?_, rfl⟩
  · simp [model, Function.comp_def]
  · simp [model, Model.successors, hs]
  · simp [model, NameMap.names, NameMap.map]
  · have hlabel := h.labels (name, states) (NameMap.mem_of_get? hstates)
    refine ⟨.ofList states, ?_, hset hlabel, fun s hs => hsize ▸ hlabel s ((hset hlabel s).mp hs)⟩
    show NameMap.get? (spec.labels.map StateSet.ofList) name = _
    rw [NameMap.get?_map, hstates]
    rfl

end ModelSpec

/-! ## Loading -/

theorem Job.load_eq_ok_iff {j : Job} {m : Model} {d : Definitions} : j.load = .ok (m, d) ↔ j.model.build = .ok m ∧
    { j.definitions with modelLabels := j.definitions.modelLabels ++
      j.model.labels.names.filter fun n => !j.definitions.modelLabels.contains n } = d := by
  simp only [Job.load, Yields.bind_eq_ok]
  constructor
  · rintro ⟨m', hm', h⟩
    cases h
    exact ⟨hm', rfl⟩
  · rintro ⟨hm, rfl⟩
    exact ⟨m, hm, rfl⟩

/-- A job with fewer than `2 ^ 32` states can be loaded exactly if its model is valid. The model that is loaded says
what the description says, and the definitions are those of the job, with the names of the labels of the model behind
the known names, in their order and without those that are known already. -/
theorem Job.load_faithful (j : Job) (hn : j.model.states.length < stateLimit) :
    ((∃ loaded, j.load = .ok loaded) ↔ j.model.Valid) ∧
    ∀ m d, j.load = .ok (m, d) → j.model.Describes m ∧ ∃ new : List String,
      d = { j.definitions with modelLabels := j.definitions.modelLabels ++ new } ∧ new.Pairwise (· < ·) ∧
      ∀ name, name ∈ new ↔ m.hasLabel name = true ∧ name ∉ j.definitions.modelLabels := by
  constructor
  · constructor
    · rintro ⟨⟨m, d⟩, h⟩
      exact (ModelSpec.build_eq_ok_iff.mp (Job.load_eq_ok_iff.mp h).1).1
    · intro h
      obtain ⟨kind, hkind⟩ := h.kind
      exact ⟨_, Job.load_eq_ok_iff.mpr ⟨ModelSpec.build_eq_ok_iff.mpr ⟨h, kind, hkind, rfl⟩, rfl⟩⟩
  · intro m d h
    obtain ⟨hbuild, rfl⟩ := Job.load_eq_ok_iff.mp h
    obtain ⟨hvalid, kind, hkind, rfl⟩ := ModelSpec.build_eq_ok_iff.mp hbuild
    have hdescribes := hvalid.describes hn hkind
    refine ⟨hdescribes, _, rfl, ?_, fun name => ?_⟩
    · exact (List.pairwise_map.mpr j.model.labels.sorted).filter _
    · rw [Model.hasLabel_iff, hdescribes.labelNames, List.mem_filter]
      simp

/-- Two states with transitions, one of them twice, and a label of a name that the definitions know and one of a name
that they do not. -/
def Job.twoStates : Job where
  model :=
    { kind := "dTmC"
      variableNames := ["x"]
      states := [[.int 0], [.int 1]]
      initial := [0]
      transitions := [(0, 1), (1, 1), (0, 0), (0, 1)]
      labels := NameMap.insert (NameMap.insert .empty "a" [1]) "b" []
      observations := [] }
  definitions := { Definitions.empty with modelLabels := ["b", "c"] }

theorem Job.twoStates_valid : Job.twoStates.model.Valid where
  kind := ⟨.dtmc, by decide +kernel⟩
  values := by decide +kernel
  initial := by decide +kernel
  transitions := by decide +kernel
  labels := by decide +kernel
  observations := .inl rfl

/-- It is loaded; with a label for a third state it would not be. -/
theorem Job.load_faithful_twoStates :
    Job.twoStates.model.states.length < stateLimit ∧
    (∃ m d, Job.twoStates.load = .ok (m, d) ∧ m.successors 0 = [1, 0] ∧ "a" ∈ d.modelLabels) ∧
      ¬∃ loaded, Job.load { Job.twoStates with model := { Job.twoStates.model with
        labels := NameMap.insert .empty "a" [2] } } = .ok loaded := by
  have hn : Job.twoStates.model.states.length < stateLimit := by decide
  have hload := Job.load_faithful Job.twoStates hn
  refine ⟨hn, ?_, ?_⟩
  · obtain ⟨⟨m, d⟩, h⟩ := hload.1.mpr Job.twoStates_valid
    obtain ⟨hm, new, rfl, -, hnew⟩ := hload.2 m d h
    refine ⟨m, _, h, (hm.successors 0 (by decide)).trans (by decide), ?_⟩
    have ha : m.hasLabel "a" = true := by
      rw [Model.hasLabel_iff, hm.labelNames]
      decide +kernel
    exact List.mem_append_right _ ((hnew "a").mpr ⟨ha, by decide⟩)
  · intro h
    have hlabels := ((Job.load_faithful { Job.twoStates with model := { Job.twoStates.model with
      labels := NameMap.insert .empty "a" [2] } } hn).1.mp h).labels
    exact absurd (hlabels ("a", [2]) (by decide +kernel) 2 (by decide)) (by decide)

end Statewise
