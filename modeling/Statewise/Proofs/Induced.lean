import Statewise.Proofs.Submodel

/-!
# Restrictions are induced submodels

A restriction keeps all that a model says about the states that it keeps, and the transitions between them in their
order (`Model.Induces`). Restricting once more is restricting once, to the states that are kept both times under
the numbers that they had in the beginning (`restrict_induces`).
-/

namespace Statewise

theorem NameMap.names_map {α β : Type} (f : α → β) (l : NameMap α) : (l.map f).names = l.names := by
  simp [NameMap.names, NameMap.map]

/-- Replacing the values twice is replacing them once. -/
theorem NameMap.map_map {α β γ : Type} (f : α → β) (g : β → γ) (l : NameMap α) :
    (l.map f).map g = l.map fun a => g (f a) := by
  simp [NameMap.map]

namespace Model

variable {m : Model} {keep keep' : StateSet} {i j k s t : Nat}

/-- The second model is the part of the first one that consists of the listed states, which are numbered anew by their
places in the list. -/
structure Induces (m : Model) (old : List Nat) (r : Model) : Prop where
  numStates : r.numStates = old.length
  kind : r.kind = m.kind
  variableNames : r.variableNames = m.variableNames
  value : ∀ i s, old[i]? = some s → ∀ index, r.value? i index = m.value? s index
  observation : ∀ i s, old[i]? = some s → ∀ index, r.observation? i index = m.observation? s index
  transition : ∀ i j s t, old[i]? = some s → old[j]? = some t → (j ∈ r.successors i ↔ t ∈ m.successors s)
  /-- The successors under their old numbers are those that are listed, in the order that they had. -/
  order : ∀ i s, old[i]? = some s →
    (r.successors i).map (old[·]?) = ((m.successors s).filter (· ∈ old)).map some
  initial : ∀ i s, old[i]? = some s → r.isInitial i = m.isInitial s
  labelNames : r.labels.names = m.labels.names
  label : ∀ name a, m.labelStates? name = some a → ∃ b, r.labelStates? name = some b ∧
    (∀ i s, old[i]? = some s → (i ∈ b ↔ s ∈ a)) ∧ ∀ i ∈ b, i < r.numStates

/-! ## Successors -/

theorem successors_restrict (h : (m.kept keep)[i]? = some s) :
    (m.restrict keep).successors i = (m.successors s).filterMap (renumber? (m.kept keep)) := by
  unfold successors
  rw [states_restrict h]
  cases m.states[s]? <;> rfl

/-- States that have a new number, looked up under it, are the listed ones. -/
theorem map_filterMap_renumber? {old : List Nat} (hold : old.Nodup) (ts : List Nat) :
    (ts.filterMap (renumber? old)).map (old[·]?) = (ts.filter (· ∈ old)).map some := by
  induction ts with
  | nil => rfl
  | cons t ts ih =>
    by_cases ht : t ∈ old
    · obtain ⟨j, hj⟩ := List.getElem?_of_mem ht
      rw [List.filterMap_cons_some ((renumber?_eq_some hold).mpr hj), List.filter_cons_of_pos (by simpa using ht),
        List.map_cons, List.map_cons, hj, ih]
    · have hnone : renumber? old t = none := by
        cases hj : renumber? old t with
        | none => rfl
        | some j => exact absurd (List.mem_of_getElem? ((renumber?_eq_some hold).mp hj)) ht
      rw [List.filterMap_cons_none hnone, List.filter_cons_of_neg (by simpa using ht), ih]

theorem mem_successors_restrict (hi : (m.kept keep)[i]? = some s) (hj : (m.kept keep)[j]? = some t) :
    j ∈ (m.restrict keep).successors i ↔ t ∈ m.successors s := by
  rw [successors_restrict hi, List.mem_filterMap]
  constructor
  · rintro ⟨t', ht', hnumber⟩
    have heq := (renumber?_eq_some (nodup_kept m keep)).mp hnumber
    rw [hj] at heq
    cases heq
    exact ht'
  · exact fun ht => ⟨t, ht, (renumber?_eq_some (nodup_kept m keep)).mpr hj⟩

theorem restrict_induces_kept (hn : m.numStates < stateLimit) (keep : StateSet) :
    m.Induces (m.kept keep) (m.restrict keep) where
  numStates := numStates_restrict
  kind := rfl
  variableNames := rfl
  value := fun _ _ h => value?_restrict h
  observation := fun _ _ h => observation?_restrict h
  transition := fun _ _ _ _ hi hj => mem_successors_restrict hi hj
  order := fun i s h => by
    rw [successors_restrict h]
    exact map_filterMap_renumber? (nodup_kept m keep) _
  initial := fun _ _ h => isInitial_restrict hn h
  labelNames := NameMap.names_map _ _
  label := fun name a ha => by
    have hb : (m.restrict keep).labelStates? name = some (renumberSet (m.kept keep) a) := by
      rw [labelStates?_restrict, ha]
      rfl
    exact ⟨_, hb, fun i s h => mem_renumberSet_kept hn h, labelsInRange_restrict hn name _ hb⟩

/-! ## Restricting once more -/

/-- The states whose new numbers are in the set. -/
def originals (old : List Nat) (a : StateSet) : StateSet := .ofList (a.toList.filterMap (old[·]?))

theorem mem_originals {old : List Nat} (hold : ∀ s ∈ old, s < stateLimit) {a : StateSet} :
    s ∈ originals old a ↔ ∃ i ∈ a, old[i]? = some s := by
  unfold originals
  simp only [StateSet.mem_ofList, List.mem_filterMap]
  constructor
  · rintro ⟨s', ⟨i, hi, hs'⟩, rfl⟩
    rw [StateSet.index_of_lt (hold s' (List.mem_of_getElem? hs'))]
    exact ⟨i, hi, hs'⟩
  · rintro ⟨i, hi, hs⟩
    exact ⟨s, ⟨i, hi, hs⟩, (StateSet.index_of_lt (hold s (List.mem_of_getElem? hs))).symm⟩

theorem lt_stateLimit_of_kept (m : Model) (keep : StateSet) : ∀ s ∈ m.kept keep, s < stateLimit :=
  fun s hs => keep.bounded s (mem_kept.mp hs).1

/-- Places of kept states among kept states have states that are kept. -/
theorem isSome_kept_of_kept : ∀ i ∈ (m.restrict keep).kept keep', ((m.kept keep)[i]?).isSome := by
  intro i hi
  obtain ⟨s, hs⟩ := exists_kept (mem_kept.mp hi).2
  rw [hs]
  rfl

theorem kept_originals (m : Model) (keep keep' : StateSet) :
    m.kept (originals (m.kept keep) keep') = ((m.restrict keep).kept keep').filterMap ((m.kept keep)[·]?) := by
  refine Increasing.eq_of_mem_iff (sorted_kept _ _) ?_ fun s => ?_
  · refine List.pairwise_filterMap.mpr ((sorted_kept (m.restrict keep) keep').imp fun {i j} hij s hs t ht => ?_)
    obtain ⟨hi, rfl⟩ := List.getElem?_eq_some_iff.mp hs
    obtain ⟨hj, rfl⟩ := List.getElem?_eq_some_iff.mp ht
    exact List.pairwise_iff_getElem.mp (sorted_kept m keep) i j hi hj hij
  · rw [mem_kept, mem_originals (lt_stateLimit_of_kept m keep), List.mem_filterMap]
    constructor
    · rintro ⟨⟨i, hi, hs⟩, -⟩
      exact ⟨i, mem_kept.mpr ⟨hi, lt_of_getElem?_kept hs⟩, hs⟩
    · rintro ⟨i, hi, hs⟩
      exact ⟨⟨i, (mem_kept.mp hi).1, hs⟩, lt_of_kept hs⟩

/-- Numbering anew twice is numbering anew once. -/
theorem renumber?_originals (m : Model) (keep keep' : StateSet) (s : Nat) :
    (renumber? (m.kept keep) s).bind (renumber? ((m.restrict keep).kept keep')) =
      renumber? (m.kept (originals (m.kept keep) keep')) s := by
  refine Option.ext fun k => ?_
  rw [renumber?_eq_some (nodup_kept _ _), kept_originals, getElem?_filterMap_of_isSome isSome_kept_of_kept,
    Option.bind_eq_some_iff, Option.bind_eq_some_iff]
  refine exists_congr fun i => ?_
  rw [renumber?_eq_some (nodup_kept _ _), renumber?_eq_some (nodup_kept _ _), and_comm]

theorem renumberSet_originals (hn : m.numStates < stateLimit) (keep keep' a : StateSet) :
    renumberSet ((m.restrict keep).kept keep') (renumberSet (m.kept keep) a) =
      renumberSet (m.kept (originals (m.kept keep) keep')) a := by
  have hlen : ∀ (r : Model) (keep : StateSet), r.numStates ≤ m.numStates → (r.kept keep).length ≤ stateLimit :=
    fun r keep hr => Nat.le_of_lt (Nat.lt_of_le_of_lt (Nat.le_trans (length_kept_le r keep) hr) hn)
  have hr : (m.restrict keep).numStates ≤ m.numStates := numStates_restrict ▸ length_kept_le m keep
  refine StateSet.ext fun k => ?_
  rw [mem_renumberSet (nodup_kept _ _) (hlen _ _ hr), mem_renumberSet (nodup_kept _ _) (hlen m _ (Nat.le_refl _))]
  simp only [mem_renumberSet (nodup_kept m keep) (hlen m _ (Nat.le_refl _)), kept_originals,
    getElem?_filterMap_of_isSome isSome_kept_of_kept, Option.bind_eq_some_iff]
  constructor
  · rintro ⟨i, ⟨s, hs, hi⟩, hk⟩
    exact ⟨s, hs, i, hk, hi⟩
  · rintro ⟨s, hs, i, hk, hi⟩
    exact ⟨i, ⟨s, hs, hi⟩, hk⟩

theorem keepData_originals (m : Model) (keep keep' : StateSet) (d : StateData) :
    keepData ((m.restrict keep).kept keep') (keepData (m.kept keep) d) =
      keepData (m.kept (originals (m.kept keep) keep')) d := by
  unfold keepData
  simp only [List.filterMap_filterMap, renumber?_originals]

/-- The data of the states that are left in the end. -/
theorem states_restrict_restrict (m : Model) (keep keep' : StateSet) :
    ((m.restrict keep).restrict keep').states = (m.restrict (originals (m.kept keep) keep')).states := by
  show (List.filterMap (fun i => (m.restrict keep).states[i]?.map
      (keepData ((m.restrict keep).kept keep'))) _).toArray = (List.filterMap (fun s => m.states[s]?.map
      (keepData (m.kept (originals (m.kept keep) keep')))) _).toArray
  rw [kept_originals, List.filterMap_filterMap, ← kept_originals]
  refine congrArg List.toArray (List.filterMap_congr fun i hi => ?_)
  obtain ⟨s, hs⟩ := exists_kept (mem_kept.mp hi).2
  rw [states_restrict hs, hs, Option.map_map]
  refine congrArg (Option.map · m.states[s]?) (funext fun d => ?_)
  exact keepData_originals m keep keep' d

theorem observations_restrict_restrict (m : Model) (keep keep' : StateSet) :
    ((m.restrict keep).restrict keep').observations =
      (m.restrict (originals (m.kept keep) keep')).observations := by
  have hrestrict : ∀ (r : Model) (a : StateSet), (r.restrict a).observations =
      if r.observations.isEmpty then #[] else ((r.kept a).map fun s => r.observations[s]?.getD []).toArray :=
    fun _ _ => rfl
  rw [hrestrict, hrestrict m, hrestrict m]
  cases hempty : m.observations.isEmpty with
  | true => rfl
  | false =>
    simp only [Bool.false_eq_true, if_false]
    have hmap : (m.kept (originals (m.kept keep) keep')).map (fun s => m.observations[s]?.getD []) =
        ((m.restrict keep).kept keep').map fun i =>
          ((m.kept keep).map fun s => m.observations[s]?.getD [])[i]?.getD [] := by
      rw [kept_originals, List.map_filterMap, ← List.filterMap_eq_map]
      refine List.filterMap_congr fun i hi => ?_
      obtain ⟨s, hs⟩ := exists_kept (mem_kept.mp hi).2
      simp [hs]
    split
    -- A model without states has no observations, and no state is kept of it.
    · next hnone =>
      have hkept : m.kept keep = [] := by simpa using hnone
      rw [kept_originals, hkept]
      simp
    · rw [hmap]
      simp only [List.getElem?_toArray]

/-- The states of the second restriction are those of the first one with the numbers of the model. -/
theorem restrict_restrict (hn : m.numStates < stateLimit) (keep keep' : StateSet) :
    (m.restrict keep).restrict keep' = m.restrict (originals (m.kept keep) keep') := by
  have hlabels : ((m.restrict keep).restrict keep').labels =
      (m.restrict (originals (m.kept keep) keep')).labels := by
    refine (NameMap.map_map _ _ m.labels).trans (congrArg (m.labels.map ·) (funext fun a => ?_))
    exact renumberSet_originals hn keep keep' a
  have hinitial : ((m.restrict keep).restrict keep').initial =
      (m.restrict (originals (m.kept keep) keep')).initial := renumberSet_originals hn keep keep' m.initial
  have hparts : ∀ {r r' : Model}, r.kind = r'.kind → r.variableNames = r'.variableNames → r.states = r'.states →
      r.initial = r'.initial → r.labels = r'.labels → r.observations = r'.observations → r = r' := by
    rintro ⟨⟩ ⟨⟩ rfl rfl rfl rfl rfl rfl
    rfl
  exact hparts rfl rfl (states_restrict_restrict m keep keep') hinitial hlabels
    (observations_restrict_restrict m keep keep')

/-! ## Every restriction -/

/-- A restriction is the submodel that the kept states induce: it consists of the members of the set that are states
of the model, numbered in their order, with their values, observations and initial states, the transitions between them
in the order that they had, and the labels of the model, which hold where they held before and nowhere else. Restricted
again, it is the model restricted to the states whose new numbers are kept. -/
theorem restrict_induces (m : Model) (hn : m.numStates < stateLimit) (keep : StateSet) :
    ((m.kept keep).Pairwise (· < ·) ∧ ∀ s, s ∈ m.kept keep ↔ s ∈ keep ∧ s < m.numStates) ∧
    m.Induces (m.kept keep) (m.restrict keep) ∧
    ∀ keep', (m.restrict keep).restrict keep' = m.restrict (originals (m.kept keep) keep') ∧
      ∀ s, s ∈ originals (m.kept keep) keep' ↔
        ∃ i ∈ keep', i < (m.restrict keep).numStates ∧ (m.kept keep)[i]? = some s := by
  refine ⟨⟨sorted_kept m keep, fun s => mem_kept⟩, restrict_induces_kept hn keep, fun keep' =>
    ⟨restrict_restrict hn keep keep', fun s => ?_⟩⟩
  rw [mem_originals (lt_stateLimit_of_kept m keep)]
  exact exists_congr fun i => and_congr_right fun _ => ⟨fun h => ⟨lt_of_getElem?_kept h, h⟩, fun h => h.2⟩

/-- Three states in a row with transitions back, two of them with an observation, and a label that holds in the last one
and outside. -/
def threeStates : Model :=
  { kind := .pomdp
    variableNames := ["x"]
    states := #[⟨[.int 0], [1]⟩, ⟨[.int 1], [2, 0]⟩, ⟨[.int 2], [2, 1]⟩]
    initial := .singleton 1
    labels := NameMap.insert .empty "end" (.ofList [2, 9])
    observations := #[[.int 7], [.int 8]] }

/-- The last two of the three states are kept, and of these the last. -/
theorem restrict_induces_threeStates :
    threeStates.numStates < stateLimit ∧
    (threeStates.restrict (.ofList [1, 2, 5])).successors 1 = [1, 0] ∧
    (1 ∈ (threeStates.restrict (.ofList [1, 2, 5])).successors 1 ↔ 2 ∈ threeStates.successors 2) ∧
    (threeStates.restrict (.ofList [1, 2, 5])).restrict (.ofList [1, 5]) = threeStates.restrict (.singleton 2) := by
  have hn : threeStates.numStates < stateLimit := by decide
  obtain ⟨-, hinduces, htwice⟩ := restrict_induces threeStates hn (.ofList [1, 2, 5])
  refine ⟨hn, by decide, hinduces.transition 1 1 2 2 (by decide) (by decide), ?_⟩
  rw [(htwice (.ofList [1, 5])).1]
  exact congrArg threeStates.restrict (by decide)

end Model

end Statewise
