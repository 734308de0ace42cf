import Statewise.Model.Restrict
import Statewise.Proofs.Shape
import Mathlib.Data.List.Perm.Subperm

/-!
# Submodels

What a restricted model says about its states. A restriction numbers the states that it keeps anew in their order, so
the state `i` of the restricted model is the `i`-th of the states that were kept, and every lookup there is a lookup of
that state in the model itself. The new numbers are below the number of states, also in labels that hold in other
indices.
-/

namespace Statewise

namespace Model

variable {m : Model} {keep : StateSet} {i s : Nat}

/-! ## The states that are kept -/

theorem mem_kept : s ∈ m.kept keep ↔ s ∈ keep ∧ s < m.numStates := by simp [kept, StateSet.mem_def]

theorem sorted_kept (m : Model) (keep : StateSet) : (m.kept keep).Pairwise (· < ·) := keep.sorted.filter _

theorem nodup_kept (m : Model) (keep : StateSet) : (m.kept keep).Nodup := (sorted_kept m keep).imp Nat.ne_of_lt

theorem lt_of_kept (h : (m.kept keep)[i]? = some s) : s < m.numStates :=
  (mem_kept.mp (List.mem_of_getElem? h)).2

theorem length_kept_le (m : Model) (keep : StateSet) : (m.kept keep).length ≤ m.numStates := by
  have hsub : m.kept keep ⊆ List.range m.numStates := fun _ hs => List.mem_range.mpr (mem_kept.mp hs).2
  simpa using ((nodup_kept m keep).subperm hsub).length_le

/-! ## New numbers -/

/-- The new number of a state is its place among those kept. -/
theorem renumber?_eq_some {old : List Nat} (hold : old.Nodup) : renumber? old s = some i ↔ old[i]? = some s := by
  unfold renumber?
  rw [List.idxOf?_eq_some_iff, List.getElem?_eq_some_iff]
  refine exists_congr fun hi => and_iff_left_of_imp fun hs j hj hjs => ?_
  have := (List.getElem_inj hold).mp (hjs.trans hs.symm)
  omega

theorem mem_renumberSet {old : List Nat} (hold : old.Nodup) (hlen : old.length ≤ stateLimit) {a : StateSet} :
    i ∈ renumberSet old a ↔ ∃ s ∈ a, old[i]? = some s := by
  have hindex : ∀ {j s : Nat}, old[j]? = some s → StateSet.index j = j := fun hj =>
    StateSet.index_of_lt (Nat.lt_of_lt_of_le (List.getElem?_eq_some_iff.mp hj).1 hlen)
  simp only [renumberSet, StateSet.mem_ofList, List.mem_filterMap, renumber?_eq_some hold]
  constructor
  · rintro ⟨j, ⟨s, hs, hj⟩, rfl⟩
    exact ⟨s, hs, (hindex hj).symm ▸ hj⟩
  · rintro ⟨s, hs, hi⟩
    exact ⟨i, ⟨s, hs, hi⟩, (hindex hi).symm⟩

/-- A state keeps what it is in under its new number. -/
theorem mem_renumberSet_kept (hn : m.numStates < stateLimit) {a : StateSet} (h : (m.kept keep)[i]? = some s) :
    i ∈ renumberSet (m.kept keep) a ↔ s ∈ a := by
  have hlen : (m.kept keep).length ≤ stateLimit := Nat.le_of_lt (Nat.lt_of_le_of_lt (length_kept_le m keep) hn)
  rw [mem_renumberSet (nodup_kept m keep) hlen, h]
  simp

theorem contains_renumberSet_kept (hn : m.numStates < stateLimit) {a : StateSet} (h : (m.kept keep)[i]? = some s) :
    (renumberSet (m.kept keep) a).contains i = a.contains s := by
  have hi : i < m.numStates := Nat.lt_of_lt_of_le (List.getElem?_eq_some_iff.mp h).1 (length_kept_le m keep)
  rw [StateSet.contains_eq_decide (Nat.lt_trans hi hn), StateSet.contains_eq_decide (Nat.lt_trans (lt_of_kept h) hn)]
  exact decide_eq_decide.mpr (mem_renumberSet_kept hn h)

/-! ## The states of the restricted model -/

/-- Where every member has an image, a list of images is looked up like the list. -/
theorem getElem?_filterMap_of_isSome {α β : Type} {f : α → Option β} {xs : List α} (h : ∀ x ∈ xs, (f x).isSome)
    (i : Nat) : (xs.filterMap f)[i]? = xs[i]?.bind f := by
  induction xs generalizing i with
  | nil => rfl
  | cons x xs ih =>
    obtain ⟨y, hy⟩ := Option.isSome_iff_exists.mp (h x List.mem_cons_self)
    rw [List.filterMap_cons_some hy]
    cases i with
    | zero => simp [hy]
    | succ i => simpa using ih (fun z hz => h z (List.mem_cons_of_mem x hz)) i

/-- The data of a state of the submodel, with its successors among the states that are kept. -/
def keepData (old : List Nat) (d : StateData) : StateData :=
  { d with successors := d.successors.filterMap (renumber? old) }

theorem isSome_data_of_kept (f : StateData → StateData) : ∀ s ∈ m.kept keep, (m.states[s]?.map f).isSome := by
  intro s hs
  have hlt : s < m.states.size := (mem_kept.mp hs).2
  simp [hlt]

@[simp] theorem numStates_restrict : (m.restrict keep).numStates = (m.kept keep).length := by
  show (List.toArray _).size = _
  rw [List.size_toArray, List.filterMap_length_eq_length]
  exact isSome_data_of_kept _

theorem exists_kept (hi : i < (m.restrict keep).numStates) : ∃ s, (m.kept keep)[i]? = some s := by
  rw [numStates_restrict] at hi
  exact ⟨_, List.getElem?_eq_getElem hi⟩

theorem lt_of_getElem?_kept (h : (m.kept keep)[i]? = some s) : i < (m.restrict keep).numStates := by
  rw [numStates_restrict]
  exact (List.getElem?_eq_some_iff.mp h).1

theorem states_restrict (h : (m.kept keep)[i]? = some s) :
    (m.restrict keep).states[i]? = m.states[s]?.map (keepData (m.kept keep)) := by
  show (List.toArray _)[i]? = _
  rw [List.getElem?_toArray, getElem?_filterMap_of_isSome (isSome_data_of_kept _), h]
  rfl

theorem value?_restrict (h : (m.kept keep)[i]? = some s) (index : Nat) :
    (m.restrict keep).value? i index = m.value? s index := by
  unfold value?
  rw [states_restrict h]
  cases m.states[s]? <;> rfl

theorem observation?_restrict (h : (m.kept keep)[i]? = some s) (index : Nat) :
    (m.restrict keep).observation? i index = m.observation? s index := by
  have hobservations : ((m.restrict keep).observations[i]?.bind (·[index]?)) =
      m.observations[s]?.bind (·[index]?) := by
    unfold restrict
    simp only
    split
    -- Without observations there are none to look up.
    · next hempty => simp [Array.isEmpty_iff.mp hempty]
    · cases hs : m.observations[s]? <;> simp [h, hs]
  unfold observation?
  rw [hobservations]
  rfl

theorem isInitial_restrict (hn : m.numStates < stateLimit) (h : (m.kept keep)[i]? = some s) :
    (m.restrict keep).isInitial i = m.isInitial s := contains_renumberSet_kept hn h

theorem labelStates?_restrict (name : String) :
    (m.restrict keep).labelStates? name = (m.labelStates? name).map (renumberSet (m.kept keep)) :=
  NameMap.get?_map _ _ _

theorem labelsInRange_restrict (hn : m.numStates < stateLimit) : (m.restrict keep).LabelsInRange := by
  intro name states hstates i hi
  rw [labelStates?_restrict] at hstates
  obtain ⟨a, -, rfl⟩ := Option.map_eq_some_iff.mp hstates
  have hlen : (m.kept keep).length ≤ stateLimit := Nat.le_of_lt (Nat.lt_of_le_of_lt (length_kept_le m keep) hn)
  obtain ⟨s, -, hs⟩ := (mem_renumberSet (nodup_kept m keep) hlen).mp hi
  exact lt_of_getElem?_kept hs

/-! ## Models whose states stand for others -/

/-- The second model says of each of its states what the first one says of the state with the old number; it carries
the same labels, and may differ in everything that leads from state to state. -/
structure Renumbers (m r : Model) (old : Nat → Nat) : Prop where
  small : m.numStates < stateLimit
  smaller : r.numStates ≤ m.numStates
  kind : r.kind = m.kind
  value : ∀ i < r.numStates, ∀ index, r.value? i index = m.value? (old i) index
  observation : ∀ i < r.numStates, ∀ index, r.observation? i index = m.observation? (old i) index
  initial : ∀ i < r.numStates, r.isInitial i = m.isInitial (old i)
  unlabelled : ∀ name, m.labelStates? name = none → r.labelStates? name = none
  label : ∀ name a, m.labelStates? name = some a → ∃ b, r.labelStates? name = some b ∧
    ∀ i < r.numStates, b.contains i = a.contains (old i)

theorem Renumbers.fewer {r : Model} {old : Nat → Nat} (h : m.Renumbers r old) : r.numStates < stateLimit :=
  Nat.lt_of_le_of_lt h.smaller h.small

/-- The place of a state in the order of those kept leads back to it. -/
def oldNumber (m : Model) (keep : StateSet) (i : Nat) : Nat := (m.kept keep).getD i 0

theorem oldNumber_eq (h : (m.kept keep)[i]? = some s) : m.oldNumber keep i = s := by
  unfold oldNumber
  rw [List.getD_eq_getElem?_getD, h]
  rfl

theorem oldNumber_mem (hi : i < (m.restrict keep).numStates) : m.oldNumber keep i ∈ m.kept keep := by
  obtain ⟨s, hs⟩ := exists_kept hi
  rw [oldNumber_eq hs]
  exact List.mem_of_getElem? hs

theorem exists_oldNumber (hs : s ∈ m.kept keep) : ∃ i < (m.restrict keep).numStates, m.oldNumber keep i = s := by
  obtain ⟨i, hi⟩ := List.getElem?_of_mem hs
  exact ⟨i, lt_of_getElem?_kept hi, oldNumber_eq hi⟩

theorem restrict_renumbers (hn : m.numStates < stateLimit) : m.Renumbers (m.restrict keep) (m.oldNumber keep) where
  small := hn
  smaller := numStates_restrict ▸ length_kept_le m keep
  kind := rfl
  value := fun i hi index => by
    obtain ⟨s, hs⟩ := exists_kept hi
    rw [oldNumber_eq hs, value?_restrict hs]
  observation := fun i hi index => by
    obtain ⟨s, hs⟩ := exists_kept hi
    rw [oldNumber_eq hs, observation?_restrict hs]
  initial := fun i hi => by
    obtain ⟨s, hs⟩ := exists_kept hi
    rw [oldNumber_eq hs, isInitial_restrict hn hs]
  unlabelled := fun name hname => by rw [labelStates?_restrict, hname]; rfl
  label := fun name a ha => by
    refine ⟨_, by rw [labelStates?_restrict, ha]; rfl, fun i hi => ?_⟩
    obtain ⟨s, hs⟩ := exists_kept hi
    rw [oldNumber_eq hs, contains_renumberSet_kept hn hs]

end Model

end Statewise
