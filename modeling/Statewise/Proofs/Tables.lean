import Statewise.Proofs.Building
import Statewise.Proofs.Entries

/-!
# Models that are changed in place

A model is kept in tables: one vector for the valuations of the states, one for their successors and one for their
observations. An operation writes to them one after the other, and if it stops halfway, what it has written stays.
Nothing in the tables says that the vectors are in step; looking up a row that a vector does not have aborts the program.

The checks stand before the writes, and no look-up behind a write can abort. So an operation that stops has written
nothing, on any tables (`change_atomic`). Tables that were built from the empty ones are those of a model, to which each
operation does what it does in place (`change_tables`). Hence the vectors stay in step, and nothing ever aborts.
-/

namespace Statewise

structure Tables where
  kind : ModelKind
  variableNames : List String
  /-- The valuation of each state. -/
  values : Array (List Value)
  initial : StateSet
  /-- The successors of each state. -/
  successors : Array (List Nat)
  labels : NameMap StateSet
  /-- The observations of the states, as far as they were given. -/
  observations : Array (List Value)

/-- Why an operation stops before its end. -/
inductive Stop where
  | refused (e : ModelError)
  /-- A row is looked up that a vector does not have. -/
  | noRow (row size : Nat)
deriving DecidableEq

/-- A computation on tables. What it has written before it stops stays written. -/
abbrev Change (α : Type) := ExceptT Stop (StateM Tables) α

/-! ## The operations -/

namespace Tables

/-- A row of a vector. -/
def row {α : Type} (rows : Array α) (i : Nat) : Except Stop α :=
  match rows[i]? with
  | some x => .ok x
  | none => .error (.noRow i rows.size)

def empty (kind : ModelKind) (names : List String) : Tables := ⟨kind, names, #[], .empty, #[], .empty, #[]⟩

/-- Refuse to go on, unless `p` holds. -/
def require (p : Prop) [Decidable p] (e : ModelError) : Change Unit := if p then pure () else throw (.refused e)

def checkState (s : Nat) : Change Unit := do
  let t ← get
  require (s < t.values.size) (.stateOutOfRange s t.values.size)

/-- The number of the new state. Its row of values is written first, and then its row of successors. -/
def addState (values : List Value) : Change Nat := do
  let t ← get
  let index := t.values.size
  require (values.length = t.variableNames.length) (.valuationArity index t.variableNames.length values.length)
  modify fun t => { t with values := t.values.push values }
  modify fun t => { t with successors := t.successors.push [] }
  return index

def addInitial (s : Nat) : Change Unit := do
  checkState s
  modify fun t => { t with initial := t.initial.insert s }

def addTransition (source target : Nat) : Change Unit := do
  checkState source
  checkState target
  let targets ← row (← get).successors source
  if ¬targets.contains target then
    modify fun t => { t with successors := t.successors.set! source (targets ++ [target]) }

/-- States so far without an observation get an empty one. -/
def padObservations : Change Unit :=
  modify fun t =>
    if t.observations.size < t.values.size then
      { t with observations := t.observations ++ Array.replicate (t.values.size - t.observations.size) [] }
    else t

/-- There has to be a row in place of which the observation is put. -/
def writeObservation (s : Nat) (observation : List Value) : Change Unit := do
  let _ ← row (← get).observations s
  modify fun t => { t with observations := t.observations.set! s observation }

def setObservation (s : Nat) (observation : List Value) : Change Unit := do
  checkState s
  padObservations
  writeObservation s observation

def addLabel (name : String) (states : StateSet) : Change Unit := do
  let t ← get
  require (¬t.labels.contains name) (.duplicateLabel name)
  modify fun t => { t with labels := t.labels.insert name states }

/-- The name that was chosen. -/
def addUniqueLabel (base : String) (states : StateSet) (defined : List String) : Change String := do
  let t ← get
  let name := Model.freshName base (t.labels.names ++ defined)
  addLabel name states
  return name

/-! ### Restrictions -/

/-- The new numbers of the states that are kept; the other states have none. -/
def newNumbers (n : Nat) (kept : List Nat) : Array (Option Nat) :=
  StateVector.fill n none (kept.zipIdx.map fun p => (p.1, some p.2))

/-- A set under the new numbers, without the states that have none. -/
def renumbered (numbers : Array (Option Nat)) (set : StateSet) : StateSet :=
  .ofList (set.toList.filterMap fun s => numbers[s]?.join)

/-- The new number of an initial state. -/
def initialNumber (t : Tables) (numbers : Array (Option Nat)) (old : Nat) : Except Stop (Option Nat) :=
  if t.initial.contains old then row numbers old else .ok none

/-- Put what `t` says of a state behind the rows of the submodel. -/
def copyState (t : Tables) (numbers : Array (Option Nat)) (out : Tables) (old : Nat) : Except Stop Tables := do
  let values ← row t.values old
  let targets ← row t.successors old
  let targets ← targets.mapM (row numbers)
  let number ← initialNumber t numbers old
  return { out with
    values := out.values.push values
    successors := out.successors.push (targets.filterMap id)
    observations :=
      if t.observations.isEmpty then out.observations else out.observations.push (t.observations[old]?.getD [])
    initial := number.elim out.initial out.initial.insert }

/-- The tables of the submodel. -/
def submodel (t : Tables) (keep : StateSet) : Except Stop Tables := do
  let kept := keep.toList.filter (· < t.values.size)
  let numbers := newNumbers t.values.size kept
  let out ← kept.foldlM (copyState t numbers) (empty t.kind t.variableNames)
  return { out with labels := t.labels.map (renumbered numbers) }

/-- The submodel takes the place of the model. -/
def restrict (keep : StateSet) : Change Unit := do
  let out ← submodel (← get) keep
  set out

end Tables

/-- What an operation does in place. -/
def Operation.change : Operation → Change Unit
  | addState values => discard (Tables.addState values)
  | addInitial s => Tables.addInitial s
  | addTransition source target => Tables.addTransition source target
  | setObservation s observation => Tables.setObservation s observation
  | addLabel name states => Tables.addLabel name states
  | addUniqueLabel base states defined => discard (Tables.addUniqueLabel base states defined)
  | restrict keep => Tables.restrict keep

namespace Change

variable {α β : Type} {x : Change α} {f : α → Change β} {t t' : Tables} {stop : Stop}

theorem bind_ok {a : α} (h : x t = (.ok a, t')) : (x >>= f) t = f a t' := by
  show ExceptT.bindCont f (x t).1 (x t).2 = _
  rw [h]
  rfl

theorem bind_error (h : x t = (.error stop, t')) : (x >>= f) t = (.error stop, t') := by
  show ExceptT.bindCont f (x t).1 (x t).2 = _
  rw [h]
  rfl

theorem get_bind (f : Tables → Change β) : (get >>= f) t = f t t := rfl

theorem modify_bind (g : Tables → Tables) (f : Unit → Change β) : (modify g >>= f) t = f () (g t) := rfl

theorem lift_bind {y : Except Stop α} {a : α} (h : y = .ok a) (f : α → Change β) : (liftM y >>= f) t = f a t := by
  rw [h]
  rfl

/-! ### What is written before a computation stops -/

/-- Whatever comes out, nothing is written. -/
def Reads (x : Change α) : Prop := ∀ t, (x t).2 = t

/-- It never stops before its end. -/
def Finishes (x : Change α) : Prop := ∀ t, ∃ a, (x t).1 = .ok a

/-- Where it stops, nothing has been written. -/
def Atomic (x : Change α) : Prop := ∀ t stop t', x t = (.error stop, t') → t' = t

theorem reads_pure (a : α) : Reads (pure a : Change α) := fun _ => rfl

theorem reads_get : Reads (get : Change Tables) := fun _ => rfl

theorem reads_throw (stop : Stop) : Reads (throw stop : Change α) := fun _ => rfl

theorem reads_lift (y : Except Stop α) : Reads (liftM y : Change α) := fun _ => rfl

theorem finishes_pure (a : α) : Finishes (pure a : Change α) := fun _ => ⟨a, rfl⟩

theorem finishes_modify (g : Tables → Tables) : Finishes (modify g : Change Unit) := fun _ => ⟨(), rfl⟩

theorem finishes_set (out : Tables) : Finishes (set out : Change Unit) := fun _ => ⟨(), rfl⟩

theorem Reads.bind (hx : Reads x) (hf : ∀ a, Reads (f a)) : Reads (x >>= f) := by
  intro t
  have ht := hx t
  rcases h : x t with ⟨stop | a, t'⟩
  · rw [h] at ht
    rw [bind_error h]
    exact ht
  · rw [h] at ht
    rw [bind_ok h, hf a t']
    exact ht

theorem Finishes.bind (hx : Finishes x) (hf : ∀ a, Finishes (f a)) : Finishes (x >>= f) := by
  intro t
  obtain ⟨a, ha⟩ := hx t
  rw [bind_ok (Prod.ext ha rfl)]
  exact hf a _

theorem Reads.atomic (hx : Reads x) : Atomic x := by
  intro t stop t' h
  have ht := hx t
  rw [h] at ht
  exact ht

theorem Finishes.atomic (hx : Finishes x) : Atomic x := by
  intro t stop t' h
  obtain ⟨a, ha⟩ := hx t
  rw [h] at ha
  cases ha

/-- First reads, then something atomic. -/
theorem Reads.bind_atomic (hx : Reads x) (hf : ∀ a, Atomic (f a)) : Atomic (x >>= f) := by
  intro t stop t' h
  have ht := hx t
  rcases hxt : x t with ⟨stop₁ | a, t₁⟩
  · rw [hxt] at ht
    rw [bind_error hxt] at h
    cases h
    exact ht
  · rw [hxt] at ht
    rw [bind_ok hxt] at h
    rw [hf a _ _ _ h]
    exact ht

/-- First something atomic, then what cannot stop. -/
theorem Atomic.bind (hx : Atomic x) (hf : ∀ a, Finishes (f a)) : Atomic (x >>= f) := by
  intro t stop t' h
  rcases hxt : x t with ⟨stop₁ | a, t₁⟩
  · rw [bind_error hxt] at h
    cases h
    exact hx _ _ _ hxt
  · rw [bind_ok hxt] at h
    obtain ⟨b, hb⟩ := hf a t₁
    rw [h] at hb
    cases hb

end Change

namespace Tables

open Change

variable {t t' : Tables}

/-! ## Operations that stop write nothing -/

theorem row_of_getElem? {α : Type} {rows : Array α} {i : Nat} {x : α} (h : rows[i]? = some x) :
    row rows i = .ok x := by
  rw [row, h]

theorem reads_require (p : Prop) [Decidable p] (e : ModelError) : Reads (require p e) := by
  unfold require
  split
  · exact reads_pure ()
  · exact reads_throw _

theorem require_bind {β : Type} {p : Prop} [Decidable p] {e : ModelError} (h : p) (f : Unit → Change β) :
    (require p e >>= f) t = f () t := by
  rw [require, if_pos h]
  rfl

theorem require_bind_not {β : Type} {p : Prop} [Decidable p] {e : ModelError} (h : ¬p) (f : Unit → Change β) :
    (require p e >>= f) t = (.error (.refused e), t) := by
  rw [require, if_neg h]
  rfl

theorem reads_checkState (s : Nat) : Reads (checkState s) := reads_get.bind fun _ => reads_require _ _

theorem checkState_of_lt {s : Nat} (h : s < t.values.size) : checkState s t = (.ok (), t) := by
  show require _ _ t = _
  rw [require, if_pos h]
  rfl

theorem checkState_of_le {s : Nat} (h : t.values.size ≤ s) :
    checkState s t = (.error (.refused (.stateOutOfRange s t.values.size)), t) := by
  show require _ _ t = _
  rw [require, if_neg (Nat.not_lt.mpr h)]
  rfl

/-- Both vectors are written to after the only check. -/
theorem addState_atomic (values : List Value) : Atomic (addState values) :=
  reads_get.bind_atomic fun _ => (reads_require _ _).bind_atomic fun _ =>
    ((finishes_modify _).bind fun _ => (finishes_modify _).bind fun _ => finishes_pure _).atomic

theorem addInitial_atomic (s : Nat) : Atomic (addInitial s) :=
  (reads_checkState s).bind_atomic fun _ => (finishes_modify _).atomic

theorem addTransition_atomic (source target : Nat) : Atomic (addTransition source target) := by
  refine (reads_checkState source).bind_atomic fun _ => (reads_checkState target).bind_atomic fun _ =>
    reads_get.bind_atomic fun t => (reads_lift _).bind_atomic fun targets => ?_
  split
  · exact (finishes_modify _).atomic
  · exact (reads_pure ()).atomic

/-- The observations of `t`, with empty ones for the states that have none. -/
def padded (t : Tables) : Array (List Value) :=
  t.observations ++ Array.replicate (t.values.size - t.observations.size) []

theorem padObservations_eq (t : Tables) : padObservations t = (.ok (), { t with observations := t.padded }) := by
  show (Except.ok (), if _ then _ else _) = _
  by_cases h : t.observations.size < t.values.size
  · rw [if_pos h]
    rfl
  · have hzero : t.values.size - t.observations.size = 0 := by omega
    rw [if_neg h, padded, hzero]
    simp

/-- The check is what makes the last write succeed: there is a row for each state then. -/
theorem setObservation_of_lt {s : Nat} (hs : s < t.values.size) (observation : List Value) :
    setObservation s observation t = (.ok (), { t with observations := t.padded.set! s observation }) := by
  have hrow : s < t.padded.size := by
    simp only [padded, Array.size_append, Array.size_replicate]
    omega
  unfold setObservation
  rw [bind_ok (checkState_of_lt hs), bind_ok (padObservations_eq t)]
  rw [writeObservation, get_bind, lift_bind (row_of_getElem? (Array.getElem?_eq_getElem hrow))]
  rfl

theorem setObservation_atomic (s : Nat) (observation : List Value) : Atomic (setObservation s observation) := by
  intro t stop t' h
  by_cases hs : s < t.values.size
  · rw [setObservation_of_lt hs] at h
    cases h
  · have hstop := checkState_of_le (Nat.not_lt.mp hs)
    rw [setObservation, bind_error hstop] at h
    cases h
    rfl

theorem addLabel_atomic (name : String) (states : StateSet) : Atomic (addLabel name states) :=
  reads_get.bind_atomic fun _ => (reads_require _ _).bind_atomic fun _ => (finishes_modify _).atomic

theorem addUniqueLabel_atomic (base : String) (states : StateSet) (defined : List String) :
    Atomic (addUniqueLabel base states defined) :=
  reads_get.bind_atomic fun _ => (addLabel_atomic _ _).bind fun _ => finishes_pure _

/-- The submodel is complete before it takes the place of the model. -/
theorem restrict_atomic (keep : StateSet) : Atomic (restrict keep) :=
  reads_get.bind_atomic fun _ => (reads_lift _).bind_atomic fun out => (finishes_set out).atomic

/-- An operation that stops leaves all tables as they were, whether they are in step or not. -/
theorem change_atomic (op : Operation) : Atomic op.change := by
  cases op with
  | addState values => exact (addState_atomic values).bind fun _ => finishes_pure _
  | addInitial s => exact addInitial_atomic s
  | addTransition source target => exact addTransition_atomic source target
  | setObservation s observation => exact setObservation_atomic s observation
  | addLabel name states => exact addLabel_atomic name states
  | addUniqueLabel base states defined => exact (addUniqueLabel_atomic base states defined).bind fun _ => finishes_pure _
  | restrict keep => exact restrict_atomic keep

end Tables

/-! ## The tables of a model -/

namespace Model

def tables (m : Model) : Tables where
  kind := m.kind
  variableNames := m.variableNames
  values := m.states.map (·.values)
  initial := m.initial
  successors := m.states.map (·.successors)
  labels := m.labels
  observations := m.observations

@[simp] theorem tables_empty (kind : ModelKind) (names : List String) :
    (empty kind names).tables = Tables.empty kind names := by
  simp [tables, empty, Tables.empty]

@[simp] theorem size_values_tables (m : Model) : m.tables.values.size = m.numStates := Array.size_map

@[simp] theorem size_successors_tables (m : Model) : m.tables.successors.size = m.numStates := Array.size_map

theorem values_tables (m : Model) (s : Nat) : m.tables.values[s]? = m.states[s]?.map (·.values) := Array.getElem?_map

theorem successors_tables (m : Model) (s : Nat) : m.tables.successors[s]? = m.states[s]?.map (·.successors) :=
  Array.getElem?_map

end Model

namespace Tables

open Change

variable {m : Model}

theorem addState_tables {values : List Value} (h : values.length = m.variableNames.length) :
    addState values m.tables = (.ok m.numStates, { m with states := m.states.push ⟨values, []⟩ }.tables) := by
  have hlength : values.length = m.tables.variableNames.length := h
  rw [addState, get_bind, require_bind hlength, modify_bind, modify_bind, m.size_values_tables]
  simp only [Model.tables, Array.map_push]
  rfl

theorem addState_tables_not {values : List Value} (h : values.length ≠ m.variableNames.length) :
    addState values m.tables =
      (.error (.refused (.valuationArity m.numStates m.variableNames.length values.length)), m.tables) := by
  have hlength : values.length ≠ m.tables.variableNames.length := h
  rw [addState, get_bind, require_bind_not hlength, m.size_values_tables]
  rfl

theorem checkState_tables {s : Nat} (hs : s < m.numStates) : checkState s m.tables = (.ok (), m.tables) :=
  checkState_of_lt (m.size_values_tables.symm ▸ hs)

theorem checkState_tables_not {s : Nat} (hs : m.numStates ≤ s) :
    checkState s m.tables = (.error (.refused (.stateOutOfRange s m.numStates)), m.tables) := by
  rw [checkState_of_le (m.size_values_tables.symm ▸ hs), m.size_values_tables]

theorem values_link (states : Array StateData) (source target : Nat) :
    (states.modify source (·.link target)).map (·.values) = states.map (·.values) := by
  apply Array.ext_getElem?
  intro i
  rw [Array.getElem?_map, Array.getElem?_map, Array.getElem?_modify]
  split
  · cases states[i]? with
    | none => rfl
    | some d => exact congrArg some (d.values_link target)
  · rfl

theorem successors_link {states : Array StateData} {source : Nat} {d : StateData} (hd : states[source]? = some d)
    (target : Nat) :
    (states.modify source (·.link target)).map (·.successors) =
      (states.map (·.successors)).set! source (d.link target).successors := by
  obtain ⟨hsource, heq⟩ := Array.getElem?_eq_some_iff.mp hd
  apply Array.ext_getElem?
  intro i
  rw [Array.set!_eq_setIfInBounds, Array.getElem?_map, Array.getElem?_modify, Array.getElem?_setIfInBounds]
  by_cases hi : source = i
  · subst hi
    simp [hsource, heq]
  · simp [hi]

theorem tables_link {source : Nat} {d : StateData} (hd : m.states[source]? = some d) (target : Nat) :
    { m with states := m.states.modify source (·.link target) }.tables =
      { m.tables with successors := m.tables.successors.set! source (d.link target).successors } := by
  unfold Model.tables
  rw [values_link, successors_link hd]

theorem addTransition_tables {source target : Nat} (hsource : source < m.numStates) (htarget : target < m.numStates) :
    addTransition source target m.tables =
      (.ok (), { m with states := m.states.modify source (·.link target) }.tables) := by
  obtain ⟨d, hd⟩ : ∃ d, m.states[source]? = some d := ⟨_, Array.getElem?_eq_getElem hsource⟩
  have hrow : m.tables.successors[source]? = some d.successors := by rw [m.successors_tables, hd]; rfl
  rw [addTransition, bind_ok (checkState_tables hsource), bind_ok (checkState_tables htarget), get_bind,
    lift_bind (row_of_getElem? hrow), tables_link hd, StateData.link]
  by_cases hold : d.successors.contains target
  · -- The row is there as it is to be.
    obtain ⟨hlt, heq⟩ := Array.getElem?_eq_some_iff.mp hrow
    rw [if_neg (not_not.mpr hold), if_pos hold, Array.set!_eq_setIfInBounds, Array.setIfInBounds, dif_pos hlt, ← heq,
      Array.set_getElem_self]
    rfl
  · rw [if_pos hold, if_neg hold]
    rfl

theorem setObservation_tables {s : Nat} (hs : s < m.numStates) (observation : List Value) :
    setObservation s observation m.tables =
      (.ok (), { m with observations :=
        (m.observations ++ Array.replicate (m.numStates - m.observations.size) []).set! s observation }.tables) := by
  rw [setObservation_of_lt (m.size_values_tables.symm ▸ hs), padded, m.size_values_tables]
  rfl

theorem addLabel_tables {name : String} (hname : m.hasLabel name = false) (states : StateSet) :
    addLabel name states m.tables = (.ok (), { m with labels := m.labels.insert name states }.tables) := by
  have hfree : ¬m.tables.labels.contains name := Bool.eq_false_iff.mp hname
  rw [addLabel, get_bind, require_bind hfree]
  rfl

theorem addLabel_tables_not {name : String} (hname : m.hasLabel name = true) (states : StateSet) :
    addLabel name states m.tables = (.error (.refused (.duplicateLabel name)), m.tables) := by
  have hold : ¬¬m.tables.labels.contains name := not_not.mpr hname
  rw [addLabel, get_bind, require_bind_not hold]

/-- The name that is chosen is free, so the label is not refused. -/
theorem addUniqueLabel_tables (m : Model) (base : String) (states : StateSet) (defined : List String) :
    ∃ name m', m.addUniqueLabel base states defined = .ok (name, m') ∧
      addUniqueLabel base states defined m.tables = (.ok name, m'.tables) := by
  obtain ⟨⟨hname, -⟩, hadd⟩ := m.addUniqueLabel_eq base states defined
  refine ⟨_, _, hadd, ?_⟩
  rw [addUniqueLabel, get_bind]
  exact bind_ok (addLabel_tables hname states)

/-! ### Restrictions -/

section

variable {keep : StateSet}

/-- A state has the number in the vector that its place among those kept gives it. -/
theorem newNumbers_getElem? {n s : Nat} {kept : List Nat} (hkept : kept.Nodup) (hs : s < n) :
    (newNumbers n kept)[s]? = some (Model.renumber? kept s) := by
  have hentry : ∀ number, (s, number) ∈ kept.zipIdx.map (fun p => (p.1, some p.2)) ↔
      ∃ i, kept[i]? = some s ∧ some i = number := by
    intro number
    simp [List.mem_zipIdx_iff_getElem?]
  cases hnumber : Model.renumber? kept s with
  | some i =>
    have hi := (Model.renumber?_eq_some hkept).mp hnumber
    refine StateVector.fill_getElem? hs (fun number hmem => ?_) ((hentry _).mpr ⟨i, hi, rfl⟩)
    obtain ⟨j, hj, rfl⟩ := (hentry number).mp hmem
    rw [← hnumber, (Model.renumber?_eq_some hkept).mpr hj]
  | none =>
    refine StateVector.fill_getElem?_of_not_mem hs fun e he heq => ?_
    obtain ⟨s', number⟩ := e
    cases heq
    obtain ⟨j, hj, -⟩ := (hentry number).mp he
    rw [(Model.renumber?_eq_some hkept).mpr hj] at hnumber
    cases hnumber

theorem renumbered_eq (a : StateSet) :
    renumbered (newNumbers m.numStates (m.kept keep)) a = Model.renumberSet (m.kept keep) a := by
  unfold renumbered Model.renumberSet
  congr 2
  funext s
  by_cases hs : s < m.numStates
  · rw [newNumbers_getElem? (m.nodup_kept keep) hs]
    rfl
  · have hnumber : (newNumbers m.numStates (m.kept keep))[s]? = none := by
      rw [Array.getElem?_eq_none_iff, newNumbers, StateVector.size_fill]
      exact Nat.not_lt.mp hs
    rw [hnumber]
    cases hkept : Model.renumber? (m.kept keep) s with
    | none => rfl
    | some i =>
      have hi := (Model.renumber?_eq_some (m.nodup_kept keep)).mp hkept
      exact absurd (Model.lt_of_kept hi) hs

/-- What the submodel says of states that are kept. -/
def copies (m : Model) (keep : StateSet) (states : List Nat) : List StateData :=
  states.filterMap fun s => m.states[s]?.map (Model.keepData (m.kept keep))

/-- The tables `out` with the rows of some more states. -/
def withCopies (m : Model) (keep : StateSet) (out : Tables) (states : List Nat) : Tables :=
  { out with
    values := out.values ++ ((copies m keep states).map (·.values)).toArray
    successors := out.successors ++ ((copies m keep states).map (·.successors)).toArray
    observations := if m.observations.isEmpty then out.observations
      else out.observations ++ (states.map fun s => m.observations[s]?.getD []).toArray
    initial := states.foldl (fun a s =>
      (if m.initial.contains s then Model.renumber? (m.kept keep) s else none).elim a a.insert) out.initial }

theorem withCopies_nil (m : Model) (keep : StateSet) (out : Tables) : withCopies m keep out [] = out := by
  simp [withCopies, copies]

theorem withCopies_append (m : Model) (keep : StateSet) (out : Tables) (xs ys : List Nat) :
    withCopies m keep (withCopies m keep out xs) ys = withCopies m keep out (xs ++ ys) := by
  simp only [withCopies, copies, List.filterMap_append, List.map_append, List.foldl_append, Array.append_assoc,
    List.append_toArray]
  by_cases hnone : m.observations.isEmpty
  · simp only [if_pos hnone]
  · simp only [if_neg hnone, Array.append_assoc, List.append_toArray]

/-- Every row that is looked up is there, since successors are states. -/
theorem copyState_tables (hm : m.WellFormed) {s : Nat} (hs : s < m.numStates) (out : Tables) :
    copyState m.tables (newNumbers m.numStates (m.kept keep)) out s = .ok (withCopies m keep out [s]) := by
  have hnumber : ∀ target < m.numStates, row (newNumbers m.numStates (m.kept keep)) target =
      .ok (Model.renumber? (m.kept keep) target) := fun target htarget =>
    row_of_getElem? (newNumbers_getElem? (m.nodup_kept keep) htarget)
  obtain ⟨d, hd, hwf⟩ := hm.states s hs
  have hvalues : row m.tables.values s = .ok d.values :=
    row_of_getElem? (by rw [m.values_tables, hd]; rfl)
  have hsuccessors : row m.tables.successors s = .ok d.successors :=
    row_of_getElem? (by rw [m.successors_tables, hd]; rfl)
  have htargets : d.successors.mapM (row (newNumbers m.numStates (m.kept keep))) =
      .ok (d.successors.map (Model.renumber? (m.kept keep))) :=
    Yields.mapM_eq_ok_map fun target htarget => hnumber target (hwf.successors target htarget)
  have hinitial : initialNumber m.tables (newNumbers m.numStates (m.kept keep)) s =
      .ok (if m.initial.contains s then Model.renumber? (m.kept keep) s else none) := by
    rw [initialNumber, hnumber s hs]
    exact (apply_ite Except.ok _ _ _).symm
  have hcopies : copies m keep [s] = [Model.keepData (m.kept keep) d] := by simp [copies, hd]
  unfold copyState
  refine Yields.bind_eq_ok.mpr ⟨_, hvalues, Yields.bind_eq_ok.mpr ⟨_, hsuccessors, ?_⟩⟩
  refine Yields.bind_eq_ok.mpr ⟨_, htargets, Yields.bind_eq_ok.mpr ⟨_, hinitial, ?_⟩⟩
  simp only [withCopies, hcopies, List.filterMap_map, Function.id_comp]
  rfl

theorem copyStates_tables (hm : m.WellFormed) (keep : StateSet) {states : List Nat} (hstates : ∀ s ∈ states, s < m.numStates)
    (out : Tables) :
    states.foldlM (copyState m.tables (newNumbers m.numStates (m.kept keep))) out =
      .ok (withCopies m keep out states) := by
  induction states generalizing out with
  | nil => exact congrArg Except.ok (withCopies_nil m keep out).symm
  | cons s rest ih =>
    obtain ⟨hs, hrest⟩ := List.forall_mem_cons.mp hstates
    rw [List.foldlM_cons, copyState_tables hm hs]
    exact (ih hrest _).trans (congrArg Except.ok (withCopies_append m keep out [s] rest))

/-- States are numbered in their order, so inserting the numbers one by one makes the set under the new numbers. -/
theorem mem_initial_withCopies {out : Tables} {states : List Nat} {z : Nat} :
    z ∈ (withCopies m keep out states).initial ↔ z ∈ out.initial ∨
      ∃ s ∈ states, m.initial.contains s ∧ ∃ i, Model.renumber? (m.kept keep) s = some i ∧ z = StateSet.index i := by
  simp only [withCopies]
  generalize out.initial = a
  induction states generalizing a with
  | nil => simp
  | cons s rest ih =>
    rw [List.foldl_cons, ih]
    cases hs : m.initial.contains s with
    | false => simp [hs]
    | true =>
      cases hnumber : Model.renumber? (m.kept keep) s with
      | none => simp [hnumber]
      | some i =>
        simp [hnumber, hs]
        tauto

theorem initial_withCopies (m : Model) (keep : StateSet) :
    (withCopies m keep (empty m.kind m.variableNames) (m.kept keep)).initial =
      Model.renumberSet (m.kept keep) m.initial := by
  ext z
  rw [mem_initial_withCopies, Model.renumberSet, StateSet.mem_ofList]
  constructor
  · rintro (hz | ⟨s, hs, hinitial, i, hi, rfl⟩)
    · exact absurd hz (StateSet.not_mem_empty z)
    · have hlimit : s < stateLimit := keep.bounded s (Model.mem_kept.mp hs).1
      rw [StateSet.contains_iff, StateSet.index_of_lt hlimit] at hinitial
      exact ⟨i, List.mem_filterMap.mpr ⟨s, hinitial, hi⟩, rfl⟩
  · rintro ⟨i, hi, rfl⟩
    obtain ⟨s, hs, hnumber⟩ := List.mem_filterMap.mp hi
    have hkept : s ∈ m.kept keep := List.mem_of_getElem? ((Model.renumber?_eq_some (m.nodup_kept keep)).mp hnumber)
    have hlimit : s < stateLimit := m.initial.bounded s hs
    refine .inr ⟨s, hkept, ?_, i, hnumber, rfl⟩
    rw [StateSet.contains_iff, StateSet.index_of_lt hlimit]
    exact hs

theorem submodel_tables (hm : m.WellFormed) (keep : StateSet) :
    submodel m.tables keep = .ok (m.restrict keep).tables := by
  have hkept : ∀ s ∈ m.kept keep, s < m.numStates := fun s hs => (Model.mem_kept.mp hs).2
  have hcopied := copyStates_tables hm keep hkept (empty m.kind m.variableNames)
  have hlabels : (m.restrict keep).labels =
      m.labels.map (renumbered (newNumbers m.numStates (m.kept keep))) := by
    rw [funext renumbered_eq]
    rfl
  unfold submodel
  rw [m.size_values_tables]
  refine Yields.bind_eq_ok.mpr ⟨_, hcopied, congrArg Except.ok ?_⟩
  simp only [Model.tables, hlabels]
  rw [Tables.mk.injEq]
  refine ⟨rfl, rfl, ?_, initial_withCopies m keep, ?_, rfl, ?_⟩
  · show #[] ++ _ = Array.map _ (List.toArray _)
    rw [Array.empty_append, List.map_toArray]
    rfl
  · show #[] ++ _ = Array.map _ (List.toArray _)
    rw [Array.empty_append, List.map_toArray]
    rfl
  · show (if m.observations.isEmpty then #[] else #[] ++ _) = _
    rw [Array.empty_append]
    rfl

theorem restrict_tables (hm : m.WellFormed) (keep : StateSet) :
    restrict keep m.tables = (.ok (), (m.restrict keep).tables) := by
  rw [restrict, get_bind, lift_bind (submodel_tables hm keep)]
  rfl

end

/-! ## Step by step -/

/-- In place, an operation does to the tables of a model what it does to the model, and stops where it refuses. -/
theorem change_tables (hm : m.WellFormed) (op : Operation) :
    (∃ m', op.apply m = .ok m' ∧ m.Changes op m' ∧ op.change m.tables = (.ok (), m'.tables)) ∨
      ∃ e, op.apply m = .error e ∧ m.Refuses op e ∧ op.change m.tables = (.error (.refused e), m.tables) := by
  rcases Model.apply_cases m op with ⟨m', hm', hchanges⟩ | ⟨e, he, hrefuses⟩
  · refine .inl ⟨m', hm', hchanges, ?_⟩
    cases hchanges with
    | addState hvalues => exact bind_ok (addState_tables hvalues)
    | addInitial hs => exact bind_ok (checkState_tables hs)
    | addTransition hsource htarget => exact addTransition_tables hsource htarget
    | setObservation hs => exact setObservation_tables hs _
    | addLabel hname => exact addLabel_tables hname _
    | addUniqueLabel =>
      obtain ⟨name, m₁, hadd, htables⟩ := addUniqueLabel_tables m _ _ _
      rw [Operation.apply, hadd] at hm'
      rw [← Except.ok.inj hm']
      exact bind_ok htables
    | restrict => exact restrict_tables hm _
  · refine .inr ⟨e, he, hrefuses, ?_⟩
    cases hrefuses with
    | addState hvalues => exact bind_error (addState_tables_not hvalues)
    | addInitial hs => exact bind_error (checkState_tables_not hs)
    | source hsource => exact bind_error (checkState_tables_not hsource)
    | target hsource htarget =>
      exact (bind_ok (checkState_tables hsource)).trans (bind_error (checkState_tables_not htarget))
    | setObservation hs => exact bind_error (checkState_tables_not hs)
    | addLabel hname => exact addLabel_tables_not hname _

theorem change_eq_ok (hm : m.WellFormed) {op : Operation} {t : Tables} (h : op.change m.tables = (.ok (), t)) :
    ∃ m', m.Changes op m' ∧ m'.tables = t := by
  rcases change_tables hm op with ⟨m', -, hchanges, hchange⟩ | ⟨e, -, -, hchange⟩
  · rw [hchange] at h
    cases h
    exact ⟨m', hchanges, rfl⟩
  · rw [hchange] at h
    cases h

/-- No row is missing. -/
theorem change_eq_error (hm : m.WellFormed) {op : Operation} {stop : Stop} {t : Tables}
    (h : op.change m.tables = (.error stop, t)) : ∃ e, stop = .refused e ∧ m.Refuses op e := by
  rcases change_tables hm op with ⟨m', -, -, hchange⟩ | ⟨e, -, hrefuses, hchange⟩
  · rw [hchange] at h
    cases h
  · rw [hchange] at h
    cases h
    exact ⟨e, rfl, hrefuses⟩

theorem change_of_apply {m' : Model} (hm : m.WellFormed) {op : Operation} (h : op.apply m = .ok m') :
    m.Changes op m' ∧ op.change m.tables = (.ok (), m'.tables) := by
  rcases change_tables hm op with ⟨m₁, happly, hchanges, hchange⟩ | ⟨e, happly, -, -⟩
  · rw [h] at happly
    cases happly
    exact ⟨hchanges, hchange⟩
  · rw [h] at happly
    cases happly

/-- An operation is refused in place exactly if the model refuses it. -/
theorem change_eq_refused_iff (hm : m.WellFormed) (op : Operation) (e : ModelError) :
    op.change m.tables = (.error (.refused e), m.tables) ↔ m.Refuses op e := by
  constructor
  · intro h
    obtain ⟨e', heq, hrefuses⟩ := change_eq_error hm h
    cases heq
    exact hrefuses
  · intro h
    have happly := Model.apply_eq_error_iff.mpr h
    rcases change_tables hm op with ⟨m', hok, -, -⟩ | ⟨e', herror, -, hchange⟩
    · rw [happly] at hok
      cases hok
    · rw [happly] at herror
      cases herror
      exact hchange

/-! ## Whatever was done before -/

/-- The vectors are in step: each state has a value for each variable and one row of successors, which are states and
are listed once. Initial states are states, and there are no more observations than states. -/
structure WellFormed (t : Tables) : Prop where
  values : ∀ row ∈ t.values, row.length = t.variableNames.length
  inStep : t.successors.size = t.values.size
  successors : ∀ row ∈ t.successors, (∀ target ∈ row, target < t.values.size) ∧ row.Nodup
  initial : ∀ s ∈ t.initial, s < t.values.size
  observations : t.observations.size ≤ t.values.size

/-- The second tables have all that the first ones have: each valuation and each transition at its place, the initial
states and the labels. -/
structure Extends (t t' : Tables) : Prop where
  kind : t'.kind = t.kind
  variableNames : t'.variableNames = t.variableNames
  values : ∀ (s : Nat) (row : List Value), t.values[s]? = some row → t'.values[s]? = some row
  successors : ∀ (s : Nat) (row : List Nat), t.successors[s]? = some row →
    ∃ row' : List Nat, t'.successors[s]? = some row' ∧ row <+: row'
  initial : ∀ s ∈ t.initial, s ∈ t'.initial
  labels : ∀ name a, t.labels.get? name = some a → t'.labels.get? name = some a

theorem wellFormed_tables (hm : m.WellFormed) : m.tables.WellFormed := by
  have hdata : ∀ d ∈ m.states, d.WellFormed m.variableNames.length m.numStates := by
    intro d hd
    obtain ⟨s, hs⟩ := Array.mem_iff_getElem?.mp hd
    obtain ⟨hlt, -⟩ := Array.getElem?_eq_some_iff.mp hs
    obtain ⟨d', hd', hwf⟩ := hm.states s hlt
    rw [hs] at hd'
    cases hd'
    exact hwf
  refine ⟨fun row hrow => ?_, ?_, fun row hrow => ?_, ?_, ?_⟩
  · obtain ⟨d, hd, rfl⟩ := Array.mem_map.mp hrow
    exact (hdata d hd).values
  · rw [m.size_successors_tables, m.size_values_tables]
  · obtain ⟨d, hd, rfl⟩ := Array.mem_map.mp hrow
    rw [m.size_values_tables]
    exact ⟨(hdata d hd).successors, (hdata d hd).nodup⟩
  · rw [m.size_values_tables]
    exact hm.initial
  · rw [m.size_values_tables]
    exact hm.observations

theorem extends_tables {m' : Model} (h : m.Extends m') : m.tables.Extends m'.tables := by
  refine ⟨h.kind, h.variableNames, fun s row hrow => ?_, fun s row hrow => ?_, h.initial, h.labels⟩
  · rw [m.values_tables] at hrow
    obtain ⟨d, hd, rfl⟩ := Option.map_eq_some_iff.mp hrow
    obtain ⟨d', hd', hvalues, -⟩ := h.states s d hd
    rw [m'.values_tables, hd', ← hvalues]
    rfl
  · rw [m.successors_tables] at hrow
    obtain ⟨d, hd, rfl⟩ := Option.map_eq_some_iff.mp hrow
    obtain ⟨d', hd', -, hprefix⟩ := h.states s d hd
    exact ⟨d'.successors, by rw [m'.successors_tables, hd']; rfl, hprefix⟩

/-- One operation after the other, on what the one before it has left. -/
def performAll (ops : List Operation) (t : Tables) : Tables := ops.foldl (fun t op => (op.change t).2) t

theorem performAll_tables (hm : m.WellFormed) (ops : List Operation) :
    ∃ m', m'.tables = performAll ops m.tables ∧ m'.WellFormed ∧
      (m'.kind = m.kind ∧ m'.variableNames = m.variableNames) ∧ ((∀ op ∈ ops, op.Adds) → m.Extends m') := by
  induction ops generalizing m with
  | nil => exact ⟨m, rfl, hm, ⟨rfl, rfl⟩, fun _ => .refl m⟩
  | cons op rest ih =>
    rcases change_tables hm op with ⟨m₁, -, hchanges, hchange⟩ | ⟨e, -, -, hchange⟩
    · obtain ⟨m', hm', hwf, ⟨hkind, hnames⟩, hextends⟩ := ih (hchanges.wellFormed hm)
      refine ⟨m', ?_, hwf, ⟨hkind.trans hchanges.kind_eq.1, hnames.trans hchanges.kind_eq.2⟩, fun hadds => ?_⟩
      · rw [hm', performAll, performAll, List.foldl_cons, hchange]
      · obtain ⟨hop, hrest⟩ := List.forall_mem_cons.mp hadds
        exact (hchanges.extends hop).trans (hextends hrest)
    · obtain ⟨m', hm', hwf, hkind, hextends⟩ := ih hm
      refine ⟨m', ?_, hwf, hkind, fun hadds => hextends (List.forall_mem_cons.mp hadds).2⟩
      rw [hm', performAll, performAll, List.foldl_cons, hchange]

/-- Whatever has been done to empty tables, they are well-formed over their variables. An operation that fails on them
leaves them exactly as they are, and it fails since it is refused: nothing is looked up that is not there. One that
succeeds leaves them well-formed, and nothing but a restriction takes away a state, a value, a transition, an initial
state or a label. They are the tables of a model that refuses the same operations, for the same reasons, and is changed
in the same way by the others. -/
theorem performAll_sound {kind : ModelKind} {names : List String} {before : List Operation} {t : Tables}
    (ht : performAll before (empty kind names) = t) :
    (t.WellFormed ∧ t.kind = kind ∧ t.variableNames = names) ∧
    (∀ (op : Operation) stop t', op.change t = (.error stop, t') → t' = t ∧ ∃ e, stop = .refused e) ∧
    (∀ (op : Operation) t', op.change t = (.ok (), t') → t'.WellFormed ∧ (op.Adds → t.Extends t')) ∧
    (∀ after, (∀ op ∈ after, op.Adds) → t.Extends (performAll after t)) ∧
    ∃ m : Model, m.tables = t ∧
      (∀ op e, op.change t = (.error (.refused e), t) ↔ m.Refuses op e) ∧
      (∀ op e, op.apply m = .error e ↔ m.Refuses op e) ∧
      ∀ op m', op.apply m = .ok m' → m.Changes op m' ∧ op.change t = (.ok (), m'.tables) := by
  obtain ⟨m, hm, hwf, ⟨hkind, hnames⟩, -⟩ := performAll_tables (Model.wellFormed_empty kind names) before
  have htables : m.tables = t := by rw [hm, Model.tables_empty, ht]
  subst htables
  refine ⟨⟨wellFormed_tables hwf, hkind, hnames⟩, fun op stop t' h => ⟨change_atomic op _ _ _ h, ?_⟩, fun op t' h => ?_,
    fun after hafter => ?_, m, rfl, change_eq_refused_iff hwf, fun op e => Model.apply_eq_error_iff,
    fun op m' => change_of_apply hwf⟩
  · obtain ⟨e, he, -⟩ := change_eq_error hwf h
    exact ⟨e, he⟩
  · obtain ⟨m', hchanges, rfl⟩ := change_eq_ok hwf h
    exact ⟨wellFormed_tables (hchanges.wellFormed hwf), fun hop => extends_tables (hchanges.extends hop)⟩
  · obtain ⟨m', hm', -, -, hextends⟩ := performAll_tables hwf after
    rw [← hm']
    exact extends_tables (hextends hafter)

/-- Two states, of which the second leads to the first, and a transition to a third one that there is not: it is
refused after the first of its two states has been found, and a label that is added then keeps the other transition. -/
theorem performAll_sound_twoStates :
    let t := performAll [.addState [.int 0], .addState [.int 1], .addTransition 1 0] (empty .dtmc ["x"])
    (t.successors.size = t.values.size ∧ ((Operation.addTransition 0 2).change t).2 = t) ∧
      ∃ row : List Nat, (performAll [.addLabel "a" .empty] t).successors[1]? = some row ∧ 0 ∈ row := by
  intro t
  obtain ⟨⟨hwf, -⟩, hfails, -, hkeeps, -⟩ := performAll_sound (t := t) rfl
  have herror : (Operation.addTransition 0 2).change t = (.error (.refused (.stateOutOfRange 2 2)), t) := rfl
  obtain ⟨row, hrow, hprefix⟩ :=
    (hkeeps [.addLabel "a" .empty] (by simp [Operation.Adds])).successors 1 [0] rfl
  exact ⟨⟨hwf.inStep, (hfails _ _ _ (Prod.ext (congrArg Prod.fst herror) rfl)).1⟩, row, hrow,
    hprefix.subset List.mem_cons_self⟩

end Tables

end Statewise
