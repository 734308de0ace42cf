import Statewise.Vector.Pointwise
import Statewise.Proofs.Running

/-!
# Entries of vectors

What `StateVector.tabulate` puts where. It succeeds if the function has a value of the wanted type in every
state of the domain, and then these values, widened to the type, are the entries there.
-/

namespace Statewise

/-! ## Values of a wanted type -/

namespace Value

theorem expectBool_eq_ok {v : Value} {b : Bool} : v.expectBool = .ok b ↔ v = .bool b := by
  cases v <;> simp [expectBool]

theorem coerce?_bool {v : Value} {w : Value} :
    v.coerce? .bool = some w ↔ ∃ b, v.expectBool = .ok b ∧ w = .bool b := by
  cases v <;> simp [coerce?, expectBool, eq_comm]

theorem coerce?_int {v : Value} {w : Value} :
    v.coerce? .int = some w ↔ ∃ n, v.expectInt = .ok n ∧ w = .int n := by
  cases v <;> simp [coerce?, expectInt, eq_comm]

theorem coerce?_double {v : Value} {w : Value} :
    v.coerce? .double = some w ↔ ∃ x, v.expectFloat = .ok x ∧ w = .double x := by
  cases v <;> simp [coerce?, expectFloat, eq_comm]

end Value

namespace StateVector

/-! ## Reading -/

/-- A vector with one value per state: it is no frontier. -/
def IsPlain (v : StateVector) (n : Nat) : Prop := v.size = n ∧ v.isFrontier = false

theorem IsPlain.valueAt {v : StateVector} {n s : Nat} (h : v.IsPlain n) (hs : s < n) :
    ∃ y, v.valueAt s = .ok y := by
  obtain ⟨hsize, hfrontier⟩ := h
  obtain ⟨entries, accuracy⟩ := v
  cases entries with
  | bools members k =>
    have : s < k := by simpa [← hsize, size] using hs
    exact ⟨_, if_pos this⟩
  | ints xs =>
    have : s < xs.size := by simpa [← hsize, size] using hs
    exact ⟨.int xs[s], by simp [StateVector.valueAt, entryAt, this, Except.map]⟩
  | doubles xs =>
    have : s < xs.size := by simpa [← hsize, size] using hs
    exact ⟨.double xs[s], by simp [StateVector.valueAt, entryAt, this, Except.map]⟩
  | frontier ps k => simp [isFrontier] at hfrontier

theorem type_of_valueAt {v : StateVector} {s : Nat} {y : Value} (h : v.valueAt s = .ok y) : y.type = v.type := by
  obtain ⟨entries, accuracy⟩ := v
  cases entries with
  | bools members k =>
    simp only [StateVector.valueAt] at h
    split at h <;> cases h
    rfl
  | ints xs =>
    obtain ⟨x, -, rfl⟩ := Yields.map_eq_ok.mp h
    rfl
  | doubles xs =>
    obtain ⟨x, -, rfl⟩ := Yields.map_eq_ok.mp h
    rfl
  | frontier ps k =>
    simp only [StateVector.valueAt] at h
    split at h <;> cases h

/-- The satisfaction set holds what the vector says about each state. -/
theorem valueAt_of_satisfaction {v : StateVector} {a : StateSet} {s : Nat} (h : v.satisfaction = .ok a)
    (hs : s < v.size) : v.valueAt s = .ok (.bool (a.contains s)) := by
  obtain ⟨entries, accuracy⟩ := v
  cases entries with
  | bools members k =>
    cases h
    exact if_pos hs
  | _ => cases h

/-- A vector with a truth value somewhere has a satisfaction set. -/
theorem satisfaction_of_valueAt {v : StateVector} {s : Nat} {b : Bool} (h : v.valueAt s = .ok (.bool b)) :
    ∃ a, v.satisfaction = .ok a := by
  have htype := type_of_valueAt h
  obtain ⟨entries, accuracy⟩ := v
  cases entries with
  | bools members k => exact ⟨members, rfl⟩
  | frontier ps k => cases htype
  | ints xs => cases htype
  | doubles xs => cases htype

/-- A constant is in every entry; only a set of all states has to fit into 32 bits. -/
theorem valueAt_constant {v : Value} {n s : Nat} (hn : v = .bool true → n < stateLimit) (hs : s < n) :
    (constant v n).valueAt s = .ok v := by
  cases v with
  | bool b =>
    have : (if b then StateSet.full n else .empty).contains s = b := by
      cases b with
      | false => rfl
      | true =>
        have hn := hn rfl
        rw [if_pos rfl, StateSet.contains_eq_decide (Nat.lt_trans hs hn)]
        simpa [StateSet.index_of_lt hn] using hs
    simp only [constant, ofSet, StateVector.valueAt, if_pos hs, this]
  | int k => simp [constant, StateVector.valueAt, entryAt, hs, Except.map]
  | double x => simp [constant, StateVector.valueAt, entryAt, hs, Except.map]

@[simp] theorem isPlain_constant (v : Value) (n : Nat) : (constant v n).IsPlain n :=
  ⟨size_constant v n, by cases v <;> rfl⟩

@[simp] theorem isPlain_ofSet (a : StateSet) (n : Nat) : (ofSet a n).IsPlain n := ⟨rfl, rfl⟩

theorem valueAt_ofSet {a : StateSet} {n s : Nat} (hs : s < n) :
    (ofSet a n).valueAt s = .ok (.bool (a.contains s)) := if_pos hs

@[simp] theorem satisfaction_ofSet (a : StateSet) (n : Nat) : (ofSet a n).satisfaction = .ok a := rfl

/-! ## Filling arrays -/

/-- The entry of a state that the list mentions, always with the same value. -/
theorem foldl_setIfInBounds_getElem? {α : Type} {entries : List (Nat × α)} {xs : Array α} {s : Nat} {x : α}
    (hs : s < xs.size) (hx : ∀ y, (s, y) ∈ entries → y = x) (hmem : (s, x) ∈ entries ∨ xs[s]? = some x) :
    (entries.foldl (fun xs e => xs.setIfInBounds e.1 e.2) xs)[s]? = some x := by
  induction entries generalizing xs with
  | nil => exact hmem.resolve_left List.not_mem_nil
  | cons e entries ih =>
    obtain ⟨i, y⟩ := e
    rw [List.foldl_cons]
    refine ih (by simpa using hs) (fun z hz => hx z (List.mem_cons_of_mem _ hz)) ?_
    by_cases hi : i = s
    -- Writing the state again writes the same value.
    · subst hi
      have hy : y = x := hx y List.mem_cons_self
      right
      rw [hy]
      simp [hs]
    · rcases hmem with hmem | hmem
      · left
        rcases List.mem_cons.mp hmem with heq | hmem
        · cases heq
          exact absurd rfl hi
        · exact hmem
      · right
        rw [Array.getElem?_setIfInBounds_ne hi]
        exact hmem

@[simp] theorem size_fill {α : Type} (size : Nat) (zero : α) (entries : List (Nat × α)) :
    (fill size zero entries).size = size := by
  unfold fill
  suffices h : ∀ xs : Array α, (entries.foldl (fun xs e => xs.setIfInBounds e.1 e.2) xs).size = xs.size by
    rw [h, Array.size_replicate]
  induction entries with
  | nil => exact fun _ => rfl
  | cons e entries ih =>
    intro xs
    rw [List.foldl_cons, ih, Array.size_setIfInBounds]

theorem fill_getElem? {α : Type} {size s : Nat} {zero x : α} {entries : List (Nat × α)} (hs : s < size)
    (hx : ∀ y, (s, y) ∈ entries → y = x) (hmem : (s, x) ∈ entries) : (fill size zero entries)[s]? = some x :=
  foldl_setIfInBounds_getElem? (by simpa using hs) hx (Or.inl hmem)

/-! ## Entries over a domain -/

variable {ε : Type}

/-- One step of a tabulation: the value of the function, taken as an entry of a real state. -/
theorem entryStep_eq_ok {α : Type} {lift : EvalError → ε} {take : Value → Except EvalError α} {size s : Nat}
    {f : Nat → Except ε Value} {e : Nat × α} :
    (do let v ← f s
        if size ≤ s then throw (lift (.lengthMismatch size (s + 1)))
        match take v with
        | .ok x => return (s, x)
        | .error e => throw (lift e)) = .ok e ↔
      e.1 = s ∧ s < size ∧ ∃ v, f s = .ok v ∧ take v = .ok e.2 := by
  rw [Yields.bind_eq_ok]
  constructor
  · rintro ⟨v, hv, h⟩
    by_cases hs : size ≤ s
    · rw [if_pos hs] at h
      cases h
    · rw [if_neg hs] at h
      cases ht : take v with
      | error e => simp [ht] at h
      | ok x =>
        simp only [ht] at h
        cases h
        exact ⟨rfl, by omega, v, hv, ht⟩
  · rintro ⟨rfl, hs, v, hv, ht⟩
    refine ⟨v, hv, ?_⟩
    rw [if_neg (by omega)]
    simp only [ht]
    rfl

theorem entriesOver_spec {α : Type} {lift : EvalError → ε} {take : Value → Except EvalError α} {size : Nat}
    {domain : Option StateSet} {f : Nat → Except ε Value} {es : List (Nat × α)}
    (h : entriesOver lift take size domain f = .ok es) :
    (∀ e ∈ es, e.1 ∈ statesOf size domain ∧ e.1 < size ∧ ∃ v, f e.1 = .ok v ∧ take v = .ok e.2) ∧
      ∀ s ∈ statesOf size domain, ∃ x, (s, x) ∈ es := by
  obtain ⟨hfrom, hto⟩ := Yields.mem_of_mapM_eq_ok h
  constructor
  · intro e he
    obtain ⟨s, hs, hstep⟩ := hfrom e he
    obtain ⟨heq, hlt, hval⟩ := entryStep_eq_ok.mp hstep
    rw [heq]
    exact ⟨hs, hlt, hval⟩
  · intro s hs
    obtain ⟨⟨i, x⟩, he, hstep⟩ := hto s hs
    obtain ⟨rfl, -, -⟩ := entryStep_eq_ok.mp hstep
    exact ⟨x, he⟩

theorem entriesOver_succeeds {α : Type} (lift : EvalError → ε) (take : Value → Except EvalError α) {size : Nat}
    {domain : Option StateSet} {f : Nat → Except ε Value}
    (h : ∀ s ∈ statesOf size domain, s < size ∧ ∃ v x, f s = .ok v ∧ take v = .ok x) :
    ∃ es, entriesOver lift take size domain f = .ok es := by
  refine Yields.exists_mapM_eq_ok.mpr fun s hs => ?_
  obtain ⟨hlt, v, x, hv, hx⟩ := h s hs
  exact ⟨(s, x), entryStep_eq_ok.mpr ⟨rfl, hlt, v, hv, hx⟩⟩

/-- Two entries of one state are equal. -/
theorem entriesOver_unique {α : Type} {lift : EvalError → ε} {take : Value → Except EvalError α} {size : Nat}
    {domain : Option StateSet} {f : Nat → Except ε Value} {es : List (Nat × α)}
    (h : entriesOver lift take size domain f = .ok es) {s : Nat} {x y : α} (hx : (s, x) ∈ es)
    (hy : (s, y) ∈ es) : y = x := by
  obtain ⟨-, -, v, hv, htx⟩ := (entriesOver_spec h).1 _ hx
  obtain ⟨-, -, w, hw, hty⟩ := (entriesOver_spec h).1 _ hy
  simp only at hv hw htx hty
  rw [hv] at hw
  cases hw
  rw [htx] at hty
  cases hty
  rfl

/-- The entry of a state of the domain in an array made from the entries. -/
theorem fill_entriesOver {α : Type} {lift : EvalError → ε} {take : Value → Except EvalError α} {size : Nat}
    {domain : Option StateSet} {f : Nat → Except ε Value} {es : List (Nat × α)} (zero : α)
    (h : entriesOver lift take size domain f = .ok es) {s : Nat} (hs : s ∈ statesOf size domain) :
    ∃ v x, f s = .ok v ∧ take v = .ok x ∧ (fill size zero es)[s]? = some x := by
  obtain ⟨x, hx⟩ := (entriesOver_spec h).2 s hs
  obtain ⟨-, hlt, v, hv, ht⟩ := (entriesOver_spec h).1 _ hx
  exact ⟨v, x, hv, ht, fill_getElem? hlt (fun y hy => entriesOver_unique h hx hy) hx⟩

/-! ## Tabulating -/

/-- An entry fails because the function fails in its state, or because its value has no place in the vector. -/
theorem entriesOver_error {α : Type} {lift : EvalError → ε} {take : Value → Except EvalError α} {size : Nat}
    {domain : Option StateSet} {f : Nat → Except ε Value} {e : ε}
    (h : entriesOver lift take size domain f = .error e) : (∃ v, e = lift v) ∨ ∃ s, f s = .error e := by
  obtain ⟨s, -, hs⟩ := Yields.exists_of_mapM_eq_error h
  rcases Yields.bind_eq_error.mp hs with hf | ⟨v, -, hrest⟩
  · exact Or.inr ⟨s, hf⟩
  · refine Or.inl ?_
    by_cases hsize : size ≤ s
    · rw [if_pos hsize] at hrest
      cases hrest
      exact ⟨_, rfl⟩
    · rw [if_neg hsize] at hrest
      cases htake : take v with
      | ok x =>
        simp only [htake] at hrest
        cases hrest
      | error e' =>
        simp only [htake] at hrest
        cases hrest
        exact ⟨e', rfl⟩

theorem tabulate_error {lift : EvalError → ε} {t : ValueType} {size : Nat} {domain : Option StateSet}
    {f : Nat → Except ε Value} {e : ε} (h : tabulate lift t size domain f = .error e) :
    (∃ v, e = lift v) ∨ ∃ s, f s = .error e := by
  cases t with
  | bool =>
    rcases Yields.bind_eq_error.mp h with h | ⟨es, -, h⟩
    · exact entriesOver_error h
    · cases h
  | int =>
    rcases Yields.bind_eq_error.mp h with h | ⟨es, -, h⟩
    · exact entriesOver_error h
    · cases h
  | double =>
    rcases Yields.bind_eq_error.mp h with h | ⟨es, -, h⟩
    · exact entriesOver_error h
    · cases h

/-- A tabulation succeeds if the function has a value of the type in every state of the domain. -/
theorem tabulate_succeeds {lift : EvalError → ε} {t : ValueType} {size : Nat} {domain : Option StateSet}
    {f : Nat → Except ε Value}
    (h : ∀ s ∈ statesOf size domain, s < size ∧ ∃ v w, f s = .ok v ∧ v.coerce? t = some w) :
    ∃ out, tabulate lift t size domain f = .ok out := by
  cases t with
  | bool =>
    obtain ⟨es, hes⟩ := entriesOver_succeeds lift Value.expectBool fun s hs => by
      obtain ⟨hlt, v, w, hv, hw⟩ := h s hs
      obtain ⟨b, hb, -⟩ := Value.coerce?_bool.mp hw
      exact ⟨hlt, v, b, hv, hb⟩
    exact ⟨_, Yields.bind_eq_ok.mpr ⟨es, hes, rfl⟩⟩
  | int =>
    obtain ⟨es, hes⟩ := entriesOver_succeeds lift Value.expectInt fun s hs => by
      obtain ⟨hlt, v, w, hv, hw⟩ := h s hs
      obtain ⟨n, hn, -⟩ := Value.coerce?_int.mp hw
      exact ⟨hlt, v, n, hv, hn⟩
    exact ⟨_, Yields.bind_eq_ok.mpr ⟨es, hes, rfl⟩⟩
  | double =>
    obtain ⟨es, hes⟩ := entriesOver_succeeds lift Value.expectFloat fun s hs => by
      obtain ⟨hlt, v, w, hv, hw⟩ := h s hs
      obtain ⟨x, hx, -⟩ := Value.coerce?_double.mp hw
      exact ⟨hlt, v, x, hv, hx⟩
    exact ⟨_, Yields.bind_eq_ok.mpr ⟨es, hes, rfl⟩⟩

/-- What a tabulation that succeeds has put where. -/
structure Tabulated (t : ValueType) (size : Nat) (domain : Option StateSet) (f : Nat → Except ε Value)
    (out : StateVector) : Prop where
  plain : out.IsPlain size
  type : out.type = t
  /-- The entries in the domain are the values of the function, widened. -/
  entry : size ≤ stateLimit → ∀ s ∈ statesOf size domain, s < size ∧
    ∃ v w, f s = .ok v ∧ v.coerce? t = some w ∧ out.valueAt s = .ok w
  /-- A vector of truth values holds in real states only. -/
  holds : ∀ a, out.satisfaction = .ok a → ∀ s ∈ a, s < size

/-- The states that a tabulation of truth values says yes to, as members of a set. -/
theorem mem_ofList_entriesOver {lift : EvalError → ε} {size : Nat} {domain : Option StateSet}
    {f : Nat → Except ε Value} {es : List (Nat × Bool)} (hlimit : size ≤ stateLimit)
    (hes : entriesOver lift Value.expectBool size domain f = .ok es) {s : Nat} {b : Bool} (hb : (s, b) ∈ es) :
    s ∈ StateSet.ofList (es.filterMap fun e => if e.2 then some e.1 else none) ↔ b = true := by
  -- Real states keep their index, so no two of them fall together in the set.
  have hindex : ∀ {i : Nat} {x : Bool}, (i, x) ∈ es → StateSet.index i = i := by
    intro i x hi
    obtain ⟨-, hlt, -⟩ := (entriesOver_spec hes).1 _ hi
    exact StateSet.index_of_lt (Nat.lt_of_lt_of_le hlt hlimit)
  rw [StateSet.mem_ofList]
  constructor
  · rintro ⟨i, hi, hs⟩
    have hi : (i, true) ∈ es := by simpa using hi
    rw [hindex hi] at hs
    subst hs
    exact (entriesOver_unique hes hb hi).symm
  · rintro rfl
    exact ⟨s, by simpa using hb, (hindex hb).symm⟩

theorem tabulate_spec {lift : EvalError → ε} {t : ValueType} {size : Nat} {domain : Option StateSet}
    {f : Nat → Except ε Value} {out : StateVector} (h : tabulate lift t size domain f = .ok out) :
    Tabulated t size domain f out := by
  cases t with
  | bool =>
    obtain ⟨es, hes, heq⟩ := Yields.bind_eq_ok.mp h
    cases heq
    obtain ⟨hfrom, hto⟩ := entriesOver_spec hes
    refine ⟨isPlain_ofSet _ _, rfl, fun hlimit s hs => ?_, fun a ha s hs => ?_⟩
    · obtain ⟨b, hb⟩ := hto s hs
      obtain ⟨-, hlt, v, hv, ht⟩ := hfrom _ hb
      refine ⟨hlt, v, .bool b, hv, Value.coerce?_bool.mpr ⟨b, ht, rfl⟩, ?_⟩
      rw [valueAt_ofSet hlt, StateSet.contains_eq_decide (Nat.lt_of_lt_of_le hlt hlimit)]
      simp only [mem_ofList_entriesOver hlimit hes hb, Bool.decide_eq_true]
    · rw [satisfaction_ofSet] at ha
      cases ha
      obtain ⟨i, hi, rfl⟩ := StateSet.mem_ofList.mp hs
      have hi : (i, true) ∈ es := by simpa using hi
      obtain ⟨-, hlt, -⟩ := hfrom _ hi
      exact Nat.lt_of_le_of_lt (Nat.mod_le _ _) hlt
  | int =>
    obtain ⟨es, hes, heq⟩ := Yields.bind_eq_ok.mp h
    cases heq
    refine ⟨⟨size_fill .., rfl⟩, rfl, ?_, fun a ha => by cases ha⟩
    intro _ s hs
    obtain ⟨v, n, hv, hn, hfill⟩ := fill_entriesOver 0 hes hs
    obtain ⟨x, hx⟩ := (entriesOver_spec hes).2 s hs
    refine ⟨((entriesOver_spec hes).1 _ hx).2.1, v, .int n, hv, Value.coerce?_int.mpr ⟨n, hn, rfl⟩, ?_⟩
    simp [StateVector.valueAt, entryAt, hfill, Except.map]
  | double =>
    obtain ⟨es, hes, heq⟩ := Yields.bind_eq_ok.mp h
    cases heq
    refine ⟨⟨size_fill .., rfl⟩, rfl, ?_, fun a ha => by cases ha⟩
    intro _ s hs
    obtain ⟨v, x, hv, hx, hfill⟩ := fill_entriesOver 0.0 hes hs
    obtain ⟨y, hy⟩ := (entriesOver_spec hes).2 s hs
    refine ⟨((entriesOver_spec hes).1 _ hy).2.1, v, .double x, hv, Value.coerce?_double.mpr ⟨x, hx, rfl⟩, ?_⟩
    simp [StateVector.valueAt, entryAt, hfill, Except.map]

theorem accuracy_tabulate {lift : EvalError → ε} {t : ValueType} {size : Nat} {domain : Option StateSet}
    {f : Nat → Except ε Value} {out : StateVector} (h : tabulate lift t size domain f = .ok out) :
    out.accuracy = none := by
  unfold tabulate at h
  split at h <;>
    · obtain ⟨entries, -, heq⟩ := Yields.bind_eq_ok.mp h
      cases heq
      rfl

/-! ## Combining vectors -/

section

variable {u v w out : StateVector} {n : Nat} {t : ValueType} {domain : Option StateSet}

theorem checkSize_of_isPlain (hv : v.IsPlain n) (hw : w.IsPlain n) : v.checkSize w = .ok () :=
  if_pos (hv.1.trans hw.1.symm)

/-- The combination of one vector state by state is a tabulation. -/
theorem map1_eq_ok {f : Value → Except EvalError Value} (hv : v.IsPlain n) :
    v.map1 t domain f = .ok out ↔
      ∃ o, tabulate id t n domain (fun s => do f (← v.valueAt s)) = .ok o ∧ o.withAccuracy v.accuracy = out := by
  unfold map1
  rw [hv.1, Yields.bind_eq_ok]
  simp only [pure, Except.pure, Except.ok.injEq]

theorem map2_eq {f : Value → Value → Except EvalError Value} (hv : v.IsPlain n) (hw : w.IsPlain n) :
    v.map2 w t domain f = tabulate id t n domain (fun s => do f (← v.valueAt s) (← w.valueAt s)) := by
  unfold map2
  rw [checkSize_of_isPlain hv hw, hv.1]
  rfl

theorem map3_eq {f : Value → Value → Value → Except EvalError Value} (hu : u.IsPlain n) (hv : v.IsPlain n)
    (hw : w.IsPlain n) :
    u.map3 v w t domain f =
      tabulate id t n domain (fun s => do f (← u.valueAt s) (← v.valueAt s) (← w.valueAt s)) := by
  unfold map3
  rw [checkSize_of_isPlain hu hv, checkSize_of_isPlain hu hw, hu.1]
  rfl

end

end StateVector

end Statewise
