import Statewise.Proofs.Tabulate

/-!
# Vectors computed state by state

What a computation over a domain comes to, exactly: when it succeeds, what stands in the states of the domain and in
the others, and which state says why it fails (`ComputesOver`). The pointwise combinations of vectors are such
computations, and see their operands in the states of the domain only (`combinations_exact`).
-/

namespace Statewise

/-! ## The first failure -/

theorem Yields.map_eq_error {α β ε : Type} {x : Except ε α} {f : α → β} {e : ε} :
    x.map f = .error e ↔ x = .error e := by
  cases x <;> simp [Except.map]

/-- A traversal of increasing indices fails with what the least failing one says. -/
theorem Yields.mapM_eq_error_iff {β ε : Type} {f : Nat → Except ε β} {xs : List Nat} (h : xs.Pairwise (· < ·)) {e : ε} :
    xs.mapM f = .error e ↔ ∃ x ∈ xs, f x = .error e ∧ ∀ z ∈ xs, z < x → ∃ y, f z = .ok y := by
  induction xs with
  | nil => simp [pure, Except.pure]
  | cons x xs ih =>
    obtain ⟨habove, hsorted⟩ := List.pairwise_cons.mp h
    rw [List.mapM_cons, bind_eq_error]
    constructor
    · rintro (hx | ⟨y, hy, hrest⟩)
      · refine ⟨x, List.mem_cons_self, hx, fun z hz hlt => ?_⟩
        rcases List.mem_cons.mp hz with rfl | hz
        · exact absurd hlt (Nat.lt_irrefl z)
        · exact absurd (habove z hz) (Nat.lt_asymm hlt)
      · rcases bind_eq_error.mp hrest with hxs | ⟨ys, -, hlast⟩
        · obtain ⟨w, hw, hfail, hbefore⟩ := (ih hsorted).mp hxs
          refine ⟨w, List.mem_cons_of_mem x hw, hfail, fun z hz hlt => ?_⟩
          rcases List.mem_cons.mp hz with rfl | hz
          · exact ⟨y, hy⟩
          · exact hbefore z hz hlt
        · cases hlast
    · rintro ⟨w, hw, hfail, hbefore⟩
      rcases List.mem_cons.mp hw with rfl | hw
      · exact Or.inl hfail
      · obtain ⟨y, hy⟩ := hbefore x List.mem_cons_self (habove w hw)
        have hxs := (ih hsorted).mpr ⟨w, hw, hfail, fun z hz => hbefore z (List.mem_cons_of_mem x hz)⟩
        exact Or.inr ⟨y, hy, bind_eq_error.mpr (Or.inl hxs)⟩

theorem Yields.mapM_congr {α β ε : Type} {f g : α → Except ε β} {xs : List α} (h : ∀ x ∈ xs, f x = g x) :
    xs.mapM f = xs.mapM g := by
  induction xs with
  | nil => rfl
  | cons x xs ih =>
    rw [List.mapM_cons, List.mapM_cons, h x List.mem_cons_self, ih fun z hz => h z (List.mem_cons_of_mem x hz)]

/-! ## Values that do not fit -/

namespace Value

/-- Why a value has no place in a vector of the type. -/
def misfit (v : Value) (t : ValueType) : EvalError :=
  if t = .double then .notNumeric v.type else .typeMismatch t v.type

/-- Taking a value out for storage: it is widened to the type as `coerce?` does it, or refused. -/
structure Takes {α : Type} (t : ValueType) (take : Value → Except EvalError α) (wrap : α → Value) : Prop where
  coerced : ∀ v x, take v = .ok x → v.coerce? t = some (wrap x)
  refused : ∀ v e, take v = .error e → v.coerce? t = none ∧ v.misfit t = e

theorem takes_bool : Takes .bool expectBool bool :=
  ⟨fun v x h => coerce?_bool.mpr ⟨x, h, rfl⟩, fun v e h => by cases v <;> cases h <;> exact ⟨rfl, rfl⟩⟩

theorem takes_int : Takes .int expectInt int :=
  ⟨fun v x h => coerce?_int.mpr ⟨x, h, rfl⟩, fun v e h => by cases v <;> cases h <;> exact ⟨rfl, rfl⟩⟩

theorem takes_double : Takes .double expectFloat double :=
  ⟨fun v x h => coerce?_double.mpr ⟨x, h, rfl⟩, fun v e h => by cases v <;> cases h; exact ⟨rfl, rfl⟩⟩

end Value

namespace StateVector

variable {ε α : Type} {lift : EvalError → ε} {t : ValueType} {size : Nat} {domain : Option StateSet}
  {f : Nat → Except ε Value}

theorem sorted_statesOf (size : Nat) (domain : Option StateSet) : (statesOf size domain).Pairwise (· < ·) := by
  cases domain with
  | none => exact List.pairwise_lt_range
  | some d => exact d.sorted

/-! ## The entry of one state -/

/-- The entry of one state: the value of `f` there, widened to the type. States behind the end have none. -/
def entryFor (lift : EvalError → ε) (t : ValueType) (size : Nat) (f : Nat → Except ε Value) (s : Nat) :
    Except ε Value := do
  let v ← f s
  if s < size then
    match v.coerce? t with
    | some w => .ok w
    | none => .error (lift (v.misfit t))
  else .error (lift (.lengthMismatch size (s + 1)))

/-- The step of a tabulation succeeds or fails as the entry of the state does. -/
theorem entryStep_eq_map {take : Value → Except EvalError α} {wrap : α → Value} (htake : Value.Takes t take wrap)
    (s : Nat) :
    entryFor lift t size f s =
      (do let v ← f s
          if size ≤ s then throw (lift (.lengthMismatch size (s + 1)))
          match take v with
          | .ok x => return (s, x)
          | .error e => throw (lift e) : Except ε (Nat × α)).map fun e => wrap e.2 := by
  unfold entryFor
  cases hf : f s with
  | error e => rfl
  | ok v =>
    by_cases hs : s < size
    · have hle : ¬size ≤ s := Nat.not_le.mpr hs
      cases hv : take v with
      | ok x =>
        simp only [bind, Except.bind, if_pos hs, if_neg hle, hv, htake.coerced v x hv]
        rfl
      | error e =>
        obtain ⟨hnone, hmisfit⟩ := htake.refused v e hv
        simp only [bind, Except.bind, if_pos hs, if_neg hle, hv, hnone, hmisfit]
        rfl
    · have hle : size ≤ s := Nat.not_lt.mp hs
      simp only [bind, Except.bind, if_neg hs, if_pos hle]
      rfl

/-- What a tabulation fails with is said by the least state without an entry. -/
theorem entriesOver_eq_error_iff {take : Value → Except EvalError α} {wrap : α → Value}
    (htake : Value.Takes t take wrap) {e : ε} :
    entriesOver lift take size domain f = .error e ↔
      ∃ s ∈ statesOf size domain, entryFor lift t size f s = .error e ∧
        ∀ r ∈ statesOf size domain, r < s → ∃ w, entryFor lift t size f r = .ok w := by
  unfold entriesOver
  rw [Yields.mapM_eq_error_iff (sorted_statesOf size domain)]
  simp only [entryStep_eq_map htake, Yields.map_eq_error, Yields.map_eq_ok]
  refine exists_congr fun s => and_congr_right fun _ => and_congr_right fun _ => ?_
  refine forall₃_congr fun r _ _ => ?_
  constructor
  · rintro ⟨y, hy⟩
    exact ⟨_, y, hy, rfl⟩
  · rintro ⟨w, y, hy, -⟩
    exact ⟨y, hy⟩

theorem tabulate_eq_error_iff {e : ε} :
    tabulate lift t size domain f = .error e ↔
      ∃ s ∈ statesOf size domain, entryFor lift t size f s = .error e ∧
        ∀ r ∈ statesOf size domain, r < s → ∃ w, entryFor lift t size f r = .ok w := by
  cases t with
  | bool =>
    rw [← entriesOver_eq_error_iff Value.takes_bool]
    exact Yields.map_eq_error
  | int =>
    rw [← entriesOver_eq_error_iff Value.takes_int]
    exact Yields.map_eq_error
  | double =>
    rw [← entriesOver_eq_error_iff Value.takes_double]
    exact Yields.map_eq_error

/-! ## States outside the domain -/

theorem fill_getElem?_of_not_mem {size s : Nat} {zero : α} {entries : List (Nat × α)} (hs : s < size)
    (hnot : ∀ e ∈ entries, e.1 ≠ s) : (fill size zero entries)[s]? = some zero := by
  unfold fill
  have hstart : (Array.replicate size zero)[s]? = some zero := by simp [hs]
  generalize Array.replicate size zero = xs at hstart
  induction entries generalizing xs with
  | nil => exact hstart
  | cons e entries ih =>
    rw [List.foldl_cons]
    refine ih (fun e' he' => hnot e' (List.mem_cons_of_mem e he')) _ ?_
    rw [Array.getElem?_setIfInBounds_ne (hnot e List.mem_cons_self)]
    exact hstart

/-- States outside the domain have the default of the type. -/
theorem valueAt_tabulate_outside {out : StateVector} (hlimit : size ≤ stateLimit)
    (h : tabulate lift t size domain f = .ok out) {s : Nat} (hs : s < size) (hout : s ∉ statesOf size domain) :
    out.valueAt s = .ok (.zero t) := by
  cases t with
  | bool =>
    obtain ⟨es, hes, heq⟩ := Yields.bind_eq_ok.mp h
    cases heq
    rw [valueAt_ofSet hs]
    have hnot : s ∉ StateSet.ofList (es.filterMap fun e => if e.2 then some e.1 else none) := by
      intro hmem
      obtain ⟨i, hi, hindex⟩ := StateSet.mem_ofList.mp hmem
      have hi : (i, true) ∈ es := by simpa using hi
      obtain ⟨hdomain, hlt, -⟩ := (entriesOver_spec hes).1 _ hi
      rw [StateSet.index_of_lt (Nat.lt_of_lt_of_le hlt hlimit)] at hindex
      exact hout (hindex ▸ hdomain)
    rw [StateSet.contains_eq_decide (Nat.lt_of_lt_of_le hs hlimit), decide_eq_false hnot]
    rfl
  | int =>
    obtain ⟨es, hes, heq⟩ := Yields.bind_eq_ok.mp h
    cases heq
    have hfill : (fill size 0 es)[s]? = some 0 := fill_getElem?_of_not_mem hs fun e he hes' =>
      hout (hes' ▸ ((entriesOver_spec hes).1 e he).1)
    simp only [StateVector.valueAt, entryAt, hfill]
    rfl
  | double =>
    obtain ⟨es, hes, heq⟩ := Yields.bind_eq_ok.mp h
    cases heq
    have hfill : (fill size 0.0 es)[s]? = some 0.0 := fill_getElem?_of_not_mem hs fun e he hes' =>
      hout (hes' ▸ ((entriesOver_spec hes).1 e he).1)
    simp only [StateVector.valueAt, entryAt, hfill]
    rfl

/-! ## Computations over a domain -/

/-- A vector is computed over a domain state by state: it exists exactly if every state of the domain has an entry,
and has these entries there and the default of the type elsewhere; otherwise the least state without an entry says why
there is none. -/
structure ComputesOver (lift : EvalError → ε) (t : ValueType) (size : Nat) (domain : Option StateSet)
    (f : Nat → Except ε Value) (accuracy : Option Accuracy) (result : Except ε StateVector) : Prop where
  succeeds_iff : (∃ out, result = .ok out) ↔
    ∀ s ∈ statesOf size domain, s < size ∧ ∃ v w, f s = .ok v ∧ v.coerce? t = some w
  shape : ∀ out, result = .ok out → out.type = t ∧ out.size = size ∧ out.accuracy = accuracy
  inside : ∀ out, result = .ok out → ∀ s ∈ statesOf size domain,
    ∃ v w, f s = .ok v ∧ v.coerce? t = some w ∧ out.valueAt s = .ok w
  outside : ∀ out, result = .ok out → ∀ s < size, s ∉ statesOf size domain → out.valueAt s = .ok (.zero t)
  fails_iff : ∀ e, result = .error e ↔
    ∃ s ∈ statesOf size domain, entryFor lift t size f s = .error e ∧
      ∀ r ∈ statesOf size domain, r < s → ∃ w, entryFor lift t size f r = .ok w

theorem tabulate_computesOver (hlimit : size ≤ stateLimit) :
    ComputesOver lift t size domain f none (tabulate lift t size domain f) where
  succeeds_iff := by
    constructor
    · rintro ⟨out, hout⟩ s hs
      obtain ⟨hlt, v, w, hv, hw, -⟩ := (tabulate_spec hout).entry hlimit s hs
      exact ⟨hlt, v, w, hv, hw⟩
    · exact tabulate_succeeds
  shape out hout := by
    have hspec := tabulate_spec hout
    exact ⟨hspec.type, hspec.plain.1, accuracy_tabulate hout⟩
  inside out hout s hs := ((tabulate_spec hout).entry hlimit s hs).2
  outside out hout s hs hnot := valueAt_tabulate_outside hlimit hout hs hnot
  fails_iff _ := tabulate_eq_error_iff

/-- The accuracy of the result can be set afterwards. -/
theorem ComputesOver.withAccuracy {result : Except ε StateVector}
    (h : ComputesOver lift t size domain f none result) (a : Option Accuracy) :
    ComputesOver lift t size domain f a (result.map (·.withAccuracy a)) where
  succeeds_iff := by
    rw [← h.succeeds_iff]
    simp only [Yields.map_eq_ok]
    exact ⟨fun ⟨_, o, ho, _⟩ => ⟨o, ho⟩, fun ⟨o, ho⟩ => ⟨_, o, ho, rfl⟩⟩
  shape out hout := by
    obtain ⟨o, ho, rfl⟩ := Yields.map_eq_ok.mp hout
    obtain ⟨htype, hsize, -⟩ := h.shape o ho
    exact ⟨htype, hsize, rfl⟩
  inside out hout := by
    obtain ⟨o, ho, rfl⟩ := Yields.map_eq_ok.mp hout
    exact h.inside o ho
  outside out hout := by
    obtain ⟨o, ho, rfl⟩ := Yields.map_eq_ok.mp hout
    exact h.outside o ho
  fails_iff e := Yields.map_eq_error.trans (h.fails_iff e)

/-- A tabulation depends on the function in the states of the domain only. -/
theorem tabulate_congr {g : Nat → Except ε Value} (h : ∀ s ∈ statesOf size domain, f s = g s) :
    tabulate lift t size domain f = tabulate lift t size domain g := by
  have hentries : ∀ {α : Type} (take : Value → Except EvalError α),
      entriesOver lift take size domain f = entriesOver lift take size domain g :=
    fun take => Yields.mapM_congr fun s hs => by rw [h s hs]
  cases t <;> simp only [tabulate, hentries]

/-! ## Combinations -/

section

variable {u v w u' v' w' : StateVector} {f₁ : Value → Except EvalError Value}
  {f₂ : Value → Value → Except EvalError Value} {f₃ : Value → Value → Value → Except EvalError Value}

theorem map1_eq_tabulate (hu : u.size = size) :
    u.map1 t domain f₁ =
      (tabulate id t size domain (fun s => do f₁ (← u.valueAt s))).map (·.withAccuracy u.accuracy) := by
  unfold map1
  rw [hu]
  cases tabulate id t size domain (fun s => do f₁ (← u.valueAt s)) <;> rfl

theorem map2_eq_tabulate (hu : u.size = size) (hv : v.size = size) :
    u.map2 v t domain f₂ = tabulate id t size domain (fun s => do f₂ (← u.valueAt s) (← v.valueAt s)) := by
  unfold map2
  rw [checkSize, if_pos (hu.trans hv.symm), hu]
  rfl

theorem map3_eq_tabulate (hu : u.size = size) (hv : v.size = size) (hw : w.size = size) :
    u.map3 v w t domain f₃ =
      tabulate id t size domain (fun s => do f₃ (← u.valueAt s) (← v.valueAt s) (← w.valueAt s)) := by
  unfold map3
  rw [checkSize, checkSize, if_pos (hu.trans hv.symm), if_pos (hu.trans hw.symm), hu]
  rfl

/-- A vector looks like another one from the domain: it has the same length and the same entries there. -/
structure LooksLike (size : Nat) (domain : Option StateSet) (u' u : StateVector) : Prop where
  size_eq : u'.size = size
  entry : ∀ s ∈ statesOf size domain, u'.valueAt s = u.valueAt s

/-- Tabulations and the combinations of vectors of one length are computed state by state, and no combination reads an
entry of an operand outside the domain: other entries there change nothing. -/
theorem combinations_exact (lift : EvalError → ε) (t : ValueType) (domain : Option StateSet) (f : Nat → Except ε Value)
    (f₁ : Value → Except EvalError Value) (f₂ : Value → Value → Except EvalError Value)
    (f₃ : Value → Value → Value → Except EvalError Value) (hlimit : size ≤ stateLimit) (hu : u.size = size)
    (hv : v.size = size) (hw : w.size = size) :
    ComputesOver lift t size domain f none (tabulate lift t size domain f) ∧
      ComputesOver id t size domain (fun s => do f₁ (← u.valueAt s)) u.accuracy (u.map1 t domain f₁) ∧
      ComputesOver id t size domain (fun s => do f₂ (← u.valueAt s) (← v.valueAt s)) none (u.map2 v t domain f₂) ∧
      ComputesOver id t size domain (fun s => do f₃ (← u.valueAt s) (← v.valueAt s) (← w.valueAt s)) none
        (u.map3 v w t domain f₃) ∧
      ∀ u' v' w', LooksLike size domain u' u → LooksLike size domain v' v → LooksLike size domain w' w →
        (u'.accuracy = u.accuracy → u'.map1 t domain f₁ = u.map1 t domain f₁) ∧
          u'.map2 v' t domain f₂ = u.map2 v t domain f₂ ∧
          u'.map3 v' w' t domain f₃ = u.map3 v w t domain f₃ := by
  refine ⟨tabulate_computesOver hlimit, ?_, ?_, ?_, fun u' v' w' hu' hv' hw' => ⟨fun haccuracy => ?_, ?_, ?_⟩⟩
  · rw [map1_eq_tabulate hu]
    exact (tabulate_computesOver hlimit).withAccuracy u.accuracy
  · rw [map2_eq_tabulate hu hv]
    exact tabulate_computesOver hlimit
  · rw [map3_eq_tabulate hu hv hw]
    exact tabulate_computesOver hlimit
  · rw [map1_eq_tabulate hu, map1_eq_tabulate hu'.size_eq, haccuracy]
    exact congrArg _ (tabulate_congr fun s hs => by rw [hu'.entry s hs])
  · rw [map2_eq_tabulate hu hv, map2_eq_tabulate hu'.size_eq hv'.size_eq]
    exact tabulate_congr fun s hs => by rw [hu'.entry s hs, hv'.entry s hs]
  · rw [map3_eq_tabulate hu hv hw, map3_eq_tabulate hu'.size_eq hv'.size_eq hw'.size_eq]
    exact tabulate_congr fun s hs => by rw [hu'.entry s hs, hv'.entry s hs, hw'.entry s hs]

/-- Over the states 0 and 2 the sum of two vectors does not overflow in state 1, and over all states it does. -/
theorem combinations_exact_threeStates :
    3 ≤ stateLimit ∧ (ofInts [1, 9223372036854775807, 3]).size = 3 ∧ (ofInts [4, 5, 6]).size = 3 ∧
      (∃ out, (ofInts [1, 9223372036854775807, 3]).map2 (ofInts [4, 5, 6]) .int (some (.ofList [0, 2]))
        (Value.applyBinary .plus) = .ok out ∧ out.valueAt 1 = .ok (.int 0)) ∧
      (ofInts [1, 9223372036854775807, 3]).map2 (ofInts [4, 5, 6]) .int none (Value.applyBinary .plus) =
        .error (.overflow "+") := by
  have hlimit : 3 ≤ stateLimit := by decide
  have hu : (ofInts [1, 9223372036854775807, 3]).size = 3 := rfl
  have hv : (ofInts [4, 5, 6]).size = 3 := rfl
  have hsums : ∀ domain, _ := fun domain => (combinations_exact id .int domain (fun _ => .ok (.int 0)) .ok
    (Value.applyBinary .plus) (fun x _ _ => .ok x) hlimit hu hv hu).2.2.1
  have hstates : statesOf 3 (some (.ofList [0, 2])) = [0, 2] := by decide
  refine ⟨hlimit, hu, hv, ?_, ?_⟩
  · obtain ⟨out, hout⟩ := (hsums (some (.ofList [0, 2]))).succeeds_iff.mpr fun s hs => by
      rw [hstates, List.mem_cons, List.mem_singleton] at hs
      rcases hs with rfl | rfl
      · exact ⟨by decide, .int 5, .int 5, rfl, rfl⟩
      · exact ⟨by decide, .int 9, .int 9, rfl, rfl⟩
    exact ⟨out, hout, (hsums _).outside out hout 1 (by decide) (by decide)⟩
  · refine ((hsums none).fails_iff _).mpr ⟨1, by decide, rfl, fun r _ hr => ⟨.int 5, ?_⟩⟩
    rw [Nat.lt_one_iff.mp hr]
    rfl

end

end StateVector

end Statewise
