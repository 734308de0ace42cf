import Statewise.Proofs.Extremes

/-!
# Reductions over some states

What the reductions of a vector come to that look at its values in some states only: of truth values whether they all
hold, whether one does and how many do, of integers their sum, and of any values which of them are close to another
one. The least and the greatest value are those of `Statewise.Proofs.Extremes`.
-/

namespace Statewise

open Check StateVector

/-! ## Truth values in some states -/

namespace StateVector

variable {n : Nat} {v : StateVector} {states : StateSet} {b : Nat → Bool}

/-- A vector that has truth values in some states has a satisfaction set. -/
theorem satisfaction_of_bools (hb : ∀ s ∈ states, v.valueAt s = .ok (.bool (b s))) (hne : ∃ s, s ∈ states) :
    ∃ a, v.satisfaction = .ok a ∧ ∀ s ∈ states, a.contains s = b s := by
  obtain ⟨s, hs⟩ := hne
  obtain ⟨a, ha⟩ := satisfaction_of_valueAt (hb s hs)
  obtain ⟨entries, accuracy⟩ := v
  cases entries with
  | bools members size =>
    cases ha
    refine ⟨a, rfl, fun t ht => ?_⟩
    have hval : (if t < size then Except.ok (Value.bool (a.contains t))
        else .error (EvalError.lengthMismatch size (t + 1))) = .ok (.bool (b t)) := hb t ht
    split at hval
    · exact Value.bool.inj (Except.ok.inj hval)
    · cases hval
  | _ => cases ha

theorem forAllOver_bools (hb : ∀ s ∈ states, v.valueAt s = .ok (.bool (b s))) (hne : ∃ s, s ∈ states) :
    v.forAllOver states = .ok (states.toList.all b) := by
  obtain ⟨a, ha, hab⟩ := satisfaction_of_bools hb hne
  have hall : states.subset a = states.toList.all b := by
    rw [Bool.eq_iff_iff, StateSet.subset_iff, List.all_eq_true]
    refine forall₂_congr fun s hs => ?_
    rw [← hab s hs, StateSet.contains_iff, StateSet.index_of_lt (states.bounded s hs)]
  unfold forAllOver
  rw [ha, ← hall]
  rfl

theorem existsOver_bools (hb : ∀ s ∈ states, v.valueAt s = .ok (.bool (b s))) (hne : ∃ s, s ∈ states) :
    v.existsOver states = .ok (states.toList.any b) := by
  obtain ⟨a, ha, hab⟩ := satisfaction_of_bools hb hne
  have hany : states.toList.any a.contains = states.toList.any b := by
    rw [Bool.eq_iff_iff, List.any_eq_true, List.any_eq_true]
    exact exists_congr fun s => and_congr_right fun hs => by rw [hab s hs]
  unfold existsOver
  rw [ha, ← hany]
  rfl

theorem countOver_bools (hb : ∀ s ∈ states, v.valueAt s = .ok (.bool (b s))) (hne : ∃ s, s ∈ states) :
    v.countOver states = .ok (states.toList.countP b) := by
  obtain ⟨a, ha, hab⟩ := satisfaction_of_bools hb hne
  have hcount : states.toList.countP a.contains = states.toList.countP b :=
    List.countP_congr fun s hs => by rw [hab s hs]
  unfold countOver
  rw [ha, ← hcount]
  rfl

/-- The least of truth values is their conjunction. -/
theorem HasLeast.eq_all {x : Value} (h : v.HasLeast states x) (hb : ∀ s ∈ states, v.valueAt s = .ok (.bool (b s))) :
    x = .bool (states.toList.all b) := by
  obtain ⟨s, hs, hx⟩ := h.attained
  have hxs : x = .bool (b s) := Except.ok.inj (hx.symm.trans (hb s hs))
  rw [hxs]
  refine congrArg Value.bool (Bool.eq_iff_iff.mpr ⟨fun hbs => List.all_eq_true.mpr fun t ht => ?_, fun hall => ?_⟩)
  · by_contra hbt
    exact h.least t ht _ (hb t ht) (hxs ▸ ⟨by simpa using hbt, hbs⟩)
  · exact List.all_eq_true.mp hall s hs

/-- The greatest of truth values is their disjunction. -/
theorem HasGreatest.eq_any {x : Value} (h : v.HasGreatest states x)
    (hb : ∀ s ∈ states, v.valueAt s = .ok (.bool (b s))) : x = .bool (states.toList.any b) := by
  obtain ⟨s, hs, hx⟩ := h.attained
  have hxs : x = .bool (b s) := Except.ok.inj (hx.symm.trans (hb s hs))
  rw [hxs]
  refine congrArg Value.bool (Bool.eq_iff_iff.mpr ⟨fun hbs => List.any_eq_true.mpr ⟨s, hs, hbs⟩, fun hany => ?_⟩)
  obtain ⟨t, ht, hbt⟩ := List.any_eq_true.mp hany
  by_contra hbs
  exact h.greatest t ht _ (hb t ht) (hxs ▸ ⟨by simpa using hbs, hbt⟩)

/-! ## Sums of integers -/

/-- A number of 64 bits. -/
def FitsWord (x : Int) : Prop := -9223372036854775808 ≤ x ∧ x ≤ 9223372036854775807

instance (x : Int) : Decidable (FitsWord x) :=
  inferInstanceAs (Decidable (-9223372036854775808 ≤ x ∧ x ≤ 9223372036854775807))

/-- All partial sums of a list fit, from a given start on. -/
def SumsFit (start : Int) (l : List Int) : Prop := ∀ i, FitsWord (start + (l.take i).sum)

theorem sumsFit_nil {start : Int} : SumsFit start [] ↔ FitsWord start := by
  unfold SumsFit
  simp

theorem sumsFit_cons {start x : Int} {l : List Int} :
    SumsFit start (x :: l) ↔ FitsWord start ∧ SumsFit (start + x) l := by
  constructor
  · intro h
    refine ⟨by simpa using h 0, fun i => ?_⟩
    rw [add_assoc]
    exact h (i + 1)
  · rintro ⟨hstart, hrest⟩ i
    cases i with
    | zero => simpa using hstart
    | succ i =>
      rw [List.take_succ_cons, List.sum_cons, ← add_assoc]
      exact hrest i

theorem SumsFit.sum {start : Int} {l : List Int} (h : SumsFit start l) : FitsWord (start + l.sum) := by
  have := h l.length
  rwa [List.take_length] at this

/-- Steps that add while the result fits, and fail otherwise, lead to the sum if all partial sums fit, and fail if one
does not. -/
theorem foldlM_checked {step : Int64 → Nat → Except EvalError Int64} {k : Nat → Int64} {e : EvalError} {l : List Nat}
    (hstep : ∀ s ∈ l, ∀ acc, step acc s =
      if FitsWord (acc.toInt + (k s).toInt) then .ok (.ofInt (acc.toInt + (k s).toInt)) else .error e)
    (acc : Int64) :
    (SumsFit acc.toInt (l.map fun s => (k s).toInt) →
      l.foldlM step acc = .ok (.ofInt (acc.toInt + (l.map fun s => (k s).toInt).sum))) ∧
    (¬SumsFit acc.toInt (l.map fun s => (k s).toInt) → l.foldlM step acc = .error e) := by
  induction l generalizing acc with
  | nil =>
    refine ⟨fun _ => ?_, fun hover => absurd (sumsFit_nil.mpr acc.toInt_bounds) hover⟩
    rw [List.map_nil, List.sum_nil, add_zero, Int64.ofInt_toInt]
    rfl
  | cons s l ih =>
    rw [List.foldlM_cons, hstep s List.mem_cons_self acc, List.map_cons, sumsFit_cons, List.sum_cons, ← add_assoc]
    by_cases hfit : FitsWord (acc.toInt + (k s).toInt)
    · rw [if_pos hfit]
      have hrest := ih (fun t ht => hstep t (List.mem_cons_of_mem s ht)) (.ofInt (acc.toInt + (k s).toInt))
      rw [Int64.toInt_ofInt_of_mem hfit] at hrest
      exact ⟨fun h => hrest.1 h.2, fun hover => hrest.2 fun h => hover ⟨acc.toInt_bounds, h⟩⟩
    · rw [if_neg hfit]
      refine ⟨fun h => absurd ?_ hfit, fun _ => rfl⟩
      simpa using h.2 0

/-- One step of a sum adds the entry of a state if the result fits. -/
theorem sumStep_eq {xs : Array Int64} {s : Nat} {x : Int64} (hx : rawEntry xs s = .ok x) (acc : Int64) :
    (do let x ← rawEntry xs s
        match Int64.ofIntExact? (acc.toInt + x.toInt) with
        | some n => return n
        | none => throw (EvalError.overflow "sum")) =
      if FitsWord (acc.toInt + x.toInt) then .ok (.ofInt (acc.toInt + x.toInt)) else .error (.overflow "sum") := by
  rw [hx]
  by_cases hfit : FitsWord (acc.toInt + x.toInt)
  · have hexact : Int64.ofIntExact? (acc.toInt + x.toInt) = some (.ofInt (acc.toInt + x.toInt)) := if_pos hfit
    simp only [bind, Except.bind, hexact, if_pos hfit]
    rfl
  · have hnone : Int64.ofIntExact? (acc.toInt + x.toInt) = none := if_neg hfit
    simp only [bind, Except.bind, hnone, if_neg hfit]
    rfl

/-- The sum of integers is exact if all partial sums fit, and refused if one does not. -/
theorem intSum_checked {xs : Array Int64} {k : Nat → Int64} (hxs : ∀ s ∈ states, rawEntry xs s = .ok (k s)) :
    let values := states.toList.map fun s => (k s).toInt
    (SumsFit 0 values → intSum xs states = .ok (.ofInt values.sum)) ∧
      (¬SumsFit 0 values → intSum xs states = .error (.overflow "sum")) := by
  intro values
  rw [← zero_add values.sum]
  exact foldlM_checked (fun s hs acc => sumStep_eq (hxs s hs) acc) 0

theorem sumOver_ints {k : Nat → Int64} (hk : ∀ s ∈ states, v.valueAt s = .ok (.int (k s))) (hne : ∃ s, s ∈ states)
    (hfit : ∀ i, FitsWord ((states.toList.take i).map fun s => (k s).toInt).sum) :
    ∃ total : Int64, v.sumOver states = .ok (.int total) ∧
      total.toInt = (states.toList.map fun s => (k s).toInt).sum := by
  obtain ⟨s, hs⟩ := hne
  have htype := type_of_valueAt (hk s hs)
  obtain ⟨entries, accuracy⟩ := v
  cases entries with
  | ints xs =>
    have hxs : ∀ s ∈ states, rawEntry xs s = .ok (k s) := by
      intro s hs
      obtain ⟨x, hx, heq⟩ := Yields.map_eq_ok.mp (hk s hs)
      cases heq
      unfold entryAt at hx
      unfold rawEntry
      cases hget : xs[s]? with
      | none =>
        rw [hget] at hx
        cases hx
      | some y =>
        rw [hget] at hx
        exact hx
    have hfit : SumsFit 0 (states.toList.map fun s => (k s).toInt) := fun i => by
      rw [zero_add, ← List.map_take]
      exact hfit i
    have htotal := (intSum_checked hxs).1 hfit
    refine ⟨_, by simp only [sumOver, htotal]; rfl, Int64.toInt_ofInt_of_mem ?_⟩
    rw [← zero_add (List.sum _)]
    exact hfit.sum
  | _ => cases htype

/-! ## States with a value that is close -/

/-- Values of one type can be compared for closeness. -/
theorem isClose_succeeds (t : Tolerance) {x y : Value} (h : x.type = y.type) : ∃ b, isClose t x y = .ok b := by
  cases x <;> cases y <;> first | exact ⟨_, rfl⟩ | cases h

/-- Whether a value is close to others of its type can be asked in every state. -/
theorem closeStates_succeeds {x : Value} (hentry : ∀ s ∈ states, ∃ y, v.valueAt s = .ok y ∧ x.type = y.type)
    (t : Tolerance) : ∃ found, v.closeStates x t (some states) = .ok found := by
  have hclose : ∀ s ∈ states.toList, ∃ b, (do isClose t x (← v.valueAt s)) = .ok b := by
    intro s hs
    obtain ⟨y, hy, htype⟩ := hentry s hs
    obtain ⟨b, hb⟩ := isClose_succeeds t htype
    exact ⟨b, Yields.bind_eq_ok.mpr ⟨y, hy, hb⟩⟩
  obtain ⟨ys, hys⟩ := Yields.exists_filterM_eq_ok hclose
  exact ⟨_, Yields.bind_eq_ok.mpr ⟨ys, hys, rfl⟩⟩

end StateVector

end Statewise
