import Statewise.StateSet
import Mathlib.Data.List.Nodup
import Mathlib.Data.List.Perm.Subperm
import Mathlib.Tactic.TFAE

/-!
# Full sets

Whether a set holds exactly the states of a model is found out without a look at its members: it has as many members
as the model has states, and the greatest of them is a state. That this is enough (`isFull_iff`) is the pigeonhole
principle: a list without duplicates that is as long as `0, …, n - 1` and lies within it leaves nothing out.
-/

namespace Statewise

namespace StateSet

variable {a : StateSet} {n : Nat}

/-- The last member of an increasing list is the greatest. -/
theorem lt_of_getLast? (h : a.toList.getLast?.all (· < n) = true) : ∀ s ∈ a, s < n := by
  intro s hs
  have hs : s ∈ a.toList := hs
  rcases List.eq_nil_or_concat a.toList with hnil | ⟨xs, last, hlast⟩
  · rw [hnil] at hs
    cases hs
  · rw [List.concat_eq_append] at hlast
    have hsorted := a.sorted
    rw [hlast] at h hs hsorted
    have hlt : last < n := by simpa using h
    rcases List.mem_append.mp hs with hs | hs
    · exact Nat.lt_trans ((List.pairwise_append.mp hsorted).2.2 s hs last List.mem_cons_self) hlt
    · rwa [List.mem_singleton.mp hs]

/-- A full set holds all states. -/
theorem mem_of_isFull {s : Nat} (h : a.isFull n = true) (hlt : ∀ s ∈ a, s < n) (hs : s < n) : s ∈ a := by
  simp only [isFull, Bool.and_eq_true, beq_iff_eq] at h
  have hnodup : a.toList.Nodup := a.sorted.imp Nat.ne_of_lt
  have hsub : a.toList ⊆ List.range n := fun z hz => List.mem_range.mpr (hlt z hz)
  have hlen : (List.range n).length ≤ a.toList.length := by
    rw [List.length_range]
    exact Nat.le_of_eq h.1.symm
  have hperm := (hnodup.subperm hsub).perm_of_length_le hlen
  exact hperm.mem_iff.mpr (List.mem_range.mpr hs)

/-- The test by size and greatest member finds out whether a set holds all states and nothing else. -/
theorem isFull_iff : a.isFull n = true ↔ ∀ s, s ∈ a ↔ s < n := by
  constructor
  · intro h
    have hlt : ∀ s ∈ a, s < n := lt_of_getLast? ((Bool.and_eq_true _ _).mp h).2
    exact fun s => ⟨hlt s, mem_of_isFull h hlt⟩
  · intro h
    have hrange : a.toList = List.range n :=
      Increasing.eq_of_mem_iff a.sorted List.pairwise_lt_range fun s => (h s).trans List.mem_range.symm
    unfold isFull size
    rw [hrange]
    cases n with
    | zero => rfl
    | succ n => simp [List.getLast?_range]

/-- Only one set holds in exactly the states of a model, and it is the full one unless there are too many states. -/
theorem eq_full (h : ∀ s, s ∈ a ↔ s < n) (hn : n ≠ stateLimit) : a = full n := by
  have hle : n ≤ stateLimit := by
    refine Nat.le_of_not_lt fun hlt => ?_
    exact Nat.lt_irrefl _ (a.bounded stateLimit ((h stateLimit).mpr hlt))
  exact StateSet.ext fun s => (h s).trans (mem_full_of_lt (Nat.lt_of_le_of_ne hle hn)).symm

/-- A set leaves out no state exactly if it holds all of them. -/
theorem isEmpty_complement_iff (hn : n < stateLimit) : (a.complement n).isEmpty = true ↔ ∀ s < n, s ∈ a := by
  rw [isEmpty_iff]
  refine forall_congr' fun s => ?_
  rw [mem_complement, index_of_lt hn, not_and, not_not]

/-- The test by size and greatest member is exact, in each of the three ways to say that a set is full. -/
theorem isFull_tfae (a : StateSet) {n : Nat} (hn : n < stateLimit) :
    [a.isFull n = true,
      ∀ s, s ∈ a ↔ s < n,
      a = full n,
      (∀ s ∈ a, s < n) ∧ (a.complement n).isEmpty = true].TFAE := by
  tfae_have 1 ↔ 2 := isFull_iff
  tfae_have 2 → 3 := fun h => eq_full h (Nat.ne_of_lt hn)
  tfae_have 3 → 4 := by
    rintro rfl
    exact ⟨fun s hs => (mem_full_of_lt hn).mp hs,
      (isEmpty_complement_iff hn).mpr fun s hs => (mem_full_of_lt hn).mpr hs⟩
  tfae_have 4 → 2 := by
    rintro ⟨hlt, hempty⟩ s
    exact ⟨hlt s, (isEmpty_complement_iff hn).mp hempty s⟩
  tfae_finish

/-- Three members are full for three states if the greatest is 2, and not if it is 5. -/
theorem isFull_tfae_threeStates :
    3 < stateLimit ∧ ofList [2, 0, 1] = full 3 ∧ ¬∀ s, s ∈ ofList [5, 0, 1] ↔ s < 3 := by
  have hn : 3 < stateLimit := by decide
  refine ⟨hn, ((isFull_tfae (ofList [2, 0, 1]) hn).out 0 2).mp (by decide), fun hall => ?_⟩
  have hfull : (ofList [5, 0, 1]).isFull 3 = true := ((isFull_tfae (ofList [5, 0, 1]) hn).out 0 1).mpr hall
  exact absurd hfull (by decide)

end StateSet

end Statewise
