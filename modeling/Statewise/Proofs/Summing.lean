import Statewise.Proofs.Reductions

/-!
# Sums of integers and the numbering of states

A sum over some states adds their values from the least state to the greatest and is refused as soon as a partial sum
leaves the 64 bits. Hence the numbering of the states matters: it cannot change the sum, but whether there is one
(`sumOver_renumbered`). Partial sums stay between the sum of the negative values and the sum of the positive ones, so
if both fit, every numbering gives the sum. If one of them does not, the numbering that takes these values first is
refused, while some other numbering gives the sum whenever it fits: there is always a value next that keeps the partial
sum within the bounds.
-/

namespace Statewise

namespace StateVector

/-! ## Orders of the same numbers -/

/-- The sum of the numbers below zero. -/
def negatives (l : List Int) : Int := (l.filter (· < 0)).sum

/-- The sum of the numbers above zero. -/
def positives (l : List Int) : Int := (l.filter (0 < ·)).sum

theorem negatives_perm {l l' : List Int} (h : l.Perm l') : negatives l = negatives l' := (h.filter _).sum_eq

theorem positives_perm {l l' : List Int} (h : l.Perm l') : positives l = positives l' := (h.filter _).sum_eq

theorem negatives_cons (x : Int) (l : List Int) : negatives (x :: l) = min x 0 + negatives l := by
  unfold negatives
  rw [List.filter_cons]
  split
  · next h => rw [List.sum_cons, min_eq_left (of_decide_eq_true h).le]
  · next h => rw [min_eq_right (not_lt.mp (of_decide_eq_false (Bool.eq_false_of_not_eq_true h))), zero_add]

theorem positives_cons (x : Int) (l : List Int) : positives (x :: l) = max x 0 + positives l := by
  unfold positives
  rw [List.filter_cons]
  split
  · next h => rw [List.sum_cons, max_eq_left (of_decide_eq_true h).le]
  · next h => rw [max_eq_right (not_lt.mp (of_decide_eq_false (Bool.eq_false_of_not_eq_true h))), zero_add]

/-- Whatever numbers are left out, the sum lies between those of the negative and of the positive ones. -/
theorem sum_bounds_of_sublist {l' l : List Int} (h : l'.Sublist l) : negatives l ≤ l'.sum ∧ l'.sum ≤ positives l := by
  induction h with
  | slnil => exact ⟨le_rfl, le_rfl⟩
  | cons x _ ih =>
    rw [negatives_cons, positives_cons]
    omega
  | cons_cons x _ ih =>
    rw [negatives_cons, positives_cons, List.sum_cons]
    omega

theorem sumsFit_of_parts {l : List Int} (hneg : FitsWord (negatives l)) (hpos : FitsWord (positives l)) :
    SumsFit 0 l := by
  intro i
  obtain ⟨hlow, hhigh⟩ := sum_bounds_of_sublist (List.take_sublist i l)
  unfold FitsWord at *
  omega

/-- Numbers whose sum does not fit can come first. -/
theorem exists_order_overflows {g : Nat → Int} {L : List Nat} {p : Int → Bool}
    (hover : ¬FitsWord ((L.map g).filter p).sum) : ∃ L', L.Perm L' ∧ ¬SumsFit 0 (L'.map g) := by
  refine ⟨_, (List.filter_append_perm (p ∘ g) L).symm, fun hfit => hover ?_⟩
  have htake := hfit (L.filter (p ∘ g)).length
  rwa [List.map_append, List.take_left' (List.length_map g), zero_add, ← List.filter_map] at htake

/-- As long as the whole sum fits, there is a number that can come next. -/
theorem exists_next {acc : Int} {l : List Int} (hne : l ≠ []) (hacc : FitsWord acc) (hl : ∀ x ∈ l, FitsWord x)
    (hsum : FitsWord (acc + l.sum)) : ∃ x ∈ l, FitsWord (acc + x) := by
  by_contra hnone
  have hover : ∀ x ∈ l, ¬FitsWord (acc + x) := fun x hx hfit => hnone ⟨x, hx, hfit⟩
  obtain ⟨x, hx⟩ := List.exists_mem_of_ne_nil l hne
  have hxover := hover x hx
  have hxfit := hl x hx
  unfold FitsWord at *
  rcases le_or_gt 0 acc with hsign | hsign
  -- All numbers lead above the greatest word, so they are positive, and the sum is at least each of them.
  · have hpos : ∀ y ∈ l, 0 ≤ y := fun y hy => by
      have := hover y hy
      have := hl y hy
      omega
    have hle : x ≤ l.sum := List.single_le_sum hpos x hx
    omega
  -- All numbers lead below the least word.
  · have hneg : ∀ y ∈ l.erase x, y ≤ 0 := fun y hy => by
      have := hover y (List.mem_of_mem_erase hy)
      have := hl y (List.mem_of_mem_erase hy)
      omega
    have hrest : (l.erase x).sum ≤ 0 := (List.sum_le_card_nsmul _ 0 hneg).trans_eq (nsmul_zero _)
    have hsplit := List.sum_erase hx
    omega

/-- If the whole sum fits, then in some order all partial sums do. -/
theorem exists_order_fits {g : Nat → Int} {n : Nat} {L : List Nat} (hn : L.length = n) {acc : Int}
    (hacc : FitsWord acc) (hg : ∀ s ∈ L, FitsWord (g s)) (hsum : FitsWord (acc + (L.map g).sum)) :
    ∃ L', L.Perm L' ∧ SumsFit acc (L'.map g) := by
  induction n generalizing L acc with
  | zero =>
    obtain rfl := List.length_eq_zero_iff.mp hn
    exact ⟨[], .nil, sumsFit_nil.mpr hacc⟩
  | succ n ih =>
    have hne : L.map g ≠ [] := by
      intro hnil
      rw [List.map_eq_nil_iff.mp hnil] at hn
      cases hn
    have hvalues : ∀ x ∈ L.map g, FitsWord x := by
      intro x hx
      obtain ⟨s, hs, rfl⟩ := List.mem_map.mp hx
      exact hg s hs
    obtain ⟨x, hx, hnext⟩ := exists_next hne hacc hvalues hsum
    obtain ⟨s, hs, rfl⟩ := List.mem_map.mp hx
    have hfirst : L.Perm (s :: L.erase s) := List.perm_cons_erase hs
    have hrest : FitsWord (acc + g s + ((L.erase s).map g).sum) := by
      rwa [(hfirst.map g).sum_eq, List.map_cons, List.sum_cons, ← add_assoc] at hsum
    have hlength : (L.erase s).length = n := by
      rw [List.length_erase_of_mem hs, hn]
      rfl
    obtain ⟨L', hperm, hfit⟩ := ih hlength hnext (fun t ht => hg t (List.mem_of_mem_erase ht)) hrest
    exact ⟨s :: L', hfirst.trans (hperm.cons s), sumsFit_cons.mpr ⟨hacc, hfit⟩⟩

/-! ## Numberings -/

/-- Every order of states is that of some numbering, which leaves other states alone. -/
theorem exists_numbering {L L' : List Nat} (h : L.Perm L') (hnodup : L.Nodup) :
    ∃ σ : Equiv.Perm Nat, L.map σ = L' ∧ ∀ s, s ∉ L → σ s = s := by
  induction h with
  | nil => exact ⟨.refl Nat, rfl, fun _ _ => rfl⟩
  | cons x _ ih =>
    obtain ⟨hx, hrest⟩ := List.nodup_cons.mp hnodup
    obtain ⟨σ, hmap, hfix⟩ := ih hrest
    refine ⟨σ, ?_, fun s hs => hfix s fun hmem => hs (List.mem_cons_of_mem x hmem)⟩
    rw [List.map_cons, hmap, hfix x hx]
  | swap x y l =>
    obtain ⟨hy, hrest⟩ := List.nodup_cons.mp hnodup
    obtain ⟨hx, -⟩ := List.nodup_cons.mp hrest
    refine ⟨Equiv.swap y x, ?_, fun s hs => ?_⟩
    · have hl : l.map (Equiv.swap y x) = l := by
        refine (List.map_congr_left fun s hs => ?_).trans (List.map_id l)
        exact Equiv.swap_apply_of_ne_of_ne (fun h => hy (h ▸ List.mem_cons_of_mem x hs)) fun h => hx (h ▸ hs)
      rw [List.map_cons, List.map_cons, hl, Equiv.swap_apply_left, Equiv.swap_apply_right]
    · simp only [List.mem_cons, not_or] at hs
      exact Equiv.swap_apply_of_ne_of_ne hs.1 hs.2.1
  | trans h₁ _ ih₁ ih₂ =>
    obtain ⟨σ, hσ, hσfix⟩ := ih₁ hnodup
    obtain ⟨τ, hτ, hτfix⟩ := ih₂ (h₁.nodup_iff.mp hnodup)
    refine ⟨σ.trans τ, ?_, fun s hs => ?_⟩
    · rw [Equiv.coe_trans, ← List.map_map, hσ, hτ]
    · rw [Equiv.trans_apply, hσfix s hs, hτfix s fun hmem => hs (h₁.mem_iff.mpr hmem)]

/-- Another numbering of the states of a vector, of which some are selected: what is state `s` now was state `σ s`. -/
structure Renumbered (σ : Equiv.Perm Nat) (xs ys : Array Int64) (states states' : StateSet) : Prop where
  value : ∀ s, ys[s]? = xs[σ s]?
  selected : ∀ s, s ∈ states' ↔ σ s ∈ states

/-! ## The sum of a vector -/

section

variable {xs ys : Array Int64} {states states' : StateSet} {accuracy : Option Accuracy} {σ : Equiv.Perm Nat}

/-- The integers in some states, in increasing order of the states. -/
def intsIn (xs : Array Int64) (states : StateSet) : List Int := states.toList.map fun s => (xs.getD s 0).toInt

theorem nodup_toList (states : StateSet) : states.toList.Nodup := states.sorted.imp Nat.ne_of_lt

theorem Renumbered.lt (h : Renumbered σ xs ys states states') (hlt : ∀ s ∈ states, s < xs.size) :
    ∀ s ∈ states', s < ys.size := by
  intro s hs
  have hvalue := h.value s
  rw [Array.getElem?_eq_getElem (hlt (σ s) ((h.selected s).mp hs))] at hvalue
  exact (Array.getElem?_eq_some_iff.mp hvalue).1

/-- A numbering only reorders the integers that are summed up. -/
theorem Renumbered.intsIn_perm (h : Renumbered σ xs ys states states') :
    (intsIn ys states').Perm (intsIn xs states) := by
  have hperm : (states'.toList.map σ).Perm states.toList := by
    refine (List.perm_ext_iff_of_nodup ((nodup_toList states').map σ.injective) (nodup_toList states)).mpr fun t => ?_
    rw [List.mem_map]
    constructor
    · rintro ⟨s, hs, rfl⟩
      exact (h.selected s).mp hs
    · intro ht
      exact ⟨σ.symm t, (h.selected _).mpr (by rwa [Equiv.apply_symm_apply]), σ.apply_symm_apply t⟩
  have hvalues : intsIn ys states' = (states'.toList.map σ).map fun s => (xs.getD s 0).toInt := by
    unfold intsIn
    rw [List.map_map]
    refine List.map_congr_left fun s _ => ?_
    rw [Function.comp_apply, Array.getD_eq_getD_getElem?, Array.getD_eq_getD_getElem?, h.value s]
  rw [hvalues]
  exact hperm.map _

/-- Every order of the selected states is that of some numbering. -/
theorem exists_renumbered (hlt : ∀ s ∈ states, s < xs.size) {L : List Nat} (hperm : states.toList.Perm L) :
    ∃ σ ys, Renumbered σ xs ys states states ∧ intsIn ys states = L.map fun s => (xs.getD s 0).toInt := by
  obtain ⟨σ, hmap, hfix⟩ := exists_numbering hperm (nodup_toList states)
  have hselected : ∀ s, s ∈ states ↔ σ s ∈ states := by
    intro s
    constructor
    · intro hs
      exact hperm.mem_iff.mpr (hmap ▸ List.mem_map_of_mem hs)
    · intro hs
      by_contra hnot
      exact hnot (hfix s hnot ▸ hs)
  have hvalue : ∀ s, (Array.ofFn fun i : Fin xs.size => xs.getD (σ i) 0)[s]? = xs[σ s]? := by
    intro s
    have hsize : s < xs.size ↔ σ s < xs.size := by
      by_cases hs : s ∈ states
      · exact iff_of_true (hlt s hs) (hlt _ ((hselected s).mp hs))
      · rw [hfix s hs]
    rw [Array.getElem?_ofFn]
    by_cases hs : s < xs.size
    · rw [dif_pos hs, Array.getD_eq_getD_getElem?, Array.getElem?_eq_getElem (hsize.mp hs)]
      rfl
    · rw [dif_neg hs, Array.getElem?_eq_none (Nat.le_of_not_lt (mt hsize.mpr hs))]
  refine ⟨σ, _, ⟨hvalue, hselected⟩, ?_⟩
  rw [← hmap, List.map_map]
  refine List.map_congr_left fun s _ => ?_
  rw [Function.comp_apply, Array.getD_eq_getD_getElem?, Array.getD_eq_getD_getElem?, hvalue s]

theorem rawEntry_of_lt {s : Nat} (hs : s < xs.size) : rawEntry xs s = .ok (xs.getD s 0) := by
  unfold rawEntry
  simp [hs]

theorem sumOver_of_sumsFit (hlt : ∀ s ∈ states, s < xs.size) (hfit : SumsFit 0 (intsIn xs states)) :
    sumOver ⟨.ints xs, accuracy⟩ states = .ok (.int (.ofInt (intsIn xs states).sum)) := by
  have hsum : intSum xs states = .ok (.ofInt (intsIn xs states).sum) :=
    (intSum_checked fun s hs => rawEntry_of_lt (hlt s hs)).1 hfit
  simp only [sumOver, hsum]
  rfl

theorem sumOver_of_not_sumsFit (hlt : ∀ s ∈ states, s < xs.size) (hover : ¬SumsFit 0 (intsIn xs states)) :
    sumOver ⟨.ints xs, accuracy⟩ states = .error (.overflow "sum") := by
  have hsum : intSum xs states = .error (.overflow "sum") :=
    (intSum_checked fun s hs => rawEntry_of_lt (hlt s hs)).2 hover
  simp only [sumOver, hsum]
  rfl

theorem sumOver_eq_ok_iff (hlt : ∀ s ∈ states, s < xs.size) {x : Value} :
    sumOver ⟨.ints xs, accuracy⟩ states = .ok x ↔
      SumsFit 0 (intsIn xs states) ∧ x = .int (.ofInt (intsIn xs states).sum) := by
  by_cases hfit : SumsFit 0 (intsIn xs states)
  · rw [sumOver_of_sumsFit hlt hfit]
    exact ⟨fun h => ⟨hfit, (Except.ok.inj h).symm⟩, fun h => congrArg Except.ok h.2.symm⟩
  · rw [sumOver_of_not_sumsFit hlt hfit]
    exact iff_of_false nofun fun h => hfit h.1

theorem sumOver_overflows_iff (hlt : ∀ s ∈ states, s < xs.size) :
    sumOver ⟨.ints xs, accuracy⟩ states = .error (.overflow "sum") ↔ ¬SumsFit 0 (intsIn xs states) := by
  by_cases hfit : SumsFit 0 (intsIn xs states)
  · rw [sumOver_of_sumsFit hlt hfit]
    exact iff_of_false nofun (not_not_intro hfit)
  · exact iff_of_true (sumOver_of_not_sumsFit hlt hfit) hfit

/-! ## The numbering and the sum -/

theorem Renumbered.sum_eq (h : Renumbered σ xs ys states states') : (intsIn ys states').sum = (intsIn xs states).sum :=
  h.intsIn_perm.sum_eq

/-- If the sums of the positive and of the negative values fit, then partial sums do in every numbering. -/
theorem Renumbered.sumsFit (h : Renumbered σ xs ys states states') (hpos : FitsWord (positives (intsIn xs states)))
    (hneg : FitsWord (negatives (intsIn xs states))) : SumsFit 0 (intsIn ys states') :=
  sumsFit_of_parts (negatives_perm h.intsIn_perm ▸ hneg) (positives_perm h.intsIn_perm ▸ hpos)

/-- Some numbering of the states has no sum unless the sums of the positive and of the negative values both fit. -/
theorem exists_renumbered_overflows (accuracy : Option Accuracy) (hlt : ∀ s ∈ states, s < xs.size) :
    (∃ σ ys states', Renumbered σ xs ys states states' ∧
      sumOver ⟨.ints ys, accuracy⟩ states' = .error (.overflow "sum")) ↔
      ¬(FitsWord (positives (intsIn xs states)) ∧ FitsWord (negatives (intsIn xs states))) := by
  constructor
  · rintro ⟨σ, ys, states', h, hover⟩ ⟨hpos, hneg⟩
    exact (sumOver_overflows_iff (h.lt hlt)).mp hover (h.sumsFit hpos hneg)
  · intro hparts
    have horder : ∃ L, states.toList.Perm L ∧ ¬SumsFit 0 (L.map fun s => (xs.getD s 0).toInt) := by
      by_cases hpos : FitsWord (positives (intsIn xs states))
      · exact exists_order_overflows fun hneg => hparts ⟨hpos, hneg⟩
      · exact exists_order_overflows hpos
    obtain ⟨L, hperm, hover⟩ := horder
    obtain ⟨σ, ys, h, hys⟩ := exists_renumbered hlt hperm
    exact ⟨σ, ys, states, h, sumOver_of_not_sumsFit (h.lt hlt) (hys ▸ hover)⟩

/-- Some numbering of the states has the sum if it fits. -/
theorem exists_renumbered_sums (accuracy : Option Accuracy) (hlt : ∀ s ∈ states, s < xs.size) :
    (∃ σ ys states', Renumbered σ xs ys states states' ∧
      sumOver ⟨.ints ys, accuracy⟩ states' = .ok (.int (.ofInt (intsIn xs states).sum))) ↔
      FitsWord (intsIn xs states).sum := by
  constructor
  · rintro ⟨σ, ys, states', h, hsum⟩
    have hfit := ((sumOver_eq_ok_iff (h.lt hlt)).mp hsum).1.sum
    rwa [zero_add, h.sum_eq] at hfit
  · intro hfit
    have hstart : FitsWord (0 + (intsIn xs states).sum) := by rwa [zero_add]
    obtain ⟨L, hperm, hsums⟩ :=
      exists_order_fits rfl (by decide) (fun s _ => (xs.getD s 0).toInt_bounds) hstart
    obtain ⟨σ, ys, h, hys⟩ := exists_renumbered hlt hperm
    refine ⟨σ, ys, states, h, ?_⟩
    rw [sumOver_of_sumsFit (h.lt hlt) (hys ▸ hsums), h.sum_eq]

/-- A filter for the sum reports it, and fails as it does. -/
theorem reduce_sum {f : Filter} (hop : f.op = .sum) (settings : Settings) (m : Model) (s : Selection) (v : StateVector)
    (r : Run) : (Check.outcome (f.reduce settings m s v) r).map Reduced.value =
      ((v.sumOver s.states).map fun x => some (.value x)).mapError .eval := by
  unfold Filter.reduce
  rw [hop]
  show (Check.outcome (Filter.reduceSingle m (v.sumOver s.states) _ _) r).map _ = _
  cases v.sumOver s.states <;> rfl

/-- A sum over some states is exact if all partial sums in the order of the states fit, and refused otherwise. Another
numbering cannot change the sum, but it can change whether there is one, unless no numbering has one or the sums of the
positive and of the negative values both fit. Some numbering has the sum if it fits. -/
theorem sumOver_renumbered (accuracy : Option Accuracy) (hlt : ∀ s ∈ states, s < xs.size) :
    let sum xs states := sumOver ⟨.ints xs, accuracy⟩ states
    let values := intsIn xs states
    (∀ x, sum xs states = .ok x ↔ SumsFit 0 values ∧ ∃ total : Int64, x = .int total ∧ total.toInt = values.sum) ∧
    (sum xs states = .error (.overflow "sum") ↔ ¬SumsFit 0 values) ∧
    (∀ (f : Filter) settings m (s : Selection) r, f.op = .sum → s.states = states →
      (Check.outcome (f.reduce settings m s ⟨.ints xs, accuracy⟩) r).map Reduced.value =
        ((sum xs states).map fun x => some (.value x)).mapError .eval) ∧
    (∀ σ ys states', Renumbered σ xs ys states states' →
      ∀ x y, sum xs states = .ok x → sum ys states' = .ok y → x = y) ∧
    ((∃ σ ys states', Renumbered σ xs ys states states' ∧ sum ys states' = .ok (.int (.ofInt values.sum))) ↔
      FitsWord values.sum) ∧
    ((∃ σ ys states', Renumbered σ xs ys states states' ∧ sum ys states' = .error (.overflow "sum")) ↔
      ¬(FitsWord (positives values) ∧ FitsWord (negatives values))) ∧
    ((∀ σ ys states', Renumbered σ xs ys states states' → sum ys states' = sum xs states) ↔
      ¬FitsWord values.sum ∨ FitsWord (positives values) ∧ FitsWord (negatives values)) := by
  intro sum values
  refine ⟨fun x => ?_, sumOver_overflows_iff hlt, fun f settings m s r hop hs => ?_, fun σ ys states' h x y hx hy => ?_,
    exists_renumbered_sums accuracy hlt, exists_renumbered_overflows accuracy hlt, ?_, ?_⟩
  · refine (sumOver_eq_ok_iff hlt).trans (and_congr_right fun hfit => ?_)
    have hsum : FitsWord values.sum := zero_add values.sum ▸ hfit.sum
    constructor
    · rintro rfl
      exact ⟨_, rfl, Int64.toInt_ofInt_of_mem hsum⟩
    · rintro ⟨total, rfl, htotal⟩
      rw [← htotal, Int64.ofInt_toInt]
  · rw [reduce_sum hop, hs]
  · rw [((sumOver_eq_ok_iff hlt).mp hx).2, ((sumOver_eq_ok_iff (h.lt hlt)).mp hy).2, h.sum_eq]
  -- An outcome that never changes: if there is the sum in some numbering, then none is refused.
  · intro hsame
    by_contra hnot
    obtain ⟨hfit, hparts⟩ := not_or.mp hnot
    obtain ⟨σ, ys, states₁, h₁, hsum⟩ := (exists_renumbered_sums accuracy hlt).mpr (not_not.mp hfit)
    obtain ⟨τ, zs, states₂, h₂, hover⟩ := (exists_renumbered_overflows accuracy hlt).mpr hparts
    cases (hsum.symm.trans (hsame σ ys states₁ h₁)).trans ((hsame τ zs states₂ h₂).symm.trans hover)
  · rintro (hover | ⟨hpos, hneg⟩) σ ys states' h
    · have hnone : ∀ {zs s}, (intsIn zs s).sum = values.sum → ¬SumsFit 0 (intsIn zs s) :=
        fun heq hfit => hover (by simpa [heq] using hfit.sum)
      show sumOver _ _ = sumOver _ _
      rw [sumOver_of_not_sumsFit (h.lt hlt) (hnone h.sum_eq), sumOver_of_not_sumsFit hlt (hnone rfl)]
    · show sumOver _ _ = sumOver _ _
      rw [sumOver_of_sumsFit (h.lt hlt) (h.sumsFit hpos hneg), sumOver_of_sumsFit hlt (sumsFit_of_parts hneg hpos),
        h.sum_eq]

/-- Two and seven make nine in every numbering of the three states. -/
theorem sumOver_renumbered_nine : (∀ s ∈ StateSet.ofList [0, 2], s < (#[2, -3, 7] : Array Int64).size) ∧
    ∀ σ ys states', Renumbered σ #[2, -3, 7] ys (.ofList [0, 2]) states' →
      sumOver ⟨.ints ys, none⟩ states' = .ok (.int 9) := by
  have hlt : ∀ s ∈ StateSet.ofList [0, 2], s < (#[2, -3, 7] : Array Int64).size := by decide
  refine ⟨hlt, fun σ ys states' h => ?_⟩
  obtain ⟨-, -, -, -, -, -, hsame⟩ := sumOver_renumbered none hlt
  exact (hsame.mpr (.inr (by decide)) σ ys states' h).trans (by rfl)

/-- The greatest word, one and minus one: the sum fits, and is refused until the last two states change places. -/
theorem sumOver_carries :
    let xs : Array Int64 := #[9223372036854775807, 1, -1]
    let ys : Array Int64 := #[9223372036854775807, -1, 1]
    (∀ s ∈ StateSet.full 3, s < xs.size) ∧ FitsWord (intsIn xs (.full 3)).sum ∧
      sumOver ⟨.ints xs, none⟩ (.full 3) = .error (.overflow "sum") ∧
      Renumbered (Equiv.swap 1 2) xs ys (.full 3) (.full 3) ∧
      sumOver ⟨.ints ys, none⟩ (.full 3) = .ok (.int 9223372036854775807) := by
  intro xs ys
  have hlt : ∀ s ∈ StateSet.full 3, s < 3 := by decide
  have hys : intsIn ys (.full 3) = [9223372036854775807, -1, 1] := by decide
  have hfit : SumsFit 0 (intsIn ys (.full 3)) := by
    rw [hys]
    simp only [sumsFit_cons, sumsFit_nil]
    decide
  have hfix : ∀ s, Equiv.swap 1 2 (s + 3) = s + 3 := fun s =>
    Equiv.swap_apply_of_ne_of_ne (by omega) (by omega)
  refine ⟨hlt, by decide, sumOver_of_not_sumsFit hlt fun hfit => absurd (hfit 2) (by decide),
    ⟨fun s => ?_, fun s => ?_⟩, (sumOver_of_sumsFit hlt hfit).trans (by rw [hys]; rfl)⟩
  · match s with
    | 0 | 1 | 2 => rfl
    | s + 3 =>
      rw [hfix]
      rfl
  · match s with
    | 0 | 1 | 2 => decide
    | s + 3 => rw [hfix]

end

end StateVector

end Statewise
