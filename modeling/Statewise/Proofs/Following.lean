import Statewise.Proofs.Shape

/-!
# One evaluation following another

A computation follows another one if it succeeds whenever the other does, from whatever runs the two start,
with a related result. This file says what it takes for the vectors and the reductions over a domain to follow
those of a wider domain: entries outside the smaller domain and the texts that are said play no part.
-/

namespace Statewise

open Check StateVector

/-! ## Traversals that agree on the members of a list -/

namespace Yields

variable {α β ε : Type}

theorem foldlM_congr {f g : β → α → Except ε β} {xs : List α} {b : β} (h : ∀ b, ∀ x ∈ xs, f b x = g b x) :
    xs.foldlM f b = xs.foldlM g b := by
  induction xs generalizing b with
  | nil => rfl
  | cons x xs ih =>
    rw [List.foldlM_cons, List.foldlM_cons, h b x List.mem_cons_self]
    congr 1
    funext b'
    exact ih fun b z hz => h b z (List.mem_cons_of_mem x hz)

theorem filterM_congr {f g : α → Except ε Bool} {xs : List α} (h : ∀ x ∈ xs, f x = g x) :
    xs.filterM f = xs.filterM g := by
  suffices haux : ∀ acc, List.filterAuxM f xs acc = List.filterAuxM g xs acc by
    unfold List.filterM
    rw [haux]
  induction xs with
  | nil => exact fun _ => rfl
  | cons x xs ih =>
    intro acc
    unfold List.filterAuxM
    rw [h x List.mem_cons_self]
    congr 1
    funext b
    exact ih (fun z hz => h z (List.mem_cons_of_mem x hz)) _

end Yields

/-! ## Computations -/

namespace Check

variable {α β γ δ : Type}

/-- If the first computation succeeds from some run, the second succeeds from every run, and what the two
yield is related. -/
def Follows (x : Check α) (y : Check β) (R : α → β → Prop) : Prop :=
  ∀ r r' a, outcome x r = .ok a → ∃ b, outcome y r' = .ok b ∧ R a b

namespace Follows

variable {R : α → β → Prop} {S : γ → δ → Prop}

theorem pure {a : α} {b : β} (h : R a b) : Follows (Pure.pure a : Check α) (Pure.pure b) R := by
  intro _ _ a' ha
  cases ha
  exact ⟨b, rfl, h⟩

/-- Nothing has to be followed. -/
theorem throw (e : CheckError) (y : Check β) : Follows (MonadExcept.throw e : Check α) y R := by
  intro _ _ a ha
  cases ha

theorem mono {x : Check α} {y : Check β} {R' : α → β → Prop} (hxy : Follows x y R)
    (h : ∀ a b, R a b → R' a b) : Follows x y R' := by
  intro r r' a ha
  obtain ⟨b, hb, hR⟩ := hxy r r' a ha
  exact ⟨b, hb, h a b hR⟩

/-- A sequence follows a sequence if its parts do. What is known of the results may be used. -/
theorem bind {x : Check α} {y : Check β} {f : α → Check γ} {g : β → Check δ} {P : α → Prop} {Q : β → Prop}
    (hxy : Follows x y R) (hx : Delivers x P) (hy : Delivers y Q)
    (hf : ∀ a b, P a → Q b → R a b → Follows (f a) (g b) S) : Follows (x >>= f) (y >>= g) S := by
  intro r r' c hc
  obtain ⟨a, ha, hc⟩ := outcome_bind_eq_ok.mp hc
  obtain ⟨b, hb, hR⟩ := hxy r r' a ha
  obtain ⟨d, hd, hS⟩ := hf a b (hx.spec r a ha) (hy.spec r' b hb) hR _ (after y r') c hc
  exact ⟨d, outcome_bind_eq_ok.mpr ⟨b, hb, hd⟩, hS⟩

/-- The same for parts of whose results nothing else is needed. -/
theorem next {x : Check α} {y : Check β} {f : α → Check γ} {g : β → Check δ} (hxy : Follows x y R)
    (hf : ∀ a b, R a b → Follows (f a) (g b) S) : Follows (x >>= f) (y >>= g) S := by
  intro r r' c hc
  obtain ⟨a, ha, hc⟩ := outcome_bind_eq_ok.mp hc
  obtain ⟨b, hb, hR⟩ := hxy r r' a ha
  obtain ⟨d, hd, hS⟩ := hf a b hR _ (after y r') c hc
  exact ⟨d, outcome_bind_eq_ok.mpr ⟨b, hb, hd⟩, hS⟩

/-- A steady computation follows itself. -/
theorem refl {x : Check α} (hx : Steady x) : Follows x x fun a b => b = a := by
  intro r r' a ha
  exact ⟨a, (hx r' r).trans ha, rfl⟩

/-- What always succeeds follows everything. -/
theorem always {x : Check α} {y : Check β} (h : ∀ r a, ∃ b, outcome y r = .ok b ∧ R a b) : Follows x y R :=
  fun _ r' a _ => h r' a

/-- It may be assumed that there is something to follow. -/
theorem assume {x : Check α} {y : Check β} (h : ∀ r a, outcome x r = .ok a → Follows x y R) : Follows x y R :=
  fun r r' a ha => h r a ha r r' a ha

theorem ofEval {x : Except EvalError α} {y : Except EvalError β}
    (h : ∀ a, x = .ok a → ∃ b, y = .ok b ∧ R a b) : Follows (Check.ofEval x) (Check.ofEval y) R := by
  intro r r' a ha
  obtain ⟨b, hb, hR⟩ := h a (outcome_ofEval_eq_ok.mp ha)
  exact ⟨b, outcome_ofEval_eq_ok.mpr hb, hR⟩

theorem ofExcept {x : Except CheckError α} {y : Except CheckError β}
    (h : ∀ a, x = .ok a → ∃ b, y = .ok b ∧ R a b) : Follows (Check.ofExcept x) (Check.ofExcept y) R := by
  intro r r' a ha
  rw [outcome_ofExcept] at ha
  obtain ⟨b, hb, hR⟩ := h a ha
  exact ⟨b, (outcome_ofExcept y r').trans hb, hR⟩

/-- The same computation on values on both sides. -/
theorem compute {x : Except EvalError α} {f : α → Check γ} {g : α → Check δ}
    (hf : ∀ a, x = .ok a → Follows (f a) (g a) S) :
    Follows (do let a ← Check.ofEval x; f a) (do let a ← Check.ofEval x; g a) S := by
  refine next (R := fun a b => x = .ok a ∧ b = a) (ofEval fun a ha => ⟨a, ha, ha, rfl⟩) ?_
  rintro a b ⟨ha, rfl⟩
  exact hf b ha

/-- Messages play no part. -/
theorem message {t t' : String} {x : Check α} {y : Check β} (h : Follows x y R) :
    Follows (do Check.message t; x) (do Check.message t'; y) R :=
  next (R := fun _ _ => True) (always fun _ _ => ⟨(), rfl, trivial⟩) fun _ _ _ => h

end Follows

end Check

/-! ## Vectors that agree on a domain -/

namespace StateVector

variable {n : Nat} {domain wide nar : Option StateSet} {t : ValueType}

/-- Two vectors of one type with the same entries in the states of a domain. -/
structure Matches (n : Nat) (domain : Option StateSet) (v w : StateVector) : Prop where
  type : v.type = w.type
  entry : ∀ s ∈ statesOf n domain, v.valueAt s = w.valueAt s

/-- A domain and a part of it, both of real states. The part may be empty. -/
structure Narrows (n : Nat) (wide nar : Option StateSet) : Prop where
  sub : ∀ s ∈ statesOf n nar, s ∈ statesOf n wide
  lt : ∀ s ∈ statesOf n wide, s < n

namespace Narrows

theorem nar_lt (h : Narrows n wide nar) : ∀ s ∈ statesOf n nar, s < n := fun s hs => h.lt s (h.sub s hs)

theorem all (n : Nat) : Narrows n none none :=
  ⟨fun _ hs => hs, fun _ hs => List.mem_range.mp hs⟩

theorem refl (h : ∀ s ∈ statesOf n domain, s < n) : Narrows n domain domain := ⟨fun _ hs => hs, h⟩

/-- All states are the widest domain. -/
theorem of_lt (h : ∀ s ∈ statesOf n nar, s < n) : Narrows n none nar :=
  ⟨fun s hs => List.mem_range.mpr (h s hs), fun _ hs => List.mem_range.mp hs⟩

theorem of_sets {a b : StateSet} (h : ∀ s ∈ b, s ∈ a) (ha : ∀ s ∈ a, s < n) : Narrows n (some a) (some b) := ⟨h, ha⟩

end Narrows

namespace Matches

variable {u v w : StateVector}

theorem refl (v : StateVector) : Matches n domain v v := ⟨rfl, fun _ _ => rfl⟩

theorem symm (h : Matches n domain v w) : Matches n domain w v := ⟨h.type.symm, fun s hs => (h.entry s hs).symm⟩

theorem trans (h : Matches n domain u v) (h' : Matches n domain v w) : Matches n domain u w :=
  ⟨h.type.trans h'.type, fun s hs => (h.entry s hs).trans (h'.entry s hs)⟩

theorem mono (h : Matches n wide v w) (hd : ∀ s ∈ statesOf n nar, s ∈ statesOf n wide) : Matches n nar v w :=
  ⟨h.type, fun s hs => h.entry s (hd s hs)⟩

theorem withAccuracy (h : Matches n domain v w) (a b : Option Accuracy) :
    Matches n domain (v.withAccuracy a) (w.withAccuracy b) := ⟨h.type, h.entry⟩

end Matches

/-! ## Truth values -/

theorem type_of_satisfaction {v : StateVector} {a : StateSet} (h : v.satisfaction = .ok a) : v.type = .bool := by
  obtain ⟨entries, accuracy⟩ := v
  cases entries with
  | bools members k => rfl
  | _ => cases h

theorem satisfaction_of_type {v : StateVector} (h : v.type = .bool) : ∃ a, v.satisfaction = .ok a := by
  obtain ⟨entries, accuracy⟩ := v
  cases entries with
  | bools members k => exact ⟨members, rfl⟩
  | _ => cases h

/-- Plain vectors of one type that are no vectors of truth values lack a satisfaction set for one reason. -/
theorem satisfaction_eq_error {v : StateVector} (hv : v.IsPlain n) (h : v.type ≠ .bool) :
    v.satisfaction = .error (.typeMismatch .bool v.type) := by
  obtain ⟨entries, accuracy⟩ := v
  cases entries with
  | bools members k => exact absurd rfl h
  | frontier points k => cases hv.2
  | _ => rfl

theorem mem_iff_of_valueAt_eq {v w : StateVector} {a b : StateSet} {s : Nat} (hv : v.IsPlain n) (hw : w.IsPlain n)
    (ha : v.satisfaction = .ok a) (hb : w.satisfaction = .ok b) (hs : s < n) (hlimit : s < stateLimit)
    (h : v.valueAt s = w.valueAt s) : s ∈ a ↔ s ∈ b := by
  rw [valueAt_of_satisfaction ha (hv.1 ▸ hs), valueAt_of_satisfaction hb (hw.1 ▸ hs),
    StateSet.contains_eq_decide hlimit, StateSet.contains_eq_decide hlimit] at h
  simpa using h

/-- Vectors of truth values that agree on a domain have sets that do. -/
theorem Matches.mem_iff {v w : StateVector} {a b : StateSet} (h : Matches n domain v w) (hn : n < stateLimit)
    (hlt : ∀ s ∈ statesOf n domain, s < n) (hv : v.IsPlain n) (hw : w.IsPlain n) (ha : v.satisfaction = .ok a)
    (hb : w.satisfaction = .ok b) : ∀ s ∈ statesOf n domain, (s ∈ a ↔ s ∈ b) := fun s hs =>
  mem_iff_of_valueAt_eq hv hw ha hb (hlt s hs) (Nat.lt_trans (hlt s hs) hn) (h.entry s hs)

/-! ## Tabulations -/

section

variable {ε : Type} {lift : EvalError → ε} {out : StateVector}

/-- A tabulation over a part of a domain succeeds with the same entries if the tabulation over the domain
does. -/
theorem tabulate_follows {f g : Nat → Except ε Value} (hn : n < stateLimit) (hd : Narrows n wide nar)
    (hfg : ∀ s ∈ statesOf n nar, ∀ y, f s = .ok y → g s = .ok y) (hout : tabulate lift t n wide f = .ok out) :
    ∃ o, tabulate lift t n nar g = .ok o ∧ Matches n nar out o := by
  have hspec := tabulate_spec hout
  have hentry := hspec.entry (Nat.le_of_lt hn)
  have hsucc : ∀ s ∈ statesOf n nar, s < n ∧ ∃ v w, g s = .ok v ∧ v.coerce? t = some w := by
    intro s hs
    obtain ⟨hlt, v, w, hv, hw, -⟩ := hentry s (hd.sub s hs)
    exact ⟨hlt, v, w, hfg s hs v hv, hw⟩
  obtain ⟨o, ho⟩ : ∃ o, tabulate lift t n nar g = .ok o := tabulate_succeeds hsucc
  refine ⟨o, ho, hspec.type.trans (tabulate_spec ho).type.symm, fun s hs => ?_⟩
  obtain ⟨-, v, w, hv, hw, hval⟩ := hentry s (hd.sub s hs)
  obtain ⟨-, v', w', hv', hw', hval'⟩ := (tabulate_spec ho).entry (Nat.le_of_lt hn) s hs
  rw [hfg s hs v hv] at hv'
  cases hv'
  rw [hw] at hw'
  cases hw'
  rw [hval, hval']

theorem map1_follows {v v' : StateVector} {f : Value → Except EvalError Value} (hn : n < stateLimit)
    (hd : Narrows n wide nar) (hv : v.IsPlain n) (hv' : v'.IsPlain n) (h : Matches n nar v v')
    (hout : v.map1 t wide f = .ok out) : ∃ o, v'.map1 t nar f = .ok o ∧ Matches n nar out o := by
  obtain ⟨o, ho, rfl⟩ := (map1_eq_ok hv).mp hout
  obtain ⟨o', ho', hmatch⟩ := tabulate_follows (g := fun s => do f (← v'.valueAt s)) hn hd
    (fun s hs y hy => by rw [← h.entry s hs]; exact hy) ho
  exact ⟨_, (map1_eq_ok hv').mpr ⟨o', ho', rfl⟩, hmatch.withAccuracy _ _⟩

theorem map2_follows {v v' w w' : StateVector} {f : Value → Value → Except EvalError Value} (hn : n < stateLimit)
    (hd : Narrows n wide nar) (hv : v.IsPlain n) (hv' : v'.IsPlain n) (hw : w.IsPlain n) (hw' : w'.IsPlain n)
    (h : Matches n nar v v') (h' : Matches n nar w w') (hout : v.map2 w t wide f = .ok out) :
    ∃ o, v'.map2 w' t nar f = .ok o ∧ Matches n nar out o := by
  rw [map2_eq hv hw] at hout
  rw [map2_eq hv' hw']
  exact tabulate_follows hn hd (fun s hs y hy => by rw [← h.entry s hs, ← h'.entry s hs]; exact hy) hout

end

/-! ## Reading the entries of some states -/

section

variable {states : StateSet} {v w : StateVector}

theorem Matches.satisfaction_cases (h : Matches n (some states) v w) (hn : n < stateLimit)
    (hlt : ∀ s ∈ states, s < n) (hv : v.IsPlain n) (hw : w.IsPlain n) :
    (∃ a b, v.satisfaction = .ok a ∧ w.satisfaction = .ok b ∧ ∀ s ∈ states, a.contains s = b.contains s) ∨
      ∃ e, v.satisfaction = .error e ∧ w.satisfaction = .error e := by
  by_cases hbool : v.type = .bool
  · obtain ⟨a, ha⟩ := satisfaction_of_type hbool
    obtain ⟨b, hb⟩ := satisfaction_of_type (h.type.symm.trans hbool)
    refine Or.inl ⟨a, b, ha, hb, fun s hs => ?_⟩
    have hlimit : s < stateLimit := Nat.lt_trans (hlt s hs) hn
    rw [StateSet.contains_eq_decide hlimit, StateSet.contains_eq_decide hlimit]
    simp [h.mem_iff hn hlt hv hw ha hb s hs]
  · have hbool' : w.type ≠ .bool := fun hw' => hbool (h.type.trans hw')
    exact Or.inr ⟨_, satisfaction_eq_error hv hbool, by rw [satisfaction_eq_error hw hbool', h.type]⟩

theorem foldOver_congr (h : Matches n (some states) v w) (combine : Value → Value → Except EvalError Value) :
    v.foldOver combine states = w.foldOver combine states := by
  have hentry : ∀ s ∈ states.toList, v.valueAt s = w.valueAt s := h.entry
  unfold foldOver
  generalize states.toList = xs at hentry
  cases xs with
  | nil => rfl
  | cons s rest =>
    simp only [hentry s List.mem_cons_self]
    congr 1
    funext first
    exact Yields.foldlM_congr fun acc z hz => by rw [hentry z (List.mem_cons_of_mem s hz)]

theorem rangeOver_congr (h : Matches n (some states) v w) : v.rangeOver states = w.rangeOver states := by
  unfold rangeOver minOver maxOver
  rw [foldOver_congr h, foldOver_congr h]

theorem firstIn_congr (h : Matches n (some states) v w) : v.firstIn states = w.firstIn states := by
  unfold firstIn
  cases hfirst : states.first? with
  | none => rfl
  | some s => exact h.entry s (List.mem_of_mem_head? hfirst)

theorem closeStates_congr (h : Matches n (some states) v w) (target : Value) (tolerance : Tolerance) :
    v.closeStates target tolerance (some states) = w.closeStates target tolerance (some states) := by
  have hentry : ∀ s ∈ states.toList, v.valueAt s = w.valueAt s := h.entry
  have hfilter := Yields.filterM_congr (f := fun s => do isClose tolerance target (← v.valueAt s))
    (g := fun s => do isClose tolerance target (← w.valueAt s)) fun s hs => by rw [hentry s hs]
  unfold closeStates
  simp only [hfilter]

theorem countOver_congr (h : Matches n (some states) v w) (hn : n < stateLimit) (hlt : ∀ s ∈ states, s < n)
    (hv : v.IsPlain n) (hw : w.IsPlain n) : v.countOver states = w.countOver states := by
  unfold countOver
  rcases h.satisfaction_cases hn hlt hv hw with ⟨a, b, ha, hb, hab⟩ | ⟨e, hve, hwe⟩
  · have hcount : states.toList.countP a.contains = states.toList.countP b.contains :=
      List.countP_congr fun s hs => by rw [hab s hs]
    rw [ha, hb]
    exact congrArg Except.ok hcount
  · rw [hve, hwe]

theorem forAllOver_congr (h : Matches n (some states) v w) (hn : n < stateLimit) (hlt : ∀ s ∈ states, s < n)
    (hv : v.IsPlain n) (hw : w.IsPlain n) : v.forAllOver states = w.forAllOver states := by
  unfold forAllOver
  rcases h.satisfaction_cases hn hlt hv hw with ⟨a, b, ha, hb, hab⟩ | ⟨e, hve, hwe⟩
  · have hsubset : states.subset a = states.subset b := by
      rw [Bool.eq_iff_iff, StateSet.subset_iff, StateSet.subset_iff]
      refine forall₂_congr fun s hs => ?_
      have hlimit : s < stateLimit := Nat.lt_trans (hlt s hs) hn
      simpa [StateSet.contains_eq_decide hlimit] using hab s hs
    rw [ha, hb]
    exact congrArg Except.ok hsubset
  · rw [hve, hwe]

theorem existsOver_congr (h : Matches n (some states) v w) (hn : n < stateLimit) (hlt : ∀ s ∈ states, s < n)
    (hv : v.IsPlain n) (hw : w.IsPlain n) : v.existsOver states = w.existsOver states := by
  unfold existsOver
  rcases h.satisfaction_cases hn hlt hv hw with ⟨a, b, ha, hb, hab⟩ | ⟨e, hve, hwe⟩
  · have hany : states.toList.any a.contains = states.toList.any b.contains := by
      rw [Bool.eq_iff_iff, List.any_eq_true, List.any_eq_true]
      exact exists_congr fun s => and_congr_right fun hs => by rw [hab s hs]
    rw [ha, hb]
    exact congrArg Except.ok hany
  · rw [hve, hwe]

/-- Real states have an entry in the array, so that sums get what `valueAt` reads. -/
theorem rawEntry_congr {α : Type} {f : α → Value} (hf : ∀ x y, f x = f y → x = y) {xs ys : Array α} {s : Nat}
    (hxs : s < xs.size) (hys : s < ys.size) (h : (entryAt xs s).map f = (entryAt ys s).map f) :
    rawEntry xs s = rawEntry ys s := by
  simp [entryAt, rawEntry, hxs, hys, Except.map] at h ⊢
  exact hf _ _ h

theorem sumOver_congr (h : Matches n (some states) v w) (hlt : ∀ s ∈ states, s < n) (hv : v.IsPlain n)
    (hw : w.IsPlain n) : v.sumOver states = w.sumOver states ∧ v.avgOver states = w.avgOver states := by
  obtain ⟨htype, hentry⟩ := h
  obtain ⟨hvsize, hvplain⟩ := hv
  obtain ⟨hwsize, hwplain⟩ := hw
  obtain ⟨ve, va⟩ := v
  obtain ⟨we, wa⟩ := w
  cases ve with
  | bools a k =>
    cases we with
    | bools b l => exact ⟨rfl, rfl⟩
    | _ => cases htype
  | ints xs =>
    cases we with
    | ints ys =>
      have hraw : ∀ s ∈ states.toList, rawEntry xs s = rawEntry ys s := fun s hs =>
        rawEntry_congr (fun _ _ => Value.int.inj) (Nat.lt_of_lt_of_eq (hlt s hs) hvsize.symm)
          (Nat.lt_of_lt_of_eq (hlt s hs) hwsize.symm) (hentry s hs)
      have hint : intSum xs states = intSum ys states :=
        Yields.foldlM_congr fun acc s hs => by rw [hraw s hs]
      have hfloat : floatSum (fun s => (rawEntry xs s).map Int64.toDouble) states =
          floatSum (fun s => (rawEntry ys s).map Int64.toDouble) states :=
        Yields.foldlM_congr fun acc s hs => by simp only [hraw s hs]
      exact ⟨by simp only [sumOver, hint], by simp only [avgOver, hfloat]⟩
    | _ => cases htype
  | doubles xs =>
    cases we with
    | doubles ys =>
      have hraw : ∀ s ∈ states.toList, rawEntry xs s = rawEntry ys s := fun s hs =>
        rawEntry_congr (fun _ _ => Value.double.inj) (Nat.lt_of_lt_of_eq (hlt s hs) hvsize.symm)
          (Nat.lt_of_lt_of_eq (hlt s hs) hwsize.symm) (hentry s hs)
      have hfloat : floatSum (rawEntry xs) states = floatSum (rawEntry ys) states :=
        Yields.foldlM_congr fun acc s hs => by rw [hraw s hs]
      exact ⟨by simp only [sumOver, hfloat], by simp only [avgOver, hfloat]⟩
    | frontier points k => cases hwplain
    | _ => cases htype
  | frontier points k => cases hvplain

theorem points?_eq_none (hv : v.IsPlain n) : v.points? = none := by
  obtain ⟨entries, accuracy⟩ := v
  cases entries with
  | frontier points k => cases hv.2
  | _ => rfl

theorem format_succeeds (hv : v.IsPlain n) (hlt : ∀ s ∈ states, s < n) (includeZeros : Bool)
    (describe : Nat → String) : ∃ lines, v.format states includeZeros describe = .ok lines := by
  have hlines : ∀ s ∈ states.toList, ∃ line, (do
      let x ← v.valueAt s
      return if includeZeros || !x.isZero then some (describe s ++ ":" ++ x.text) else none :
        Except EvalError (Option String)) = .ok line := by
    intro s hs
    obtain ⟨x, hx⟩ := hv.valueAt (hlt s hs)
    exact ⟨_, Yields.bind_eq_ok.mpr ⟨x, hx, rfl⟩⟩
  obtain ⟨lines, h⟩ := Yields.exists_mapM_eq_ok.mpr hlines
  exact ⟨_, Yields.bind_eq_ok.mpr ⟨lines, h, rfl⟩⟩

end

end StateVector

/-! ## Reductions that agree -/

/-- The filters whose vector is that of their operand. -/
def FilterOp.keepsVector : FilterOp → Bool
  | .print | .printAll | .store | .range => true
  | _ => false

namespace Filter

variable {n : Nat} {f f' : Filter} {settings : Settings} {m m' : Model} {s s' : Selection} {v w : StateVector}

/-- Two filters over the same real states, with operands that agree there. -/
structure Alike (n : Nat) (s s' : Selection) (v w : StateVector) : Prop where
  states : s'.states = s.states
  lt : ∀ i ∈ s.states, i < n
  left : v.IsPlain n
  right : w.IsPlain n
  entries : Matches n (some s.states) v w

/-- Reductions that report the same value. The vectors agree over some states; the explanation may depend on how the
states were selected. -/
structure ReportsAlike (n : Nat) (domain : Option StateSet) (s s' : Selection) (r r' : Reduced) : Prop where
  vector : Matches n domain r.vector r'.vector
  value : r'.value = r.value
  explanation : s' = s → r'.explanation = r.explanation

/-- The vectors alone are passed on. -/
theorem reportsAlike_vectorOnly {domain : Option StateSet} (h : Matches n domain v w) :
    ReportsAlike n domain s s' (.vectorOnly v) (.vectorOnly w) := ⟨h, rfl, fun _ => rfl⟩

/-- One value is reported. -/
theorem reportsAlike_single (n : Nat) (x : Value) (accuracy accuracy' : Option Accuracy)
    {explanation explanation' : String} (hexplanation : s' = s → explanation' = explanation) :
    ReportsAlike n none s s' (.single n x accuracy explanation) (.single n x accuracy' explanation') :=
  ⟨(Matches.refl _).withAccuracy _ _, rfl, fun hs => congrArg some (hexplanation hs)⟩

/-- Printing a vector with a value in every selected state does not fail. -/
theorem reducePrint_succeeds (hv : v.IsPlain n) (hlt : ∀ i ∈ s.states, i < n) (includeZeros : Bool) (r : Run) :
    outcome (reducePrint f m s v includeZeros) r = .ok (.vectorOnly v) := by
  obtain ⟨lines, hlines⟩ := format_succeeds hv hlt includeZeros m.describe
  have hrest : ∀ r, outcome (do lines.forM message; return Reduced.vectorOnly v) r = .ok (.vectorOnly v) := by
    intro r
    rw [outcome_bind_ok (outcome_forM (fun _ _ => rfl) r)]
    rfl
  unfold reducePrint
  rw [outcome_bind_ok (outcome_ofEval_eq_ok.mpr hlines)]
  split
  · split
    · exact hrest _
    · exact hrest _
  · exact hrest _

theorem reducePrint_follows (h : Alike n s s' v w) (includeZeros : Bool) :
    Follows (reducePrint f m s v includeZeros) (reducePrint f' m' s' w includeZeros)
      (ReportsAlike n (some s.states) s s') := by
  intro r r' a ha
  rw [reducePrint_succeeds h.left h.lt includeZeros r] at ha
  cases ha
  exact ⟨_, reducePrint_succeeds h.right (h.states ▸ h.lt) includeZeros r', reportsAlike_vectorOnly h.entries⟩

theorem reduceExtreme_follows (hm : m.numStates = n) (hm' : m'.numStates = n) (h : Alike n s s' v w) (kind : String)
    {extreme extreme' : Except EvalError Value} (he : extreme' = extreme) :
    Follows (reduceExtreme settings m s v kind extreme) (reduceExtreme settings m' s' w kind extreme')
      (ReportsAlike n none s s') := by
  unfold reduceExtreme matching report
  rw [he, h.states, hm, hm']
  refine Follows.compute fun x _ => Follows.message ?_
  rw [closeStates_congr h.entries]
  refine Follows.compute fun found _ => ?_
  refine Follows.next (R := fun _ _ => True) (Follows.always fun r _ => ?_) fun _ _ _ => ?_
  · exact ⟨(), outcome_showMatching m' settings found x r, trivial⟩
  · exact Follows.pure (reportsAlike_single n x _ _ fun hs => by rw [hs])

theorem reduceArgument_follows (hm : m.numStates = n) (hm' : m'.numStates = n) (h : Alike n s s' v w)
    (capital kind : String) {extreme extreme' : Except EvalError Value} (he : extreme' = extreme) :
    Follows (reduceArgument settings m s v capital kind extreme)
      (reduceArgument settings m' s' w capital kind extreme') (ReportsAlike n none s s') := by
  unfold reduceArgument matching report
  rw [he, h.states, hm, hm']
  refine Follows.compute fun x _ => Follows.message ?_
  rw [closeStates_congr h.entries]
  refine Follows.compute fun found _ => Follows.message (Follows.pure ?_)
  exact ⟨Matches.refl _, rfl, fun _ => rfl⟩

theorem reduceSingle_follows (hm : m.numStates = n) (hm' : m'.numStates = n)
    {value value' : Except EvalError Value} (he : value' = value) {accuracy accuracy' : Option Accuracy}
    {explanation explanation' : String} (hexplanation : s' = s → explanation' = explanation) :
    Follows (reduceSingle m value accuracy explanation) (reduceSingle m' value' accuracy' explanation')
      (ReportsAlike n none s s') := by
  unfold reduceSingle report
  rw [he, hm, hm']
  exact Follows.compute fun x _ =>
    Follows.message (Follows.pure (reportsAlike_single n x _ _ hexplanation))

theorem reduceRange_follows (h : Alike n s s' v w) :
    Follows (reduceRange s v) (reduceRange s' w) (ReportsAlike n (some s.states) s s') := by
  unfold reduceRange report
  rw [h.states, rangeOver_congr h.entries]
  refine Follows.compute fun range _ => Follows.message (Follows.pure ?_)
  exact ⟨h.entries, rfl, fun hs => by rw [hs]⟩

theorem reduceForAll_follows (hn : n < stateLimit) (hm : m.numStates = n) (hm' : m'.numStates = n)
    (h : Alike n s s' v w) :
    Follows (reduceForAll m s v) (reduceForAll m' s' w) (ReportsAlike n none s s') := by
  unfold reduceForAll
  rw [points?_eq_none h.left, points?_eq_none h.right]
  simp only
  rw [h.states, forAllOver_congr h.entries hn h.lt h.left h.right, countOver_congr h.entries hn h.lt h.left h.right,
    hm, hm']
  refine Follows.compute fun holds _ => Follows.compute fun satisfied _ => ?_
  exact Follows.message (Follows.pure (reportsAlike_single n _ _ _ fun hs => by rw [hs]))

theorem reduceExists_follows (hn : n < stateLimit) (hm : m.numStates = n) (hm' : m'.numStates = n)
    (h : Alike n s s' v w) :
    Follows (reduceExists m s v) (reduceExists m' s' w) (ReportsAlike n none s s') := by
  unfold reduceExists
  rw [h.states, existsOver_congr h.entries hn h.lt h.left h.right, hm, hm']
  refine Follows.compute fun holds _ => Follows.message (Follows.pure ?_)
  exact reportsAlike_single n _ _ _ fun hs => by rw [hs]

/-- The states in which the vector of a filter can be compared: those of the filter if it passes the vector of
its operand on, otherwise all. -/
def comparable (f : Filter) (s : Selection) : Option StateSet := if f.op.keepsVector then some s.states else none

/-- Reductions of operands that agree over the states of the filter agree. -/
theorem reduce_follows (hn : n < stateLimit) (hm : m.numStates = n) (hm' : m'.numStates = n) (hop : f'.op = f.op)
    (h : Alike n s s' v w) :
    Follows (f.reduce settings m s v) (f'.reduce settings m' s' w)
      (ReportsAlike n (f.comparable s) s s') := by
  have hmin : w.minOver s'.states = v.minOver s.states := by
    rw [h.states]
    exact (foldOver_congr h.entries _).symm
  have hmax : w.maxOver s'.states = v.maxOver s.states := by
    rw [h.states]
    exact (foldOver_congr h.entries _).symm
  have hfirst : w.firstIn s'.states = v.firstIn s.states := by rw [h.states, firstIn_congr h.entries]
  have hsums := sumOver_congr h.entries h.lt h.left h.right
  have hcount := countOver_congr h.entries hn h.lt h.left h.right
  unfold reduce comparable
  rw [hop]
  cases f.op with
  | print => exact reducePrint_follows h false
  | printAll => exact reducePrint_follows h true
  | store => exact Follows.next (R := fun _ _ => True) (Follows.always fun _ _ => ⟨(), rfl, trivial⟩) fun _ _ _ =>
      Follows.pure (reportsAlike_vectorOnly h.entries)
  | min => exact reduceExtreme_follows hm hm' h _ hmin
  | max => exact reduceExtreme_follows hm hm' h _ hmax
  | argmin => exact reduceArgument_follows hm hm' h _ _ hmin
  | argmax => exact reduceArgument_follows hm hm' h _ _ hmax
  | count => exact reduceSingle_follows hm hm' (by rw [h.states, hcount]) fun hs => by rw [hs]
  | sum => exact reduceSingle_follows hm hm' (by rw [h.states, hsums.1]) fun hs => by rw [hs]
  | avg => exact reduceSingle_follows hm hm' (by rw [h.states, hsums.2]) fun hs => by rw [hs]
  | first => exact reduceSingle_follows hm hm' hfirst fun hs => by rw [hs]
  | range => exact reduceRange_follows h
  | forAll => exact reduceForAll_follows hn hm hm' h
  | thereIs => exact reduceExists_follows hn hm hm' h
  | state => exact reduceSingle_follows hm hm' hfirst fun hs => by rw [hs]

end Filter

end Statewise
