import Statewise.Proofs.Asking
import Statewise.Proofs.Building

/-!
# Registering formulas

Registering the maximal state formulas of an expression changes a model in place, label by label. A label can always be
attached, since its name is searched for until it is free, so a registration that fails has failed before the first
label: the model is as it was. A registration that succeeds adds one label for each set and touches nothing else.
-/

namespace Statewise

open Check

namespace Model

variable {m m' : Model}

/-! ## The search for a free name -/

/-- The first of the candidates that is not taken. -/
def IsFirstFree (base : String) (taken : String → Prop) (name : String) : Prop :=
  ∃ k, name = candidate base k ∧ ¬taken name ∧ ∀ j < k, taken (candidate base j)

theorem freshName_isFirstFree (base : String) (taken : List String) :
    IsFirstFree base (· ∈ taken) (freshName base taken) := by
  have hfree := freshName_not_mem base taken
  unfold freshName at hfree ⊢
  rw [List.find?_map] at hfree ⊢
  cases hfind : (List.range (taken.length + 1)).find? ((fun n => !taken.contains n) ∘ candidate base) with
  | none =>
    -- The first candidate would be taken, and yet be what is chosen.
    rw [hfind] at hfree
    exact ⟨0, rfl, hfree, fun j hj => absurd hj (Nat.not_lt_zero j)⟩
  | some k =>
    rw [hfind] at hfree
    refine ⟨k, rfl, hfree, fun j hj => ?_⟩
    simpa using (List.find?_range_eq_some.mp hfind).2.2 j hj

/-- Candidates are different, so no more of them are taken than there are taken names. -/
theorem le_of_candidates_taken {base : String} {taken : List String} {k : Nat}
    (h : ∀ j < k, candidate base j ∈ taken) : k ≤ taken.dedup.length := by
  have hnodup : ((List.range k).map (candidate base)).Nodup :=
    List.Nodup.map (candidate_injective base) List.nodup_range
  have hsub : (List.range k).map (candidate base) ⊆ taken.dedup := by
    intro name hname
    obtain ⟨j, hj, rfl⟩ := List.mem_map.mp hname
    exact List.mem_dedup.mpr (h j (List.mem_range.mp hj))
  have hlength := (hnodup.subperm hsub).length_le
  rwa [List.length_map, List.length_range] at hlength

/-- The state of a search that goes from name to name. It makes the next name with a counter of 32 bits, which it then
increases. -/
inductive Search where
  | trying (name : String) (counter : Nat)
  | done (name : String)
  | overflow

/-- One round of the search. -/
def Search.round (base : String) (taken : List String) : Search → Search
  | .trying name counter =>
    if taken.contains name then
      if counter + 1 < 2 ^ 31 then .trying (base ++ "_" ++ toString counter) (counter + 1) else .overflow
    else .done name
  | s => s

theorem Search.iterate_round {base : String} {taken : List String} {k : Nat} (hk : k < 2 ^ 31)
    (h : ∀ j < k, candidate base j ∈ taken) :
    (round base taken)^[k] (.trying base 0) = .trying (candidate base k) k := by
  induction k with
  | zero => rfl
  | succ k ih =>
    have htaken : taken.contains (candidate base k) = true :=
      List.contains_iff_mem.mpr (h k (Nat.lt_succ_self k))
    rw [Function.iterate_succ_apply', ih (Nat.lt_of_succ_lt hk) fun j hj => h j (Nat.lt_succ_of_lt hj)]
    simp only [round, htaken, hk, if_true]
    rfl

/-- A search comes to its end, at the name that is chosen, before the counter has reached its limit. -/
theorem Search.finds (base : String) {taken : List String} (htaken : taken.dedup.length < 2 ^ 31) :
    ∃ k ≤ taken.dedup.length, (round base taken)^[k + 1] (.trying base 0) = .done (freshName base taken) := by
  obtain ⟨k, hname, hfree, hfirst⟩ := freshName_isFirstFree base taken
  have hk := le_of_candidates_taken hfirst
  rw [hname] at hfree
  have hnot : taken.contains (candidate base k) = false := by simpa using hfree
  refine ⟨k, hk, ?_⟩
  rw [Function.iterate_succ_apply', iterate_round (Nat.lt_of_le_of_lt hk htaken) hfirst, hname]
  simp only [round, hnot, Bool.false_eq_true, if_false]

/-! ## Labels under new names -/

theorem hasLabel_insert {name n : String} {states : StateSet} :
    hasLabel { m with labels := m.labels.insert name states } n = true ↔ n = name ∨ m.hasLabel n = true := by
  unfold hasLabel NameMap.contains
  rw [NameMap.get?_insert]
  by_cases hn : n = name
  · simp [hn]
  · simp [hn]

end Model

namespace Expr

/-! ## Renamed labels -/

variable {f : String → String} {a e : Expr}

theorem renameLabelsL_eq_map (f : String → String) (es : List Expr) : renameLabelsL f es = es.map (renameLabels f) := by
  induction es with
  | nil => rfl
  | cons e es ih => rw [renameLabelsL, ih, List.map_cons]

theorem children_renameLabels (f : String → String) (e : Expr) :
    (e.renameLabels f).children = e.children.map (renameLabels f) := by
  cases e with
  | call g args => exact renameLabelsL_eq_map f args
  | path op operands bound => exact renameLabelsL_eq_map f operands
  | formula name d t => cases d <;> rfl
  | filter op e p invisible explained => cases p <;> rfl
  | _ => rfl

/-- What occurs in a renamed expression is what occurs in the expression, renamed. -/
theorem Within.exists_renamed (h : a.Within (e.renameLabels f)) : ∃ b : Expr, b.Within e ∧ b.renameLabels f = a := by
  generalize he : e.renameLabels f = e' at h
  induction h generalizing e with
  | refl => exact ⟨e, .refl e, he⟩
  | step hb _ ih =>
    rw [← he, children_renameLabels] at hb
    obtain ⟨d, hd, hdb⟩ := List.mem_map.mp hb
    obtain ⟨b, hbd, hba⟩ := ih hdb
    exact ⟨b, .step hd hbd, hba⟩

/-- A label of a renamed expression is a label of the expression, renamed. -/
theorem label_of_renameLabels {name : String} (h : e.renameLabels f = .label name) :
    ∃ old, e = .label old ∧ f old = name := by
  cases e with
  | label old => exact ⟨old, rfl, by injection h⟩
  | _ => cases h

end Expr

namespace Checker

variable {m m' : Model} {defined : List String} {found : Found} {names : List String}

/-- What taken names are when the label with the given number is attached: those of the model, those defined
elsewhere, and those of the labels that were attached before it. -/
def TakenAt (m : Model) (defined : List String) (names : List String) (i : Nat) (name : String) : Prop :=
  m.hasLabel name = true ∨ name ∈ defined ∨ name ∈ names.take i

/-- The second model is the first one with a label for each set, in the order of the sets. -/
structure Registered (m : Model) (defined : List String) (found : Found) (names : List String) (m' : Model) :
    Prop where
  framed : m' = { m with labels := m'.labels }
  attached : List.Forall₂ (fun p name => m'.labelStates? name = some p.2) found names
  others : ∀ name, name ∉ names → m'.labelStates? name = m.labelStates? name
  chosen : ∀ i name, names[i]? = some name → Model.IsFirstFree "phi" (TakenAt m defined names i) name

/-- No new name is one of the old labels or one that is defined elsewhere. -/
theorem Registered.fresh (h : Registered m defined found names m') :
    ∀ name ∈ names, m.hasLabel name = false ∧ name ∉ defined := by
  intro name hname
  obtain ⟨i, hi⟩ := List.mem_iff_getElem?.mp hname
  obtain ⟨-, -, hfree, -⟩ := h.chosen i name hi
  exact ⟨Bool.eq_false_iff.mpr fun hold => hfree (.inl hold), fun hdefined => hfree (.inr (.inl hdefined))⟩

/-- No two sets get one name. -/
theorem Registered.nodup (h : Registered m defined found names m') : names.Nodup := by
  rw [List.nodup_iff_getElem?_ne_getElem?]
  intro i j hij hj heq
  obtain ⟨-, -, hfree, -⟩ := h.chosen j _ (List.getElem?_eq_getElem hj)
  rw [List.getElem?_eq_getElem hj] at heq
  -- The earlier one of the two is among those that were taken.
  refine hfree (.inr (.inr (List.mem_iff_getElem?.mpr ⟨i, ?_⟩)))
  rw [List.getElem?_take_of_lt hij]
  exact heq

theorem registered_nil (m : Model) (defined : List String) : Registered m defined [] [] m :=
  ⟨rfl, .nil, fun _ _ => rfl, fun i name h => by simp at h⟩

/-- A label under the first free name, and the others after it. -/
theorem Registered.cons {p : String × StateSet} {name : String}
    (hname : Model.IsFirstFree "phi" (TakenAt m defined [] 0) name)
    (h : Registered { m with labels := m.labels.insert name p.2 } defined found names m') :
    Registered m defined (p :: found) (name :: names) m' := by
  have hother : name ∉ names := fun hmem => by
    have hnew := (h.fresh name hmem).1
    rw [Model.hasLabel_insert.mpr (.inl rfl)] at hnew
    cases hnew
  refine ⟨h.framed, .cons ?_ h.attached, fun n hn => ?_, fun i n hn => ?_⟩
  · rw [h.others name hother, labelStates?_insert, if_pos rfl]
  · rw [List.mem_cons, not_or] at hn
    rw [h.others n hn.2, labelStates?_insert, if_neg hn.1]
  · cases i with
    | zero =>
      cases hn
      exact hname
    | succ i =>
      have htaken : TakenAt { m with labels := m.labels.insert name p.2 } defined names i =
          TakenAt m defined (name :: names) (i + 1) := by
        funext n
        unfold TakenAt
        rw [Model.hasLabel_insert, List.take_succ_cons, List.mem_cons]
        exact propext (by tauto)
      rw [← htaken]
      exact h.chosen i n hn

/-- Labels can be attached whatever the sets and the taken names are. -/
theorem attachLabels_registered (m : Model) (defined : List String) (found : Found) :
    ∃ names m', attachLabels m defined found = .ok ((found.map Prod.fst).zip names, m') ∧
      Registered m defined found names m' := by
  induction found generalizing m with
  | nil => exact ⟨[], m, rfl, registered_nil m defined⟩
  | cons p rest ih =>
    obtain ⟨placeholder, states⟩ := p
    let name := Model.freshName "phi" (m.labels.names ++ defined)
    have hfirst : Model.IsFirstFree "phi" (TakenAt m defined [] 0) name := by
      have htaken : (· ∈ m.labels.names ++ defined) = TakenAt m defined [] 0 := by
        funext n
        simp [TakenAt, Model.hasLabel_iff]
      rw [← htaken]
      exact Model.freshName_isFirstFree _ _
    obtain ⟨-, hadd⟩ := m.addUniqueLabel_eq "phi" states defined
    obtain ⟨names, m', hrest, hregistered⟩ := ih { m with labels := m.labels.insert name states }
    refine ⟨name :: names, m', ?_, hregistered.cons hfirst⟩
    simp only [attachLabels, hadd]
    exact Yields.bind_eq_ok.mpr ⟨_, rfl, Yields.bind_eq_ok.mpr ⟨_, hrest, rfl⟩⟩

/-! ## In place -/

/-- Labels are attached to a model in place: one that is refused leaves those before it on the model. -/
def attachInPlace (defined : List String) :
    Found → Model → Except ModelError (List (String × String)) × Model
  | [], m => (.ok [], m)
  | (placeholder, states) :: rest, m =>
    match m.addUniqueLabel "phi" states defined with
    | .error e => (.error e, m)
    | .ok (name, m) =>
      match attachInPlace defined rest m with
      | (.error e, m) => (.error e, m)
      | (.ok renames, m) => (.ok ((placeholder, name) :: renames), m)

theorem attachInPlace_of_ok {renames : List (String × String)}
    (h : attachLabels m defined found = .ok (renames, m')) :
    attachInPlace defined found m = (.ok renames, m') := by
  induction found generalizing m renames with
  | nil =>
    cases h
    rfl
  | cons p rest ih =>
    obtain ⟨⟨name, m₁⟩, hadd, h⟩ := Yields.bind_eq_ok.mp h
    obtain ⟨⟨renames₁, m₂⟩, hrest, heq⟩ := Yields.bind_eq_ok.mp h
    cases heq
    simp only [attachInPlace, hadd, ih hrest]

/-- The formulas are registered on a model in place: the new expression, what has become of the model, and the run that
is left. -/
def registerInPlace (c : Checker) (e : Expr) (m : Model) (r : Run) : Except CheckError Expr × Model × Run :=
  match c.extract m e r with
  | (.error err, r) => (.error err, m, r)
  | (.ok (e, found), r) =>
    match attachInPlace c.definitions.labelNames found m with
    | (.error err, m) => (.error (.model err), m, r)
    | (.ok renames, m) => (.ok (e.renameLabels fun name => (renames.lookup name).getD name), m, r)

variable {c : Checker} {e : Expr}

/-- A registration is an extraction and then the attaching of labels, which does not fail. -/
theorem run_registerFormulas {r r' : Run} {e' : Expr} (h : c.extract m e r = (.ok (e', found), r')) :
    ∃ names m', Registered m c.definitions.labelNames found names m' ∧
      attachLabels m c.definitions.labelNames found = .ok ((found.map Prod.fst).zip names, m') ∧
      c.registerFormulas m e r =
        (.ok (e'.renameLabels fun name => (((found.map Prod.fst).zip names).lookup name).getD name, m'), r') := by
  obtain ⟨names, m', hattach, hregistered⟩ := attachLabels_registered m c.definitions.labelNames found
  refine ⟨names, m', hregistered, hattach, ?_⟩
  have hextract : outcome (c.extract m e) r = .ok (e', found) := congrArg Prod.fst h
  have hafter : after (c.extract m e) r = r' := congrArg Prod.snd h
  unfold registerFormulas
  rw [run_bind_ok hextract, hafter]
  simp only [hattach]
  rfl

theorem registerFormulas_of_error {r r' : Run} {err : CheckError} (h : c.extract m e r = (.error err, r')) :
    c.registerFormulas m e r = (.error err, r') := by
  have hextract : outcome (c.extract m e) r = .error err := congrArg Prod.fst h
  have hafter : after (c.extract m e) r = r' := congrArg Prod.snd h
  unfold registerFormulas
  rw [run_bind_error hextract, hafter]

/-- A placeholder is paired with the name at its place. -/
theorem lookup_zip_mem {name : String} (h : name ∈ found.map Prod.fst) (hlength : found.length = names.length) :
    ∃ new ∈ names, ((found.map Prod.fst).zip names).lookup name = some new := by
  induction found generalizing names with
  | nil => cases h
  | cons p rest ih =>
    cases names with
    | nil => cases hlength
    | cons new names =>
      rw [List.map_cons, List.zip_cons_cons, List.lookup_cons]
      by_cases hname : name = p.1
      · rw [beq_iff_eq.mpr hname]
        exact ⟨new, List.mem_cons_self, rfl⟩
      · rw [beq_eq_false_iff_ne.mpr hname]
        rw [List.map_cons, List.mem_cons] at h
        obtain ⟨other, hother, hlookup⟩ := ih (h.resolve_left hname) (Nat.succ.inj hlength)
        exact ⟨other, List.mem_cons_of_mem new hother, hlookup⟩

/-- Every label of the expression that an extraction has left is renamed to one of the new labels. -/
theorem Registered.closed {e' : Expr} (h : Registered m defined found names m') (he' : e'.Throughout found.Closes) :
    (e'.renameLabels fun name => (((found.map Prod.fst).zip names).lookup name).getD name).Throughout
      fun a => ∀ name, a = .label name → name ∈ names := by
  rintro a ha name rfl
  obtain ⟨b, hb, hrenamed⟩ := ha.exists_renamed
  obtain ⟨old, rfl, hname⟩ := Expr.label_of_renameLabels hrenamed
  obtain ⟨states, hstates⟩ := he' _ hb
  obtain ⟨new, hnew, hlookup⟩ := lookup_zip_mem (List.mem_map_of_mem hstates) h.attached.length_eq
  rw [hlookup] at hname
  rw [← hname]
  exact hnew

/-- Registering formulas in place leaves the model as it was if it fails. Otherwise nothing but labels changes: there is
one more for each set that was extracted, in this order, under the first name that is free at that moment; the new names
are different from one another, from all old ones and from all that are defined elsewhere, so each old label keeps its
states; and the new expression has no other labels. The search for a name ends whatever names are taken, as long as the
counter can count them. -/
theorem registerFormulas_atomic (c : Checker) (m : Model) (e : Expr) (r : Run) :
    (∀ err r', c.registerFormulas m e r = (.error err, r') → c.registerInPlace e m r = (.error err, m, r')) ∧
    (∀ e' m' r', c.registerFormulas m e r = (.ok (e', m'), r') →
      c.registerInPlace e m r = (.ok e', m', r') ∧ ∃ extracted found names,
        outcome (c.extract m e) r = .ok (extracted, found) ∧
        Registered m c.definitions.labelNames found names m' ∧ names.Nodup ∧
        (∀ name ∈ names, m.hasLabel name = false ∧ name ∉ c.definitions.labelNames) ∧
        (∀ name states, m.labelStates? name = some states → m'.labelStates? name = some states) ∧
        e' = extracted.renameLabels (fun name => (((found.map Prod.fst).zip names).lookup name).getD name) ∧
        e'.Throughout fun a => ∀ name, a = .label name → name ∈ names) ∧
    ∀ base taken, taken.dedup.length < 2 ^ 31 → ∃ k ≤ taken.dedup.length,
      (Model.Search.round base taken)^[k + 1] (.trying base 0) = .done (Model.freshName base taken) := by
  refine ⟨fun err r' h => ?_, fun e' m' r' h => ?_, fun base taken => Model.Search.finds base⟩
  · rcases hextract : c.extract m e r with ⟨err' | ⟨e₀, found⟩, r₁⟩
    · rw [registerFormulas_of_error hextract] at h
      cases h
      simp only [registerInPlace, hextract]
    · -- Once the extraction has succeeded nothing can fail.
      obtain ⟨names, m', -, -, hrun⟩ := run_registerFormulas hextract
      rw [hrun] at h
      cases h
  · rcases hextract : c.extract m e r with ⟨err' | ⟨e₀, found⟩, r₁⟩
    · rw [registerFormulas_of_error hextract] at h
      cases h
    · obtain ⟨names, m₁, hregistered, hattach, hrun⟩ := run_registerFormulas hextract
      rw [hrun] at h
      cases h
      have hclosed : e₀.Throughout found.Closes := (extract_wellExtracted hextract).closed
      refine ⟨?_, e₀, found, names, congrArg Prod.fst hextract, hregistered, hregistered.nodup, hregistered.fresh,
        fun name states hold => ?_, rfl, hregistered.closed hclosed⟩
      · simp only [registerInPlace, hextract, attachInPlace_of_ok hattach]
      · have hnew : name ∉ names := fun hmem => by
          have hfresh := (hregistered.fresh name hmem).1
          rw [Model.hasLabel, NameMap.contains, show m.labels.get? name = some states from hold] at hfresh
          cases hfresh
        rw [hregistered.others name hnew]
        exact hold

/-- The two states get one label, which the new condition needs; had the model had it already, the search would have
gone on to the next name. -/
theorem registerFormulas_atomic_pickSeven :
    (∃ found names, Registered .twoStates [] found names .twoStatesLabelled ∧ "phi" ∈ names) ∧
      ∃ k ≤ 1, (Model.Search.round "phi" ["phi"])^[k + 1] (.trying "phi" 0) = .done "phi_0" := by
  obtain ⟨-, hsuccess, hsearch⟩ := registerFormulas_atomic bare .twoStates .pickSeven .start
  obtain ⟨-, _, found, names, -, hregistered, -, -, -, -, hclosed⟩ :=
    hsuccess _ _ _ (Prod.ext registerFormulas_pickSeven rfl)
  refine ⟨⟨found, names, hregistered, ?_⟩, hsearch "phi" ["phi"] (by decide)⟩
  exact hclosed (.label "phi") (.step List.mem_cons_self (.refl _)) "phi" rfl

end Checker

end Statewise
