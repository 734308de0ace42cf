import Statewise.Proofs.Extraction

/-!
# The labels that extraction makes

An extraction leaves an expression without references whose labels are exactly those that were made. They are
numbered in the order of their making, stand for different sets, and never for the empty or the full one. What stands
in the place of a maximal state formula stands for the very set that the formula had over all states when it was
evaluated. The extraction is a fold over the expression: one lemma says what it does to a state formula, and
two how what was done to expressions in a row is put together.
-/

namespace Statewise

open Check

/-! ## Lists of labels -/

namespace Found

/-- The set holds in some states, but not in exactly the states of the model. -/
def IsProper (n : Nat) (states : StateSet) : Prop := (∃ s, s ∈ states) ∧ ¬∀ s, s ∈ states ↔ s < n

/-- The labels are numbered, and stand for different sets that are neither empty nor full. -/
structure WellFormed (n : Nat) (found : Found) : Prop where
  numbered : found.Numbered
  distinct : (found.map Prod.snd).Nodup
  proper : ∀ p ∈ found, IsProper n p.2

theorem wellFormed_nil (n : Nat) : WellFormed n [] := ⟨rfl, .nil, fun _ hp => absurd hp List.not_mem_nil⟩

theorem WellFormed.labelFor {n : Nat} {found : Found} {states : StateSet} (h : found.WellFormed n)
    (hstates : IsProper n states) : (found.labelFor states).2.WellFormed n := by
  rcases found.labelFor_cases states with ⟨name, -, heq⟩ | ⟨hnew, heq⟩ <;> rw [heq]
  · exact h
  · refine ⟨h.numbered.append states, ?_, fun p hp => ?_⟩
    · rw [List.map_append]
      exact List.nodup_append'.mpr ⟨h.distinct, List.nodup_singleton _, by simpa using hnew⟩
    · rcases List.mem_append.mp hp with hp | hp
      · exact h.proper p hp
      · rw [List.mem_singleton.mp hp]
        exact hstates

/-- What stands for a set of states: a truth value for the empty and the full set, else one of the labels. -/
inductive Stands (labels : Found) (n : Nat) (states : StateSet) : Expr → Prop where
  | nowhere (h : ∀ s, s ∉ states) : Stands labels n states .falsity
  | everywhere (h : ∀ s, s ∈ states ↔ s < n) : Stands labels n states .truth
  | label {name : String} (h : (name, states) ∈ labels) : Stands labels n states (.label name)

theorem Stands.mono {labels labels' : Found} (hsub : ∀ p ∈ labels, p ∈ labels') {n : Nat} {states : StateSet}
    {e : Expr} (h : labels.Stands n states e) : labels'.Stands n states e := by
  cases h with
  | nowhere h => exact .nowhere h
  | everywhere h => exact .everywhere h
  | label h => exact .label (hsub _ h)

/-- The expression is no reference to a property, and if it is a label then one of these. -/
def Closes (labels : Found) : Expr → Prop
  | .label name => ∃ states, (name, states) ∈ labels
  | .property .. => False
  | _ => True

theorem Closes.mono {labels labels' : Found} (hsub : ∀ p ∈ labels, p ∈ labels') {e : Expr} (h : labels.Closes e) :
    labels'.Closes e := by
  unfold Closes at h ⊢
  split
  · obtain ⟨states, hmem⟩ := h
    exact ⟨states, hsub _ hmem⟩
  · exact h
  · trivial

/-- What a pass that has made the expressions out of others has done to the labels: those that it has added occur in
the expressions, and these have no others. -/
structure Generates (n : Nat) (found found' : Found) (es : List Expr) : Prop where
  sub : ∀ p ∈ found, p ∈ found'
  wellFormed : found.WellFormed n → found'.WellFormed n
  closed : Expr.AllThroughout found'.Closes es
  occurs : ∀ p ∈ found', p ∈ found ∨ ∃ e ∈ es, (Expr.label p.1).Within e

variable {n : Nat} {found found' found'' : Found}

theorem Generates.nil (n : Nat) (found : Found) : Generates n found found [] :=
  ⟨fun _ hp => hp, fun h => h, Expr.allThroughout_nil, fun _ hp => Or.inl hp⟩

theorem Generates.cons {e : Expr} {es : List Expr} (he : Generates n found found' [e])
    (hes : Generates n found' found'' es) : Generates n found found'' (e :: es) := by
  refine ⟨fun p hp => hes.sub p (he.sub p hp), fun h => hes.wellFormed (he.wellFormed h),
    Expr.allThroughout_cons.mpr ⟨fun a ha => ?_, hes.closed⟩, fun p hp => ?_⟩
  · exact ((Expr.allThroughout_cons.mp he.closed).1 a ha).mono hes.sub
  · rcases hes.occurs p hp with hp | ⟨a, ha, hwithin⟩
    · rcases he.occurs p hp with hp | ⟨a, ha, hwithin⟩
      · exact Or.inl hp
      · rw [List.mem_singleton.mp ha] at hwithin
        exact Or.inr ⟨e, List.mem_cons_self, hwithin⟩
    · exact Or.inr ⟨a, List.mem_cons_of_mem e ha, hwithin⟩

/-- A set is replaced by what stands for it. -/
theorem replace_generates (found : Found) (n : Nat) (states : StateSet) :
    Generates n found (found.replace n states).2 [(found.replace n states).1] ∧
      (found.replace n states).2.Stands n states (found.replace n states).1 := by
  have hleaf : ∀ {labels : Found} {e : Expr}, e.children = [] → labels.Closes e →
      Expr.AllThroughout labels.Closes [e] := by
    intro labels e hchildren hself
    refine Expr.allThroughout_cons.mpr ⟨Expr.throughout_iff.mpr ⟨hself, ?_⟩, Expr.allThroughout_nil⟩
    rw [hchildren]
    exact Expr.allThroughout_nil
  unfold replace
  cases hempty : states.isEmpty with
  | true =>
    rw [if_pos rfl]
    exact ⟨⟨fun _ hp => hp, fun h => h, hleaf rfl trivial, fun _ hp => Or.inl hp⟩,
      .nowhere (StateSet.isEmpty_iff.mp hempty)⟩
  | false =>
    rw [if_neg Bool.false_ne_true]
    cases hfull : states.isFull n with
    | true =>
      rw [if_pos rfl]
      exact ⟨⟨fun _ hp => hp, fun h => h, hleaf rfl trivial, fun _ hp => Or.inl hp⟩,
        .everywhere (StateSet.isFull_iff.mp hfull)⟩
    | false =>
      rw [if_neg Bool.false_ne_true]
      have hproper : IsProper n states := by
        refine ⟨StateSet.isEmpty_eq_false_iff.mp hempty, fun h => ?_⟩
        rw [StateSet.isFull_iff.mpr h] at hfull
        cases hfull
      rcases hlabel : found.labelFor states with ⟨name, labels⟩
      have hwell : found.WellFormed n → labels.WellFormed n := by
        intro h
        have := h.labelFor hproper
        rwa [hlabel] at this
      rcases found.labelFor_cases states with ⟨name', hmem, heq⟩ | ⟨-, heq⟩
      · rw [hlabel] at heq
        cases heq
        exact ⟨⟨fun _ hp => hp, hwell, hleaf rfl ⟨states, hmem⟩, fun _ hp => Or.inl hp⟩, .label hmem⟩
      · rw [hlabel] at heq
        cases heq
        have hmem : ("L" ++ toString found.length, states) ∈ found ++ [("L" ++ toString found.length, states)] := by
          simp
        refine ⟨⟨fun p hp => List.mem_append_left _ hp, hwell, hleaf rfl ⟨states, hmem⟩, fun p hp => ?_⟩,
          .label hmem⟩
        rcases List.mem_append.mp hp with hp | hp
        · exact Or.inl hp
        · rw [List.mem_singleton.mp hp]
          exact Or.inr ⟨_, List.mem_cons_self, .refl _⟩

end Found

/-! ## Expressions put back together -/

namespace Expr

variable {e : Expr} {es : List Expr}

theorem children_withChildren (h : es.length = e.children.length) : (e.withChildren es).children = es := by
  cases e with
  | ite cond t e =>
    obtain ⟨a, b, d, rfl⟩ := List.length_eq_three.mp h
    rfl
  | binary op l r =>
    obtain ⟨a, b, rfl⟩ := List.length_eq_two.mp h
    rfl
  | unary op e =>
    obtain ⟨a, rfl⟩ := List.length_eq_one_iff.mp h
    rfl
  | quant measure query e =>
    obtain ⟨a, rfl⟩ := List.length_eq_one_iff.mp h
    rfl
  | formula name d t =>
    cases d with
    | none => rw [List.length_eq_zero_iff.mp h]; rfl
    | some d =>
      obtain ⟨a, rfl⟩ := List.length_eq_one_iff.mp h
      rfl
  | filter op e p invisible explained =>
    cases p with
    | none =>
      obtain ⟨a, rfl⟩ := List.length_eq_one_iff.mp h
      rfl
    | some p =>
      obtain ⟨a, b, rfl⟩ := List.length_eq_two.mp h
      rfl
  | call f args => rfl
  | path op operands bound => rfl
  | _ => rw [List.length_eq_zero_iff.mp h]; rfl

/-- Other subexpressions do not make a label or a reference of an expression that is none. -/
theorem closes_withChildren {labels : Found} (hl : ∀ name, e ≠ .label name) (hp : ∀ name t, e ≠ .property name t) :
    labels.Closes (e.withChildren es) := by
  unfold withChildren
  split <;> first
  | trivial
  | unfold Found.Closes
    split
    · exact absurd rfl (hl _)
    · exact absurd rfl (hp _ _)
    · trivial

end Expr

/-- Labels made in the direct subexpressions are made in the expression. -/
theorem Found.Generates.withChildren {n : Nat} {found found' : Found} {e : Expr} {es : List Expr}
    (h : Generates n found found' es) (hlength : es.length = e.children.length) (hl : ∀ name, e ≠ .label name)
    (hp : ∀ name t, e ≠ .property name t) : Generates n found found' [e.withChildren es] := by
  have hchildren := Expr.children_withChildren hlength
  refine ⟨h.sub, h.wellFormed, Expr.allThroughout_cons.mpr ⟨?_, Expr.allThroughout_nil⟩, fun p hp' => ?_⟩
  · refine Expr.throughout_iff.mpr ⟨Expr.closes_withChildren hl hp, ?_⟩
    rw [hchildren]
    exact h.closed
  · rcases h.occurs p hp' with hp' | ⟨a, ha, hwithin⟩
    · exact Or.inl hp'
    · refine Or.inr ⟨_, List.mem_cons_self, .step (b := a) ?_ hwithin⟩
      rwa [hchildren]

/-! ## What is replaced by what -/

namespace Checker

mutual

/-- The second expression is the first one with every maximal state formula replaced by what stands for the set that
it has over all states, when it is evaluated in its turn; references to properties are replaced by what they stand
for. The runs are those before and after the evaluations. -/
inductive Rewritten (c : Checker) (m : Model) (labels : Found) : Entered → Expr → Run → Expr → Run → Prop where
  | formula {entered : Entered} {e e' : Expr} {r r' : Run} {v : StateVector} {states : StateSet}
      (he : e.type = .bool ∧ e.isProposition = true) (hv : c.eval m entered e none r = (.ok v, r'))
      (hstates : v.satisfaction = .ok states) (hstands : labels.Stands m.numStates states e') :
      Rewritten c m labels entered e r e' r'
  | property {entered : Entered} {name : String} {t : ValueType} {body e' : Expr} {r r' : Run}
      (hd : c.definitions.property? name = some body)
      (hbody : Rewritten c m labels (entered.property name) body r e' r') :
      Rewritten c m labels entered (.property name t) r e' r'
  | inside {entered : Entered} {e : Expr} {es : List Expr} {r r' : Run}
      (he : ¬(e.type = .bool ∧ e.isProposition = true)) (hp : ∀ name t, e ≠ .property name t)
      (hes : RewrittenAll c m labels entered e.children r es r') :
      Rewritten c m labels entered e r (e.withChildren es) r'

/-- The same for expressions in a row, from left to right. -/
inductive RewrittenAll (c : Checker) (m : Model) (labels : Found) :
    Entered → List Expr → Run → List Expr → Run → Prop where
  | nil {entered : Entered} {r : Run} : RewrittenAll c m labels entered [] r [] r
  | cons {entered : Entered} {e e' : Expr} {es es' : List Expr} {r r₁ r' : Run}
      (he : Rewritten c m labels entered e r e' r₁) (hes : RewrittenAll c m labels entered es r₁ es' r') :
      RewrittenAll c m labels entered (e :: es) r (e' :: es') r'

end

/-- What an extraction from an expression, between two runs, has yielded: its labels are `L0`, `L1`, … in this order,
stand for different sets, and for none that is empty or full; they are the labels of the new expression, in which
no reference is left; and the new expression stands for the old one. -/
structure WellExtracted (c : Checker) (m : Model) (entered : Entered) (e : Expr) (r : Run) (e' : Expr) (labels : Found)
    (r' : Run) : Prop where
  numbered : labels.Numbered
  distinct : (labels.map Prod.snd).Nodup
  proper : ∀ p ∈ labels, Found.IsProper m.numStates p.2
  closed : e'.Throughout labels.Closes
  occurs : ∀ p ∈ labels, (Expr.label p.1).Within e'
  rewritten : Rewritten c m labels entered e r e' r'

variable {c : Checker} {m : Model} {entered : Entered}

/-! ## Extraction -/

/-- What a pass over expressions in a row has done. Labels that come later do not matter to it. -/
structure Extraction (c : Checker) (m : Model) (entered : Entered) (found : Found) (es : List Expr) (r : Run)
    (es' : List Expr) (found' : Found) (r' : Run) : Prop where
  length_eq : es'.length = es.length
  generates : Found.Generates m.numStates found found' es'
  rewritten : ∀ labels : Found, (∀ p ∈ found', p ∈ labels) → RewrittenAll c m labels entered es r es' r'

theorem Extraction.nil (found : Found) (r : Run) : Extraction c m entered found [] r [] found r :=
  ⟨rfl, .nil _ found, fun _ _ => .nil⟩

theorem Extraction.cons {found found' found'' : Found} {e e' : Expr} {es es' : List Expr} {r r₁ r' : Run}
    (he : Extraction c m entered found [e] r [e'] found' r₁)
    (hes : Extraction c m entered found' es r₁ es' found'' r') :
    Extraction c m entered found (e :: es) r (e' :: es') found'' r' := by
  refine ⟨congrArg Nat.succ hes.length_eq, he.generates.cons hes.generates, fun labels hsub => ?_⟩
  rcases he.rewritten labels fun p hp => hsub p (hes.generates.sub p hp) with _ | ⟨hfirst, ⟨⟩⟩
  exact .cons hfirst (hes.rewritten labels hsub)

/-- Every extraction from the expression does so. -/
def ExtractsWell (c : Checker) (m : Model) (entered : Entered) (e : Expr) : Prop :=
  ∀ found r e' found' r', c.extractFrom .whereOpen m entered found e r = (.ok (e', found'), r') →
    Extraction c m entered found [e] r [e'] found' r'

theorem proposition_extractsWell {e : Expr} (he : e.type = .bool ∧ e.isProposition = true) :
    ExtractsWell c m entered e := by
  intro found r e' found' r' h
  rw [extractFrom_proposition .whereOpen c m entered found he] at h
  obtain ⟨states, r₁, hsat, h⟩ := run_bind_eq_ok h
  obtain ⟨v, r₂, hv, hofEval⟩ := run_bind_eq_ok hsat
  obtain ⟨hstates, rfl⟩ := run_ofEval_eq_ok hofEval
  obtain ⟨hreplace, rfl⟩ := run_pure_eq_ok h
  obtain ⟨hgenerates, hstands⟩ := found.replace_generates m.numStates states
  rw [hreplace] at hgenerates hstands
  exact ⟨rfl, hgenerates, fun labels hsub => .cons (.formula he hv hstates (hstands.mono hsub)) .nil⟩

/-- The first expression is taken before the others. -/
theorem extractFromAll_cons_eq_ok {e : Expr} {rest es' : List Expr} {found found' : Found} {r r' : Run}
    (h : c.extractFromAll .whereOpen m entered found (e :: rest) r = (.ok (es', found'), r')) :
    ∃ e₁ found₁ r₁ rest₁, es' = e₁ :: rest₁ ∧ c.extractFrom .whereOpen m entered found e r = (.ok (e₁, found₁), r₁) ∧
      c.extractFromAll .whereOpen m entered found₁ rest r₁ = (.ok (rest₁, found'), r') := by
  rw [extractFromAll_cons] at h
  obtain ⟨⟨e₁, found₁⟩, r₁, he, h⟩ := run_bind_eq_ok h
  obtain ⟨⟨rest₁, found₂⟩, r₂, hrest, h⟩ := run_bind_eq_ok h
  cases h
  exact ⟨e₁, found₁, r₁, rest₁, rfl, he, hrest⟩

theorem extractFromAll_extraction {es : List Expr} (hes : ∀ e ∈ es, ExtractsWell c m entered e) {found found' : Found}
    {r r' : Run} {es' : List Expr}
    (h : c.extractFromAll .whereOpen m entered found es r = (.ok (es', found'), r')) :
    Extraction c m entered found es r es' found' r' := by
  induction es generalizing found r es' with
  | nil =>
    rw [extractFromAll_nil] at h
    cases h
    exact Extraction.nil _ _
  | cons e rest ih =>
    obtain ⟨e₁, found₁, r₁, rest₁, rfl, he, hrest⟩ := extractFromAll_cons_eq_ok h
    exact (hes e List.mem_cons_self found r e₁ found₁ r₁ he).cons
      (ih (fun a ha => hes a (List.mem_cons_of_mem e ha)) hrest)

/-- The traversal of the direct subexpressions of an expression that stays. -/
theorem inside_extractsWell {e : Expr} (he : ¬(e.type = .bool ∧ e.isProposition = true))
    (hp : ∀ name t, e ≠ .property name t) (hes : ∀ a ∈ e.children, ExtractsWell c m entered a) :
    ExtractsWell c m entered e := by
  intro found r e' found' r' h
  rw [extractFrom_children .whereOpen c m entered found he hp, extractFromChildren_eq] at h
  obtain ⟨⟨es, found₁⟩, r₁, hall, h⟩ := run_bind_eq_ok h
  cases h
  have hall := extractFromAll_extraction hes hall
  have hl : ∀ name, e ≠ .label name := fun name heq => he (heq ▸ ⟨rfl, rfl⟩)
  refine ⟨rfl, hall.generates.withChildren hall.length_eq hl hp, fun labels hsub => ?_⟩
  exact .cons (.inside he hp (hall.rewritten labels hsub)) .nil

/-- Extraction from a reference is extraction from what the property stands for. -/
theorem extractFrom_reference_eq_ok {name : String} {t : ValueType} {found found' : Found} {e' : Expr} {r r' : Run}
    (h : c.extractFrom .whereOpen m entered found (.property name t) r = (.ok (e', found'), r')) :
    ∃ body, c.definitions.property? name = some body ∧ entered.properties.contains name = false ∧
      c.extractFrom .whereOpen m (entered.property name) found body r = (.ok (e', found'), r') := by
  cases hd : c.definitions.property? name with
  | none =>
    rw [extractFrom_unknownProperty .whereOpen c m entered found t hd] at h
    cases h
  | some body =>
    cases hn : entered.properties.contains name with
    | true =>
      rw [extractFrom_cyclicProperty .whereOpen c m entered found t hd hn] at h
      cases h
    | false =>
      rw [extractFrom_definedProperty .whereOpen c m entered found t hd hn] at h
      exact ⟨body, rfl, rfl, h⟩

/-- A reference is gone when what it stands for has been extracted from. -/
theorem property_extractsWell {name : String} {t : ValueType}
    (hbody : ∀ body, c.definitions.property? name = some body → entered.properties.contains name = false →
      ExtractsWell c m (entered.property name) body) : ExtractsWell c m entered (.property name t) := by
  intro found r e' found' r' h
  obtain ⟨body, hd, hn, h⟩ := extractFrom_reference_eq_ok h
  have hextraction := hbody body hd hn found r e' found' r' h
  refine ⟨rfl, hextraction.generates, fun labels hsub => ?_⟩
  rcases hextraction.rewritten labels hsub with _ | ⟨hfirst, ⟨⟩⟩
  exact .cons (.property hd hfirst) .nil

theorem extractFrom_extractsWell (c : Checker) (m : Model) (entered : Entered) (e : Expr) :
    ExtractsWell c m entered e := by
  refine c.definitions.expansion_induction (P := ExtractsWell c m) (fun entered e ih => ?_) entered e
  by_cases hreference : ∃ name t, e = .property name t
  · obtain ⟨name, t, rfl⟩ := hreference
    exact property_extractsWell fun body hd hn => ih _ (Definitions.mem_successors_of_property hd hn)
  · by_cases he : e.type = .bool ∧ e.isProposition = true
    · exact proposition_extractsWell he
    · exact inside_extractsWell he (fun name t h => hreference ⟨name, t, h⟩)
        fun a ha => ih (entered, a) (Definitions.mem_successors_of_child ha)

theorem extractFromAll_extractsWell {es es' : List Expr} {found found' : Found} {r r' : Run}
    (h : c.extractFromAll .whereOpen m entered found es r = (.ok (es', found'), r')) :
    Extraction c m entered found es r es' found' r' :=
  extractFromAll_extraction (fun a _ => extractFrom_extractsWell c m entered a) h

/-- An extraction that starts without labels. -/
theorem wellExtracted {e e' : Expr} {labels : Found} {r r' : Run}
    (h : c.extractFrom .whereOpen m entered [] e r = (.ok (e', labels), r')) :
    WellExtracted c m entered e r e' labels r' := by
  have hextraction := extractFrom_extractsWell c m entered e [] r e' labels r' h
  have hwell := hextraction.generates.wellFormed (Found.wellFormed_nil _)
  refine ⟨hwell.numbered, hwell.distinct, hwell.proper, (Expr.allThroughout_cons.mp hextraction.generates.closed).1,
    fun p hp => ?_, ?_⟩
  · rcases hextraction.generates.occurs p hp with hp | ⟨a, ha, hwithin⟩
    · exact absurd hp List.not_mem_nil
    · rwa [List.mem_singleton.mp ha] at hwithin
  · rcases hextraction.rewritten labels fun _ hp => hp with _ | ⟨hfirst, ⟨⟩⟩
    exact hfirst

end Checker

end Statewise
