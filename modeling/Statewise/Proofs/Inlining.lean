import Statewise.Proofs.Naming

/-!
# Formulas behind references

An extraction decides from the top whether an expression is a state formula, and references to properties are inlined
when they are reached only. Hence an expression that becomes a state formula by inlining stays, with its operands
replaced one by one. What an extraction yields has no state formula left, apart from truth values and its labels,
exactly if no formula hides behind references in this way; and then another extraction changes nothing but the names
of labels. Since no reference is left, the second extraction is always complete.
-/

namespace Statewise

open Check

namespace Expr

/-- What an extraction replaces. -/
abbrev IsFormula (e : Expr) : Prop := e.type = .bool ∧ e.isProposition = true

def IsReference (e : Expr) : Prop := ∃ name t, e = .property name t

/-! ## Expressions with other operands -/

variable {e : Expr} {es : List Expr}

theorem types_eq_map (es : List Expr) : types es = es.map type := by
  induction es with
  | nil => rfl
  | cons e es ih => rw [types, ih, List.map_cons]

theorem arePropositions_eq_all (es : List Expr) : arePropositions es = es.all isProposition := by
  induction es with
  | nil => rfl
  | cons e es ih => rw [arePropositions, ih, List.all_cons]

/-- The type of the expression when its operands have the given types. -/
def typeOver (e : Expr) (ts : List ValueType) : ValueType :=
  let operand (i : Nat) := ts.getD i .bool
  match e with
  | ite .. => (operand 1).choice (operand 2)
  | binary op .. => op.resultType (operand 0) (operand 1)
  | unary op _ => op.resultType (operand 0)
  | filter op .. => op.resultType (operand 0)
  | call f _ => f.resultType ts
  | formula _ (some _) _ => operand 0
  | literal v => v.type
  | constant _ t | ident _ t | var _ _ t | observable _ t | property _ t | formula _ none t => t
  | quant _ q _ => q.resultType
  | label _ | path .. => .bool

theorem typeOver_withChildren (e : Expr) (es : List Expr) : (e.withChildren es).typeOver = e.typeOver := by
  unfold withChildren
  split <;> rfl

theorem type_eq (e : Expr) : e.type = e.typeOver (e.children.map type) := by
  cases e with
  | call f args => exact congrArg f.resultType (types_eq_map args)
  | formula name d t => cases d <;> rfl
  | filter op e p invisible explained => cases p <;> rfl
  | _ => rfl

theorem type_withChildren (hlength : es.length = e.children.length) :
    (e.withChildren es).type = e.typeOver (es.map type) := by
  rw [type_eq, typeOver_withChildren, children_withChildren hlength]

/-- Whether the expression is a proposition as far as its outermost operator is concerned. -/
def admitsProposition : Expr → Bool
  | property .. | filter .. | quant .. | path .. => false
  | call f _ => f != .multi
  | _ => true

theorem admitsProposition_withChildren (e : Expr) (es : List Expr) :
    (e.withChildren es).admitsProposition = e.admitsProposition := by
  unfold withChildren
  split <;> rfl

theorem isProposition_eq (e : Expr) : e.isProposition = (e.admitsProposition && e.children.all isProposition) := by
  cases e with
  | call f args => exact congrArg (f != .multi && ·) (arePropositions_eq_all args)
  | formula name d t => cases d <;> simp [isProposition, isPropositionD, admitsProposition, children]
  | _ => simp [isProposition, admitsProposition, children, Bool.and_assoc]

theorem isProposition_withChildren (hlength : es.length = e.children.length) :
    (e.withChildren es).isProposition = (e.admitsProposition && es.all isProposition) := by
  rw [isProposition_eq, admitsProposition_withChildren, children_withChildren hlength]

theorem withChildren_children (e : Expr) : e.withChildren e.children = e := by
  cases e with
  | formula name d t => cases d <;> rfl
  | filter op e p invisible explained => cases p <;> rfl
  | _ => rfl

/-- A literal, a label or a reference, none of which has operands. -/
def IsAtom : Expr → Prop
  | literal _ | label _ | property .. => True
  | _ => False

/-- No operator becomes an atom. -/
theorem eq_of_withChildren {a : Expr} (ha : a.IsAtom) (h : e.withChildren es = a) : e = a := by
  subst h
  unfold withChildren at ha ⊢
  split at ha <;> first
  | cases ha
  | rfl

/-! ## Renamed labels -/

variable {f : String → String}

/-- Operands with renamed labels can be put back. -/
theorem withChildren_renameLabels (hl : ∀ name, e ≠ .label name) (hlength : es.length = e.children.length) :
    ((e.withChildren es).renameLabels f).withChildren es = e.withChildren es := by
  cases e with
  | label name => exact absurd rfl (hl name)
  | ite cond t e =>
    obtain ⟨a, b, d, rfl⟩ := List.length_eq_three.mp hlength
    rfl
  | binary op l r =>
    obtain ⟨a, b, rfl⟩ := List.length_eq_two.mp hlength
    rfl
  | unary op e =>
    obtain ⟨a, rfl⟩ := List.length_eq_one_iff.mp hlength
    rfl
  | quant measure query e =>
    obtain ⟨a, rfl⟩ := List.length_eq_one_iff.mp hlength
    rfl
  | formula name d t =>
    cases d with
    | none => rfl
    | some d =>
      obtain ⟨a, rfl⟩ := List.length_eq_one_iff.mp hlength
      rfl
  | filter op e p invisible explained =>
    cases p with
    | none =>
      obtain ⟨a, rfl⟩ := List.length_eq_one_iff.mp hlength
      rfl
    | some p =>
      obtain ⟨a, b, rfl⟩ := List.length_eq_two.mp hlength
      rfl
  | _ => rfl

theorem admitsProposition_renameLabels (e : Expr) : (e.renameLabels f).admitsProposition = e.admitsProposition := by
  cases e <;> rfl

theorem isProposition_renameLabels (e : Expr) : (e.renameLabels f).isProposition = e.isProposition := by
  rw [isProposition_eq, isProposition_eq e, admitsProposition_renameLabels, children_renameLabels, List.all_map]
  congr 1
  rw [Bool.eq_iff_iff, List.all_eq_true, List.all_eq_true]
  refine forall₂_congr fun a ha => ?_
  have := sizeOf_lt_of_mem_children ha
  rw [Function.comp, isProposition_renameLabels a]
termination_by sizeOf e

theorem isFormula_renameLabels_iff : (e.renameLabels f).IsFormula ↔ e.IsFormula := by
  unfold IsFormula
  rw [type_renameLabels, isProposition_renameLabels]

theorem isReference_of_renameLabels (h : (e.renameLabels f).IsReference) : e.IsReference := by
  obtain ⟨name, t, h⟩ := h
  cases e with
  | property name t => exact ⟨name, t, rfl⟩
  | _ => cases h

/-! ## References -/

theorem not_isReference_of_isProposition (h : e.isProposition = true) : ¬e.IsReference := by
  rintro ⟨name, t, rfl⟩
  cases h

/-- A proposition has propositions as operands, so there is no reference in it. -/
theorem throughout_not_isReference {e : Expr} (h : e.isProposition = true) : e.Throughout fun a => ¬a.IsReference := by
  intro a ha
  refine not_isReference_of_isProposition ?_
  induction ha with
  | refl => exact h
  | step hb _ ih =>
    rw [isProposition_eq, Bool.and_eq_true, List.all_eq_true] at h
    exact ih (h.2 _ hb)

/-- Other labels bring no reference. -/
theorem Throughout.noReference_renameLabels (h : e.Throughout fun a => ¬a.IsReference) :
    (e.renameLabels f).Throughout fun a => ¬a.IsReference := by
  intro a ha hr
  obtain ⟨b, hb, rfl⟩ := ha.exists_renamed
  exact h b hb (isReference_of_renameLabels hr)

end Expr

namespace Definitions

variable {d : Definitions} {entered : Entered} {e a : Expr}

/-- The expression with references replaced by the bodies of their properties. A reference that is unknown or runs into
itself stays. -/
def inline (d : Definitions) (entered : Entered) (e : Expr) : Expr :=
  match e with
  | .property name t =>
    match hd : d.property? name with
    | none => .property name t
    | some body =>
      if hn : entered.properties.contains name then .property name t
      else
        have := Definitions.remaining_property_lt hd (by simpa using hn)
        d.inline (entered.property name) body
  | e => e.withChildren (e.children.attach.map fun ⟨a, ha⟩ =>
      have := Expr.sizeOf_lt_of_mem_children ha
      d.inline entered a)
termination_by (d.remaining entered, sizeOf e)

theorem inline_property {name : String} {t : ValueType} {body : Expr} (hd : d.property? name = some body)
    (hn : entered.properties.contains name = false) :
    d.inline entered (.property name t) = d.inline (entered.property name) body := by
  rw [inline]
  split
  · next h => rw [hd] at h; cases h
  · next body' h =>
    rw [hd] at h
    cases h
    rw [dif_neg (by simpa using hn)]

theorem inline_operands (he : ¬e.IsReference) :
    d.inline entered e = e.withChildren (e.children.map (d.inline entered)) := by
  rw [inline]
  · simp
  · exact fun name t h => he ⟨name, t, h⟩

/-- Where there is no reference there is nothing to inline. -/
theorem inline_eq_self (he : e.Throughout fun a => ¬a.IsReference) : d.inline entered e = e := by
  induction entered, e using d.expansion_induction with
  | step entered e ih =>
    have hsame : e.children.map (d.inline entered) = e.children := by
      rw [List.map_congr_left fun a ha => ih (entered, a) (mem_successors_of_child ha) (he.child ha), List.map_id']
    rw [inline_operands he.self, hsame, Expr.withChildren_children]

/-- An extraction comes to an expression that is no state formula but becomes one when references are inlined. -/
inductive Hides (d : Definitions) : Entered → Expr → Prop where
  | here {entered : Entered} {e : Expr} (hr : ¬e.IsReference) (he : ¬e.IsFormula)
      (hinlined : (d.inline entered e).IsFormula) : Hides d entered e
  | inside {entered : Entered} {e a : Expr} (hr : ¬e.IsReference) (he : ¬e.IsFormula) (ha : a ∈ e.children)
      (h : Hides d entered a) : Hides d entered e
  | property {entered : Entered} {name : String} {t : ValueType} {body : Expr} (hd : d.property? name = some body)
      (hn : entered.properties.contains name = false) (h : Hides d (entered.property name) body) :
      Hides d entered (.property name t)

theorem hides_property_iff {name : String} {t : ValueType} {body : Expr} (hd : d.property? name = some body)
    (hn : entered.properties.contains name = false) :
    d.Hides entered (.property name t) ↔ d.Hides (entered.property name) body := by
  constructor
  · rintro (⟨hr, -, -⟩ | ⟨hr, -, -, -⟩ | ⟨hd', -, h⟩)
    · exact absurd ⟨_, _, rfl⟩ hr
    · exact absurd ⟨_, _, rfl⟩ hr
    · rw [hd] at hd'
      cases hd'
      exact h
  · exact .property hd hn

theorem hides_operator_iff (hr : ¬e.IsReference) (he : ¬e.IsFormula) :
    d.Hides entered e ↔ (d.inline entered e).IsFormula ∨ ∃ a ∈ e.children, d.Hides entered a := by
  constructor
  · rintro (⟨-, -, h⟩ | ⟨-, -, ha, h⟩ | ⟨-, -, -⟩)
    · exact .inl h
    · exact .inr ⟨_, ha, h⟩
    · exact absurd ⟨_, _, rfl⟩ hr
  · rintro (h | ⟨a, ha, h⟩)
    · exact .here hr he h
    · exact .inside hr he ha h

theorem not_hides_of_isFormula (he : e.IsFormula) : ¬d.Hides entered e := by
  rintro (⟨-, h, -⟩ | ⟨-, h, -, -⟩ | ⟨-, -, -⟩)
  · exact h he
  · exact h he
  · cases he.2

/-- Nothing hides where there is no reference. -/
theorem not_hides_of_noReference (he : e.Throughout fun a => ¬a.IsReference) : ¬d.Hides entered e := by
  intro h
  induction h with
  | here _ hnot hinlined =>
    rw [inline_eq_self he] at hinlined
    exact hnot hinlined
  | inside _ _ ha _ ih => exact ih (he.child ha)
  | property => exact he.self ⟨_, _, rfl⟩

end Definitions

/-! ## Completeness -/

namespace Found

variable {labels : Found} {e : Expr} {es : List Expr} {n : Nat}

/-- A truth value or one of the labels. -/
def IsStandIn (labels : Found) (a : Expr) : Prop := a = .truth ∨ a = .falsity ∨ ∃ p ∈ labels, a = .label p.1

/-- No state formula is left in the expression but truth values and the labels. -/
def Completes (labels : Found) (e : Expr) : Prop := e.Throughout fun a => a.IsFormula → labels.IsStandIn a

theorem Stands.isStandIn {states : StateSet} (h : labels.Stands n states e) : labels.IsStandIn e := by
  cases h with
  | nowhere h => exact .inr (.inl rfl)
  | everywhere h => exact .inl rfl
  | label h => exact .inr (.inr ⟨_, h, rfl⟩)

theorem IsStandIn.isFormula (h : labels.IsStandIn e) : e.IsFormula := by
  rcases h with rfl | rfl | ⟨p, -, rfl⟩ <;> exact ⟨rfl, rfl⟩

theorem IsStandIn.isAtom (h : labels.IsStandIn e) : e.IsAtom := by
  rcases h with rfl | rfl | ⟨p, -, rfl⟩ <;> exact trivial

theorem IsStandIn.completes (h : labels.IsStandIn e) : labels.Completes e := by
  refine Expr.throughout_iff.mpr ⟨fun _ => h, ?_⟩
  rcases h with rfl | rfl | ⟨p, -, rfl⟩ <;> exact Expr.allThroughout_nil

/-- An operator with other operands is neither a truth value nor a label. -/
theorem not_isStandIn_withChildren (he : ¬e.IsFormula) : ¬labels.IsStandIn (e.withChildren es) := by
  intro h
  have hsame := Expr.eq_of_withChildren h.isAtom rfl
  exact he (hsame ▸ h.isFormula)

theorem completes_withChildren_iff (he : ¬e.IsFormula) (hlength : es.length = e.children.length) :
    labels.Completes (e.withChildren es) ↔
      ¬(e.withChildren es).IsFormula ∧ Expr.AllThroughout (fun a => a.IsFormula → labels.IsStandIn a) es := by
  unfold Completes
  rw [Expr.throughout_iff, Expr.children_withChildren hlength]
  exact and_congr_left' ⟨fun h hformula => not_isStandIn_withChildren he (h hformula),
    fun h hformula => absurd hformula h⟩

end Found

namespace Checker

variable {c : Checker} {m m' : Model} {entered : Entered} {e e' : Expr} {found found' labels : Found} {r r' : Run}
  {f : String → String}

/-! ## One step of an extraction -/

/-- Extraction from an operator that stays is extraction from its operands. -/
theorem extractFrom_operator (hr : ¬e.IsReference) (he : ¬e.IsFormula) (found : Found) :
    c.extractFrom .whereOpen m entered found e = (do
      let (es, found) ← c.extractFromAll .whereOpen m entered found e.children
      return (e.withChildren es, found)) := by
  rw [extractFrom_children .whereOpen c m entered found he fun name t h => hr ⟨name, t, h⟩, extractFromChildren_eq]

theorem extractFrom_operator_eq_ok (hr : ¬e.IsReference) (he : ¬e.IsFormula)
    (h : c.extractFrom .whereOpen m entered found e r = (.ok (e', found'), r')) :
    ∃ es, e.withChildren es = e' ∧ es.length = e.children.length ∧
      c.extractFromAll .whereOpen m entered found e.children r = (.ok (es, found'), r') := by
  rw [extractFrom_operator hr he] at h
  obtain ⟨⟨es, found₁⟩, r₁, hall, h⟩ := run_bind_eq_ok h
  cases h
  exact ⟨es, rfl, (extractFromAll_extractsWell hall).length_eq, hall⟩

/-! ## Complete extractions -/

/-- What an extraction has made of an expression: seen from outside it is the inlined expression, and it has no state
formula left exactly if none hides in the expression. -/
structure Classified (d : Definitions) (entered : Entered) (e : Expr) (found' : Found) (e' : Expr) : Prop where
  type : e'.type = (d.inline entered e).type
  isProposition : e'.isProposition = (d.inline entered e).isProposition
  completes : ∀ labels : Found, (∀ p ∈ found', p ∈ labels) → (labels.Completes e' ↔ ¬d.Hides entered e)

/-- The same for expressions in a row. -/
structure ClassifiedAll (d : Definitions) (entered : Entered) (es : List Expr) (found' : Found) (es' : List Expr) :
    Prop where
  types : es'.map Expr.type = (es.map (d.inline entered)).map Expr.type
  arePropositions : es'.all Expr.isProposition = (es.map (d.inline entered)).all Expr.isProposition
  completes : ∀ labels : Found, (∀ p ∈ found', p ∈ labels) →
    ((∀ a ∈ es', labels.Completes a) ↔ ∀ a ∈ es, ¬d.Hides entered a)

theorem Classified.isFormula_iff {d : Definitions} (h : Classified d entered e found' e') :
    e'.IsFormula ↔ (d.inline entered e).IsFormula := by
  unfold Expr.IsFormula
  rw [h.type, h.isProposition]

def ExtractsClassified (c : Checker) (m : Model) (entered : Entered) (e : Expr) : Prop :=
  ∀ found r e' found' r', c.extractFrom .whereOpen m entered found e r = (.ok (e', found'), r') →
    Classified c.definitions entered e found' e'

theorem formula_classified (he : e.IsFormula) : c.ExtractsClassified m entered e := by
  intro found r e' found' r' h
  rw [extractFrom_proposition .whereOpen c m entered found he] at h
  obtain ⟨states, r₁, -, h⟩ := run_bind_eq_ok h
  obtain ⟨hreplace, -⟩ := run_pure_eq_ok h
  have hstands := (found.replace_generates m.numStates states).2
  rw [hreplace] at hstands
  have hformula := hstands.isStandIn.isFormula
  have hsame : c.definitions.inline entered e = e :=
    Definitions.inline_eq_self (Expr.throughout_not_isReference he.2)
  refine ⟨?_, ?_, fun labels hsub => ?_⟩
  · rw [hsame, hformula.1, he.1]
  · rw [hsame, hformula.2, he.2]
  · exact iff_of_true (hstands.mono hsub).isStandIn.completes (Definitions.not_hides_of_isFormula he)

theorem extractFromAll_classified {es es' : List Expr} (hes : ∀ a ∈ es, c.ExtractsClassified m entered a)
    (h : c.extractFromAll .whereOpen m entered found es r = (.ok (es', found'), r')) :
    ClassifiedAll c.definitions entered es found' es' := by
  induction es generalizing found r es' with
  | nil =>
    rw [extractFromAll_nil] at h
    cases h
    exact ⟨rfl, rfl, fun _ _ => by simp⟩
  | cons e rest ih =>
    obtain ⟨e₁, found₁, r₁, rest₁, rfl, he, hrest⟩ := extractFromAll_cons_eq_ok h
    have hfirst := hes e List.mem_cons_self found r e₁ found₁ r₁ he
    -- Labels that the others add do not spoil the first one.
    have hlater := extractFromAll_extractsWell hrest
    have hrest := ih (fun a ha => hes a (List.mem_cons_of_mem e ha)) hrest
    refine ⟨?_, ?_, fun labels hsub => ?_⟩
    · rw [List.map_cons, List.map_cons, List.map_cons, hfirst.type, hrest.types]
    · rw [List.map_cons, List.all_cons, List.all_cons, hfirst.isProposition, hrest.arePropositions]
    · rw [List.forall_mem_cons, List.forall_mem_cons, hrest.completes labels hsub,
        hfirst.completes labels fun p hp => hsub p (hlater.generates.sub p hp)]

/-- An operator with other operands stays, whatever it has become. -/
theorem operator_classified {es : List Expr} (hr : ¬e.IsReference) (he : ¬e.IsFormula)
    (hlength : es.length = e.children.length) (hes : ClassifiedAll c.definitions entered e.children found' es) :
    Classified c.definitions entered e found' (e.withChildren es) := by
  have hinlined : c.definitions.inline entered e = e.withChildren (e.children.map (c.definitions.inline entered)) :=
    Definitions.inline_operands hr
  have htype : (e.withChildren es).type = (c.definitions.inline entered e).type := by
    rw [hinlined, Expr.type_withChildren hlength, Expr.type_withChildren (List.length_map _), hes.types]
  have hproposition : (e.withChildren es).isProposition = (c.definitions.inline entered e).isProposition := by
    rw [hinlined, Expr.isProposition_withChildren hlength, Expr.isProposition_withChildren (List.length_map _),
      hes.arePropositions]
  refine ⟨htype, hproposition, fun labels hsub => ?_⟩
  have hoperands : Expr.AllThroughout (fun a => a.IsFormula → labels.IsStandIn a) es ↔
      ∀ a ∈ e.children, ¬c.definitions.Hides entered a := hes.completes labels hsub
  rw [Found.completes_withChildren_iff he hlength, hoperands, Definitions.hides_operator_iff hr he, not_or]
  refine and_congr (not_congr ?_) (by simp)
  unfold Expr.IsFormula
  rw [htype, hproposition]

theorem extractFrom_classified (c : Checker) (m : Model) (entered : Entered) (e : Expr) :
    c.ExtractsClassified m entered e := by
  refine c.definitions.expansion_induction (P := c.ExtractsClassified m) (fun entered e ih => ?_) entered e
  by_cases hr : e.IsReference
  -- The body of the property is what is extracted from, inlined and asked for formulas that hide.
  · obtain ⟨name, t, rfl⟩ := hr
    intro found r e' found' r' h
    obtain ⟨body, hd, hn, hbody⟩ := extractFrom_reference_eq_ok h
    have hclassified := ih _ (Definitions.mem_successors_of_property hd hn) found r e' found' r' hbody
    refine ⟨?_, ?_, fun labels hsub => ?_⟩
    · rw [Definitions.inline_property hd hn]
      exact hclassified.type
    · rw [Definitions.inline_property hd hn]
      exact hclassified.isProposition
    · rw [Definitions.hides_property_iff hd hn]
      exact hclassified.completes labels hsub
  · by_cases he : e.IsFormula
    · exact formula_classified he
    · intro found r e' found' r' h
      obtain ⟨es, rfl, hlength, hall⟩ := extractFrom_operator_eq_ok hr he h
      exact operator_classified hr he hlength
        (extractFromAll_classified (fun a ha => ih (entered, a) (Definitions.mem_successors_of_child ha)) hall)

/-! ## Another extraction -/

/-- What stands for a set holds in its states, on a model that carries the label if it is one. -/
theorem satisfying_stands {states : StateSet} (h : labels.Stands m.numStates states e) (hn : m.numStates ≠ stateLimit)
    (hcarries : m.Carries f labels) (entered : Entered) :
    satisfying .whereOpen c m entered none (e.renameLabels f) = return states := by
  unfold satisfying
  cases h with
  | nowhere hnone =>
    have hempty : states = .empty := StateSet.ext fun s => by simp [hnone s]
    show (evalWith .whereOpen c m entered (.literal (.bool false)) none >>= _) = _
    rw [evalWith_literal, hempty]
    rfl
  | everywhere hall =>
    show (evalWith .whereOpen c m entered (.literal (.bool true)) none >>= _) = _
    rw [evalWith_literal, StateSet.eq_full hall hn]
    rfl
  | label hmem =>
    show (evalWith .whereOpen c m entered (.label (f _)) none >>= _) = _
    rw [evalWith_attached .whereOpen c m entered none (hcarries _ hmem)]
    rfl

/-- So it is replaced by itself. -/
theorem extractFrom_replaced {states : StateSet} (hreplace : found.replace m.numStates states = (e, found'))
    (hn : m.numStates ≠ stateLimit) (hcarries : m.Carries f found') (entered : Entered) :
    c.extractFrom .whereOpen m entered found (e.renameLabels f) = return (e, found') := by
  have hstands := (found.replace_generates m.numStates states).2
  rw [hreplace] at hstands
  have hformula := Expr.isFormula_renameLabels_iff (f := f).mpr hstands.isStandIn.isFormula
  rw [extractFrom_proposition .whereOpen c m entered found hformula, satisfying_stands hstands hn hcarries entered,
    pure_bind, hreplace]

/-- Another extraction from what this one yields changes the names of labels only, unless formulas hide. -/
def ExtractsOnce (c : Checker) (m m' : Model) (f : String → String) (entered : Entered) (e : Expr) : Prop :=
  ∀ found r e' found' r', c.extractFrom .whereOpen m entered found e r = (.ok (e', found'), r') →
    ¬c.definitions.Hides entered e → m'.Carries f found' → ∀ entered',
    c.extractFrom .whereOpen m' entered' found (e'.renameLabels f) = return (e', found')

theorem extractFromAll_once {es es' : List Expr} (hes : ∀ a ∈ es, c.ExtractsOnce m m' f entered a)
    (hnot : ∀ a ∈ es, ¬c.definitions.Hides entered a)
    (h : c.extractFromAll .whereOpen m entered found es r = (.ok (es', found'), r'))
    (hcarries : m'.Carries f found') (entered' : Entered) :
    c.extractFromAll .whereOpen m' entered' found (es'.map (Expr.renameLabels f)) = return (es', found') := by
  induction es generalizing found r es' with
  | nil =>
    rw [extractFromAll_nil] at h
    cases h
    rw [List.map_nil, extractFromAll_nil]
  | cons e rest ih =>
    obtain ⟨e₁, found₁, r₁, rest₁, rfl, he, hrest⟩ := extractFromAll_cons_eq_ok h
    have hlater := extractFromAll_extractsWell hrest
    rw [List.map_cons, extractFromAll_cons, hes e List.mem_cons_self found r e₁ found₁ r₁ he
      (hnot e List.mem_cons_self) (fun p hp => hcarries p (hlater.generates.sub p hp)) entered', pure_bind]
    simp only
    rw [ih (fun a ha => hes a (List.mem_cons_of_mem e ha)) (fun a ha => hnot a (List.mem_cons_of_mem e ha)) hrest,
      pure_bind]

theorem extractFrom_once (hn : m.numStates ≠ stateLimit) (hsize : m'.numStates = m.numStates) (f : String → String)
    (entered : Entered) (e : Expr) : c.ExtractsOnce m m' f entered e := by
  refine c.definitions.expansion_induction (P := c.ExtractsOnce m m' f) (fun entered e ih => ?_) entered e
  intro found r e' found' r' h hnot hcarries entered'
  by_cases hr : e.IsReference
  · obtain ⟨name, t, rfl⟩ := hr
    obtain ⟨body, hd, hn, hbody⟩ := extractFrom_reference_eq_ok h
    rw [Definitions.hides_property_iff hd hn] at hnot
    exact ih _ (Definitions.mem_successors_of_property hd hn) found r e' found' r' hbody hnot hcarries entered'
  by_cases he : e.IsFormula
  · rw [extractFrom_proposition .whereOpen c m entered found he] at h
    obtain ⟨states, r₁, -, h⟩ := run_bind_eq_ok h
    obtain ⟨hreplace, -⟩ := run_pure_eq_ok h
    rw [← hsize] at hn hreplace
    exact extractFrom_replaced hreplace hn hcarries entered'
  -- The operator is taken for an operator again, since what it has become is no formula either.
  · have hformula := (extractFrom_classified c m entered e found r e' found' r' h).isFormula_iff
    obtain ⟨es, rfl, hlength, hall⟩ := extractFrom_operator_eq_ok hr he h
    rw [Definitions.hides_operator_iff hr he, not_or, not_exists] at hnot
    have hr' : ¬((e.withChildren es).renameLabels f).IsReference := by
      intro h
      obtain ⟨name, t, h⟩ := Expr.isReference_of_renameLabels h
      exact hr ⟨name, t, Expr.eq_of_withChildren trivial h⟩
    have he' : ¬((e.withChildren es).renameLabels f).IsFormula := by
      rw [Expr.isFormula_renameLabels_iff, hformula]
      exact hnot.1
    have hall' := extractFromAll_once (fun a ha => ih (entered, a) (Definitions.mem_successors_of_child ha))
      (fun a ha h => hnot.2 a ⟨ha, h⟩) hall hcarries entered'
    have hl : ∀ name, e ≠ .label name := fun name heq => he (heq ▸ ⟨rfl, rfl⟩)
    rw [extractFrom_operator hr' he', Expr.children_renameLabels, Expr.children_withChildren hlength, hall', pure_bind]
    simp only
    rw [Expr.withChildren_renameLabels hl hlength]

/-! ## Extraction -/

/-- No reference is left in what an extraction yields. -/
theorem WellExtracted.noReference (h : WellExtracted c m entered e r e' labels r') :
    e'.Throughout fun a => ¬a.IsReference := by
  rintro a ha ⟨name, t, rfl⟩
  exact h.closed _ ha

theorem completes_iff_of_extractFrom (h : c.extractFrom .whereOpen m entered [] e r = (.ok (e', labels), r')) :
    labels.Completes e' ↔ ¬c.definitions.Hides entered e :=
  (extractFrom_classified c m entered e [] r e' labels r' h).completes labels fun _ hp => hp

/-- What an extraction yields has no state formula but truth values and its labels exactly if no formula hides behind
references, so always if there are none. Exactly in this case another extraction, from the result on a model that
carries the labels under whatever names, asks nobody and gives the result back. Another extraction is complete in any
case. -/
theorem extract_complete_iff (c : Checker) (m : Model) (e : Expr) (r : Run) (e' : Expr) (labels : Found) (r' : Run)
    (h : c.extract m e r = (.ok (e', labels), r')) :
    (labels.Completes e' ↔ ¬c.definitions.Hides .none e) ∧
      ((e.Throughout fun a => ¬a.IsReference) → labels.Completes e') ∧
      ∀ m' f, m'.numStates = m.numStates → m'.Carries f labels → ∀ r₂,
        (m.numStates ≠ stateLimit →
          (c.extract m' (e'.renameLabels f) r₂ = (.ok (e', labels), after (Check.restart none) r₂) ↔
            ¬c.definitions.Hides .none e)) ∧
        ∀ e₂ labels₂ r₂', c.extract m' (e'.renameLabels f) r₂ = (.ok (e₂, labels₂), r₂') → labels₂.Completes e₂ := by
  have hiff := completes_iff_of_extractFrom h
  have hagain : ∀ m' f r₂ e₂ labels₂ r₂', c.extract m' (e'.renameLabels f) r₂ = (.ok (e₂, labels₂), r₂') →
      labels₂.Completes e₂ := by
    intro m' f r₂ e₂ labels₂ r₂' h₂
    have hreferences := (wellExtracted h).noReference.noReference_renameLabels (f := f)
    exact (completes_iff_of_extractFrom h₂).mpr (Definitions.not_hides_of_noReference hreferences)
  refine ⟨hiff, fun he => hiff.mpr (Definitions.not_hides_of_noReference he), fun m' f hsize hcarries r₂ =>
    ⟨fun hn => ⟨fun h₂ => ?_, fun hnot => ?_⟩, hagain m' f r₂⟩⟩
  · exact hiff.mp (hagain m' f r₂ _ _ _ h₂)
  · have honce := extractFrom_once hn hsize f .none e [] _ e' labels r' h hnot hcarries .none
    unfold extract
    rw [honce]
    rfl

end Checker

/-! ### A property and its negation -/

/-- The two states with a label for the second one. -/
def Model.twoStatesOne (name : String) : Model :=
  { Model.twoStates with labels := NameMap.empty.insert name (.singleton 1) }

namespace Checker

/-- A checker that knows `x = 1` as a property. -/
def naming : Checker :=
  { bare with definitions := { Definitions.empty with properties := [⟨"a", .isOne⟩] } }

theorem extractFrom_named :
    naming.extractFrom .whereOpen .twoStates .none [] (.property "a" .bool) =
      return (.label "L0", [("L0", .singleton 1)]) := by
  rw [extractFrom_definedProperty .whereOpen naming _ .none [] .bool rfl rfl]
  exact extractFrom_isOne naming .empty (Entered.none.property "a")

/-- The reference becomes a label, and the label stays if the model has it as `phi`. -/
theorem extract_complete_named :
    Found.Completes [("L0", .singleton 1)] (.label "L0") ∧
      naming.extract (.twoStatesOne "phi") (.label "phi") .start =
        (.ok (.label "L0", [("L0", .singleton 1)]), after (Check.restart none) .start) := by
  have hextract : naming.extract .twoStates (.property "a" .bool) .start =
      (.ok (.label "L0", [("L0", .singleton 1)]), after (Check.restart none) .start) := by
    unfold extract
    rw [extractFrom_named]
    rfl
  have hbody : naming.definitions.property? "a" = some .isOne := rfl
  have hnot : ¬naming.definitions.Hides .none (.property "a" .bool) := by
    rw [Definitions.hides_property_iff hbody rfl]
    exact Definitions.not_hides_of_isFormula ⟨rfl, rfl⟩
  obtain ⟨hiff, -, hagain⟩ := extract_complete_iff naming .twoStates (.property "a" .bool) .start _ _ _ hextract
  have hcarries : (Model.twoStatesOne "phi").Carries (fun _ => "phi") [("L0", .singleton 1)] := by
    intro p hp
    rw [List.mem_singleton.mp hp]
    rfl
  obtain ⟨hsame, -⟩ := hagain (.twoStatesOne "phi") (fun _ => "phi") rfl hcarries .start
  exact ⟨hiff.mpr hnot, (hsame (by decide)).mpr hnot⟩

/-- The negation of the reference stays around the label of the property, although it is a state formula now, and
another extraction finds it. -/
theorem extract_incomplete :
    naming.extract .twoStates (.unary .not (.property "a" .bool)) .start =
      (.ok (.unary .not (.label "L0"), [("L0", .singleton 1)]), after (Check.restart none) .start) ∧
    ¬Found.Completes [("L0", .singleton 1)] (.unary .not (.label "L0")) ∧
    ∃ m', Model.twoStates.addLabels [("L0", .singleton 1)] = .ok m' ∧
      outcome (naming.extract m' (.unary .not (.label "L0"))) .start = .ok (.label "L0", [("L0", .singleton 0)]) := by
  refine ⟨?_, fun h => ?_, .twoStatesOne "L0", rfl, ?_⟩
  · unfold extract
    rw [extractFrom_children .whereOpen naming _ .none [] (by decide) (by simp), extractFromChildren_unary,
      extractFrom_named]
    rfl
  · rcases h.self ⟨rfl, rfl⟩ with h | h | ⟨p, -, h⟩ <;> cases h
  · unfold extract
    rw [extractFrom_proposition .whereOpen naming _ .none [] ⟨rfl, rfl⟩]
    have hattached : Model.labelStates? (.twoStatesOne "L0") "L0" = some (.singleton 1) := rfl
    unfold satisfying
    rw [evalWith_unary .whereOpen naming _ .none none (by decide),
      evalWith_attached .whereOpen naming _ .none none hattached]
    rfl

end Checker

end Statewise
