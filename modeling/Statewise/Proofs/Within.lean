import Statewise.Check.Definitions

/-!
# What occurs in an expression

The expressions that occur in another one, and properties that all of them have. An evaluation goes from an
expression to its direct subexpressions and to the bodies of definitions, so a property of everything that
occurs in an expression and in the definitions stays with it on its way.
-/

namespace Statewise

namespace Expr

theorem sizeOf_lt_of_mem_children {e a : Expr} (h : a ∈ e.children) : sizeOf a < sizeOf e := by
  cases e with
  | call f args =>
    have := List.sizeOf_lt_of_mem (show a ∈ args from h)
    simp only [call.sizeOf_spec]
    omega
  | path op operands bound =>
    have := List.sizeOf_lt_of_mem (show a ∈ operands from h)
    simp only [path.sizeOf_spec]
    omega
  | formula name d t =>
    cases d with
    | none => cases h
    | some d =>
      rw [List.mem_singleton.mp h]
      simp
      omega
  | filter op e p invisible explained =>
    cases p with
    | none =>
      rw [List.mem_singleton.mp h]
      simp
      omega
    | some p =>
      rcases List.mem_cons.mp h with rfl | h
      · simp
        omega
      · rw [List.mem_singleton.mp h]
        simp
        omega
  | _ => simp [children] at h <;> grind

/-- The first expression occurs in the second: it is the second one, or it occurs in one of its direct
subexpressions. -/
inductive Within : Expr → Expr → Prop where
  | refl (e : Expr) : Within e e
  | step {a b e : Expr} (hb : b ∈ e.children) (hab : Within a b) : Within a e

theorem Within.trans {a b e : Expr} (hab : a.Within b) (hbe : b.Within e) : a.Within e := by
  induction hbe with
  | refl => exact hab
  | step hb _ ih => exact .step hb ih

/-- Everything that occurs in the expression has the property. -/
def Throughout (p : Expr → Prop) (e : Expr) : Prop := ∀ a, a.Within e → p a

variable {p : Expr → Prop} {a e : Expr}

theorem Throughout.self (h : e.Throughout p) : p e := h e (.refl e)

theorem Throughout.of_within (h : e.Throughout p) (ha : a.Within e) : a.Throughout p := fun b hb => h b (hb.trans ha)

theorem Throughout.child (h : e.Throughout p) (ha : a ∈ e.children) : a.Throughout p :=
  fun b hb => h b (.step ha hb)

/-- Everything that occurs in one of the expressions has the property. -/
def AllThroughout (p : Expr → Prop) (es : List Expr) : Prop := ∀ e ∈ es, e.Throughout p

@[simp] theorem allThroughout_nil : AllThroughout p [] := fun _ h => absurd h List.not_mem_nil

@[simp] theorem allThroughout_cons {es : List Expr} :
    AllThroughout p (e :: es) ↔ e.Throughout p ∧ AllThroughout p es := List.forall_mem_cons

theorem throughout_iff : e.Throughout p ↔ p e ∧ AllThroughout p e.children := by
  constructor
  · exact fun h => ⟨h.self, fun a ha => h.child ha⟩
  · rintro ⟨hself, hchildren⟩ a ha
    cases ha with
    | refl => exact hself
    | step hb hab => exact hchildren _ hb a hab

end Expr

/-! ## Definitions -/

theorem Definition.mem_of_lookup? {ds : List Definition} {name : String} {body : Expr}
    (h : lookup? ds name = some body) : ⟨name, body⟩ ∈ ds := by
  unfold lookup? at h
  obtain ⟨d, hd, rfl⟩ := Option.map_eq_some_iff.mp h
  have hname : d.name = name := by simpa using List.find?_some hd
  rw [← hname]
  exact List.mem_of_find?_eq_some hd

namespace Definitions

/-- Everything that occurs in the body of a definition has the property. -/
def Throughout (p : Expr → Prop) (d : Definitions) : Prop :=
  ∀ x ∈ d.labels ++ d.properties, x.body.Throughout p

variable {p : Expr → Prop} {d : Definitions} {name : String} {body : Expr}

theorem Throughout.label (h : d.Throughout p) (hb : d.label? name = some body) : body.Throughout p :=
  h _ (List.mem_append_left _ (Definition.mem_of_lookup? hb))

theorem Throughout.property (h : d.Throughout p) (hb : d.property? name = some body) : body.Throughout p :=
  h _ (List.mem_append_right _ (Definition.mem_of_lookup? hb))

theorem throughout_empty : empty.Throughout p := by
  intro x hx
  cases hx

/-! ## Where an evaluation goes -/

/-- Where the evaluation of an expression goes: to the body of a definition that is not entered yet, which then is,
or to the direct subexpressions. -/
def successors (d : Definitions) (entered : Entered) (e : Expr) : List (Entered × Expr) :=
  match e with
  | .label name =>
    if entered.labels.contains name then [] else (d.label? name).toList.map (entered.label name, ·)
  | .property name _ =>
    if entered.properties.contains name then [] else (d.property? name).toList.map (entered.property name, ·)
  | e => e.children.map (entered, ·)

variable {entered : Entered} {e : Expr}

theorem mem_successors_of_child {a : Expr} (ha : a ∈ e.children) : (entered, a) ∈ d.successors entered e := by
  cases e with
  | label name => cases ha
  | property name t => cases ha
  | _ => exact List.mem_map_of_mem ha

theorem mem_successors_of_label (hb : d.label? name = some body) (hn : entered.labels.contains name = false) :
    (entered.label name, body) ∈ d.successors entered (.label name) := by
  simp only [successors, hn, hb]
  simp

theorem mem_successors_of_property {t : ValueType} (hb : d.property? name = some body)
    (hn : entered.properties.contains name = false) :
    (entered.property name, body) ∈ d.successors entered (.property name t) := by
  simp only [successors, hn, hb]
  simp

/-- A definition is entered on the way, or the expression gets smaller. -/
theorem successors_decrease {s : Entered × Expr} (hs : s ∈ d.successors entered e) :
    d.remaining s.1 < d.remaining entered ∨ s.1 = entered ∧ sizeOf s.2 < sizeOf e := by
  have hchild : s ∈ e.children.map (entered, ·) → s.1 = entered ∧ sizeOf s.2 < sizeOf e := by
    intro h
    obtain ⟨a, ha, rfl⟩ := List.mem_map.mp h
    exact ⟨rfl, Expr.sizeOf_lt_of_mem_children ha⟩
  cases e with
  | label name =>
    simp only [successors] at hs
    split at hs
    · cases hs
    · next hn =>
      obtain ⟨body, hb, rfl⟩ := List.mem_map.mp hs
      exact Or.inl (remaining_label_lt (Option.mem_toList.mp hb) (by simpa using hn))
  | property name t =>
    simp only [successors] at hs
    split at hs
    · cases hs
    · next hn =>
      obtain ⟨body, hb, rfl⟩ := List.mem_map.mp hs
      exact Or.inl (remaining_property_lt (Option.mem_toList.mp hb) (by simpa using hn))
  | _ => exact Or.inr (hchild hs)

/-- What holds of an expression whenever it holds wherever its evaluation goes, holds of every expression. -/
theorem expansion_induction (d : Definitions) {P : Entered → Expr → Prop}
    (step : ∀ entered e, (∀ s ∈ d.successors entered e, P s.1 s.2) → P entered e) (entered : Entered) (e : Expr) :
    P entered e :=
  step entered e fun s _ => expansion_induction d step s.1 s.2
termination_by (d.remaining entered, sizeOf e)
decreasing_by
  rcases successors_decrease (by assumption) with h | ⟨h, hsize⟩
  · exact Prod.Lex.left _ _ h
  · rw [h]
    exact Prod.Lex.right _ hsize

end Definitions

end Statewise
