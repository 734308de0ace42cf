import Statewise.Expr.Basic
import Statewise.NameMap

/-!
# Definitions

The named expressions, constants and observables that references resolve against. Properties and labels
may refer to one another in any way; `Entered` records which of them are being expanded, and
`Definitions.remaining` counts those that are not. Entering one leaves fewer, which is why expanding
definitions comes to an end.
-/

namespace Statewise

/-- A name and the expression that it stands for. -/
structure Definition where
  name : String
  body : Expr

structure Definitions where
  /-- Labels defined by expressions, in the order of their declaration. -/
  labels : List Definition
  properties : List Definition
  constants : NameMap Value
  /-- The place of an observable is its index in observations. -/
  observables : List String
  /-- Labels that the model defines. -/
  modelLabels : List String
  /-- What the model was built with, copied into every result. -/
  parameters : Option String

/-- The names of the properties and labels that are being expanded, the innermost first. -/
structure Entered where
  properties : List String
  labels : List String

namespace Entered

def none : Entered := ⟨[], []⟩

def property (e : Entered) (name : String) : Entered := { e with properties := name :: e.properties }

def label (e : Entered) (name : String) : Entered := { e with labels := name :: e.labels }

end Entered

namespace Definition

/-- The expression that a name stands for; of two definitions the first counts. -/
def lookup? (ds : List Definition) (name : String) : Option Expr := (ds.find? (·.name == name)).map (·.body)

/-- The number of definitions that are not entered. -/
def countOutside (ds : List Definition) (entered : List String) : Nat :=
  ds.countP fun d => !entered.contains d.name

theorem exists_mem_of_lookup? {ds : List Definition} {name : String} {body : Expr}
    (h : lookup? ds name = some body) : ∃ d ∈ ds, d.name = name := by
  unfold lookup? at h
  obtain ⟨d, hd, -⟩ := Option.map_eq_some_iff.mp h
  exact ⟨d, List.mem_of_find?_eq_some hd, by simpa using List.find?_some hd⟩

/-- A definition that is outside with one more name entered was outside before. -/
theorem outside_of_outside_cons {d : Definition} {entered : List String} {name : String}
    (h : !(name :: entered).contains d.name) : !entered.contains d.name := by
  simp at h ⊢
  exact h.2

/-- Entering a name that some definition has and that is not entered leaves fewer outside. -/
theorem countOutside_cons_lt {ds : List Definition} {entered : List String} {name : String}
    (hmem : ∃ d ∈ ds, d.name = name) (hn : entered.contains name = false) :
    countOutside ds (name :: entered) < countOutside ds entered := by
  obtain ⟨d, hmem, rfl⟩ := hmem
  unfold countOutside
  induction ds with
  | nil => cases hmem
  | cons c cs ih =>
    rw [List.countP_cons, List.countP_cons]
    rcases List.mem_cons.mp hmem with rfl | hmem
    · have hle := List.countP_mono_left (l := cs)
        fun c _ (h : (!(d.name :: entered).contains c.name) = true) => outside_of_outside_cons h
      have hin : (!(d.name :: entered).contains d.name) = false := by simp
      rw [hin, hn, if_neg Bool.false_ne_true, Bool.not_false, if_pos rfl]
      omega
    · have := ih hmem
      by_cases hc : (!(d.name :: entered).contains c.name) = true
      · rw [if_pos hc, if_pos (outside_of_outside_cons hc)]
        omega
      · rw [if_neg hc]
        omega

end Definition

namespace Definitions

def empty : Definitions := ⟨[], [], .empty, [], [], none⟩

instance : Inhabited Definitions := ⟨empty⟩

def label? (d : Definitions) (name : String) : Option Expr := Definition.lookup? d.labels name

def property? (d : Definitions) (name : String) : Option Expr := Definition.lookup? d.properties name

def constant? (d : Definitions) (name : String) : Option Value := d.constants.get? name

def observableIndex? (d : Definitions) (name : String) : Option Nat := d.observables.findIdx? (· == name)

/-- The names of all labels that are defined outside the model's own list, in order and once each. -/
def labelNames (d : Definitions) : List String :=
  (NameMap.ofList ((d.labels.map (·.name) ++ d.modelLabels).map fun n => (n, ()))).names

/-- The number of properties and labels that may still be entered. -/
def remaining (d : Definitions) (e : Entered) : Nat :=
  Definition.countOutside d.properties e.properties + Definition.countOutside d.labels e.labels

theorem remaining_property_lt {d : Definitions} {e : Entered} {name : String} {body : Expr}
    (hl : d.property? name = some body) (hn : e.properties.contains name = false) :
    d.remaining (e.property name) < d.remaining e := by
  have := Definition.countOutside_cons_lt (Definition.exists_mem_of_lookup? hl) hn
  simp only [remaining, Entered.property]
  omega

theorem remaining_label_lt {d : Definitions} {e : Entered} {name : String} {body : Expr}
    (hl : d.label? name = some body) (hn : e.labels.contains name = false) :
    d.remaining (e.label name) < d.remaining e := by
  have := Definition.countOutside_cons_lt (Definition.exists_mem_of_lookup? hl) hn
  simp only [remaining, Entered.label]
  omega

end Definitions

end Statewise
