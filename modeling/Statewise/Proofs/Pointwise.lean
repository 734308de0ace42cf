import Statewise.Interpreter
import Statewise.Proofs.Shape

/-!
# Evaluation is pointwise

Without a solver, an expression has at most one value in each state, and evaluating it over a domain is
reading off these values: the evaluation succeeds if there is a value in every state of the domain, and then
the entries in the domain are these values. What lies outside the domain plays no part, although operands
are evaluated over different states and sets carry arbitrary members elsewhere.
-/

namespace Statewise

open Check StateVector

/-! ## Values state by state -/

/-- A possible value in each state. -/
abbrev Valuation := Nat → Option Value

namespace Valuation

/-- There is a value in every state of the domain. -/
def Defined (g : Valuation) (d : StateSet) : Prop := ∀ s ∈ d, ∃ y, g s = some y

/-- There is a truth value in every state of the domain. -/
def DefinedBool (g : Valuation) (d : StateSet) : Prop := ∀ s ∈ d, ∃ b, g s = some (.bool b)

end Valuation

/-- A vector shows a valuation in the states of a domain. -/
structure StateVector.Shows (n : Nat) (d : StateSet) (g : Valuation) (v : StateVector) : Prop where
  plain : v.IsPlain n
  entry : ∀ s ∈ d, ∀ y, g s = some y → v.valueAt s = .ok y

/-- A set holds in the states of a domain where a valuation says so. -/
def StateSet.Shows (d : StateSet) (g : Valuation) (a : StateSet) : Prop :=
  ∀ s ∈ d, ∀ b, g s = some (.bool b) → (s ∈ a ↔ b = true)

/-- A domain of evaluation: some real states. -/
structure StateSet.IsDomain (d : StateSet) (n : Nat) : Prop where
  nonempty : ∃ s, s ∈ d
  lt : ∀ s ∈ d, s < n

theorem isDomain_singleton {n s : Nat} (hn : n < stateLimit) (hs : s < n) :
    s ∈ StateSet.singleton s ∧ (StateSet.singleton s).IsDomain n := by
  have hindex : StateSet.index s = s := StateSet.index_of_lt (Nat.lt_trans hs hn)
  have hself : s ∈ StateSet.singleton s := by rw [StateSet.mem_singleton, hindex]
  refine ⟨hself, ⟨s, hself⟩, fun z hz => ?_⟩
  rw [StateSet.mem_singleton, hindex] at hz
  rwa [hz]

/-- A computation yields the values of a valuation over a domain, and succeeds exactly if they are defined. -/
def ComputesOn (n : Nat) (d : StateSet) (x : Check StateVector) (g : Valuation) : Prop :=
  Settles x (g.Defined d) (Shows n d g)

/-- A computation yields the values of a valuation over every domain. -/
def Computes (n : Nat) (x : StateSet → Check StateVector) (g : Valuation) : Prop :=
  ∀ d, d.IsDomain n → ComputesOn n d (x d) g

namespace Computes

variable {n : Nat} {d : StateSet}

theorem congr {x : StateSet → Check StateVector} {g g' : Valuation} (hx : Computes n x g)
    (h : ∀ s < n, g s = g' s) : Computes n x g' := by
  intro d hd
  refine (hx d hd).imp ?_ fun v _ hv => ⟨hv.plain, fun s hs y hy => hv.entry s hs y ((h s (hd.lt s hs)).trans hy)⟩
  constructor
  · exact fun hg s hs => h s (hd.lt s hs) ▸ hg s hs
  · exact fun hg s hs => (h s (hd.lt s hs)).symm ▸ hg s hs

theorem fail (e : CheckError) : Computes n (fun _ => throw e) fun _ => none := by
  intro d hd
  refine Settles.throw e fun hg => ?_
  obtain ⟨s, hs⟩ := hd.nonempty
  obtain ⟨y, hy⟩ := hg s hs
  cases hy

theorem constant (hn : n < stateLimit) (y : Value) :
    Computes n (fun _ => pure (.constant y n)) fun _ => some y := by
  intro d hd
  refine Settles.pure (fun s _ => ⟨y, rfl⟩) ⟨isPlain_constant y n, fun s hs z hz => ?_⟩
  cases hz
  exact valueAt_constant (fun _ => hn) (hd.lt s hs)

/-- A computation that ignores the domain. -/
theorem fixed {m : Model} {x : Check StateVector} (hx : Delivers x (·.Fits m)) :
    Computes m.numStates (fun _ => x) fun s =>
      (outcome x .start).toOption.bind fun v => (v.valueAt s).toOption := by
  intro d hd
  cases h : outcome x .start with
  | error e =>
    constructor
    · intro r v hv
      rw [hx.steady r .start, h] at hv
      cases hv
    · intro r e' _ hg
      obtain ⟨s, hs⟩ := hd.nonempty
      obtain ⟨y, hy⟩ := hg s hs
      cases hy
  | ok v =>
    have hv := (hx.spec _ v h).plain
    have hval : ∀ s < m.numStates, ∃ y, v.valueAt s = .ok y := fun s hs => hv.valueAt hs
    constructor
    · intro r w hw
      rw [hx.steady r .start, h] at hw
      cases hw
      refine ⟨fun s hs => ?_, hv, fun s hs y hy => ?_⟩
      · obtain ⟨y, hy⟩ := hval s (hd.lt s hs)
        exact ⟨y, by simp [Except.toOption, hy]⟩
      · obtain ⟨z, hz⟩ := hval s (hd.lt s hs)
        simp [Except.toOption, hz] at hy
        rw [hz, hy]
    · intro r e he
      rw [hx.steady r .start, h] at he
      cases he

/-- A message in front changes nothing. -/
theorem message {x : StateSet → Check StateVector} {g : Valuation} (t : String) (hx : Computes n x g) :
    Computes n (fun d => do Check.message t; x d) g :=
  fun d hd => Settles.next (fun r => ⟨(), outcome_message t r⟩) fun _ => hx d hd

end Computes

/-! ## Tabulations -/

section

variable {n : Nat} {d : StateSet} {t : ValueType} {g : Valuation}

/-- A tabulation yields the values of its function, widened. -/
theorem tabulate_settles {ε : Type} (lift : EvalError → ε) {f : Nat → Except ε Value} (hn : n < stateLimit)
    (hd : d.IsDomain n) (hf : ∀ s ∈ d, g s = (f s).toOption.bind (·.coerce? t)) :
    (∀ out, tabulate lift t n (some d) f = .ok out → g.Defined d ∧ Shows n d g out) ∧
      (g.Defined d → ∃ out, tabulate lift t n (some d) f = .ok out) := by
  constructor
  · intro out hout
    have hspec := tabulate_spec hout
    have hentry : ∀ s ∈ d, ∃ w, g s = some w ∧ out.valueAt s = .ok w := by
      intro s hs
      obtain ⟨-, v, w, hv, hw, hval⟩ := hspec.entry (Nat.le_of_lt hn) s hs
      refine ⟨w, ?_, hval⟩
      rw [hf s hs, hv]
      exact hw
    refine ⟨fun s hs => ?_, hspec.plain, fun s hs y hy => ?_⟩
    · obtain ⟨w, hw, -⟩ := hentry s hs
      exact ⟨w, hw⟩
    · obtain ⟨w, hw, hval⟩ := hentry s hs
      rw [hy] at hw
      cases hw
      exact hval
  · intro hg
    refine tabulate_succeeds fun s hs => ⟨hd.lt s hs, ?_⟩
    obtain ⟨w, hw⟩ := hg s hs
    rw [hf s hs, Option.bind_eq_some_iff] at hw
    obtain ⟨v, hv, hw⟩ := hw
    cases hfs : f s with
    | error e =>
      rw [hfs] at hv
      cases hv
    | ok u =>
      rw [hfs] at hv
      cases hv
      exact ⟨v, w, rfl, hw⟩

theorem tabulate_computesOn {f : Nat → Except EvalError Value} (hn : n < stateLimit) (hd : d.IsDomain n)
    (hf : ∀ s ∈ d, g s = (f s).toOption.bind (·.coerce? t)) :
    ComputesOn n d (ofEval (tabulate id t n (some d) f)) g :=
  Settles.ofEval (tabulate_settles id hn hd hf).1 (tabulate_settles id hn hd hf).2

/-- The values that a table gives, widened to a type. -/
def lookupValue (t : ValueType) (value? : Nat → Option Value) : Valuation := fun s => (value? s).bind (·.coerce? t)

theorem lookup_computes (m : Model) (hn : m.numStates < stateLimit) (name : String) (t : ValueType)
    (value? : Nat → Option Value) :
    Computes m.numStates (fun d => Checker.lookupVector m name t (some d) value?) (lookupValue t value?) := by
  intro d hd
  refine Settles.ofExcept (tabulate_settles _ hn hd fun s _ => ?_).1 (tabulate_settles _ hn hd fun s _ => ?_).2
  all_goals
    unfold lookupValue
    cases value? s <;> rfl

/-- A function of one value, and its widened result. -/
def mapValue (t : ValueType) (f : Value → Except EvalError Value) (g : Valuation) : Valuation :=
  fun s => (g s).bind fun a => (f a).toOption.bind (·.coerce? t)

/-- A function of two values, and its widened result. -/
def mapValue2 (t : ValueType) (f : Value → Value → Except EvalError Value) (g h : Valuation) : Valuation :=
  fun s => (g s).bind fun a => (h s).bind fun b => (f a b).toOption.bind (·.coerce? t)

theorem mapValue2_left {f : Value → Value → Except EvalError Value} {h : Valuation} {s : Nat} {y : Value}
    (hy : mapValue2 t f g h s = some y) : ∃ a, g s = some a := by
  obtain ⟨a, ha, -⟩ := Option.bind_eq_some_iff.mp hy
  exact ⟨a, ha⟩

theorem mapValue2_right {f : Value → Value → Except EvalError Value} {h : Valuation} {s : Nat} {y : Value}
    (hy : mapValue2 t f g h s = some y) : ∃ b, h s = some b := by
  obtain ⟨a, -, hb⟩ := Option.bind_eq_some_iff.mp hy
  obtain ⟨b, hb, -⟩ := Option.bind_eq_some_iff.mp hb
  exact ⟨b, hb⟩

theorem StateVector.Shows.entry_of_defined {v : StateVector} (hv : Shows n d g v) (hg : g.Defined d) {s : Nat}
    (hs : s ∈ d) : ∃ y, g s = some y ∧ v.valueAt s = .ok y := by
  obtain ⟨y, hy⟩ := hg s hs
  exact ⟨y, hy, hv.entry s hs y hy⟩

theorem map1_computesOn {v : StateVector} {f : Value → Except EvalError Value} (hn : n < stateLimit)
    (hd : d.IsDomain n) (hg : g.Defined d) (hv : Shows n d g v) :
    ComputesOn n d (ofEval (v.map1 t (some d) f)) (mapValue t f g) := by
  have hf : ∀ s ∈ d, mapValue t f g s = (do f (← v.valueAt s) : Except EvalError Value).toOption.bind
      (·.coerce? t) := by
    intro s hs
    obtain ⟨y, hy, hval⟩ := hv.entry_of_defined hg hs
    rw [hval]
    unfold mapValue
    rw [hy]
    rfl
  obtain ⟨hok, hdef⟩ := tabulate_settles id hn hd hf
  refine Settles.ofEval (fun out hout => ?_) fun h => ?_
  · obtain ⟨o, ho, rfl⟩ := (map1_eq_ok hv.plain).mp hout
    exact ⟨(hok o ho).1, (hok o ho).2.plain, (hok o ho).2.entry⟩
  · obtain ⟨o, ho⟩ := hdef h
    exact ⟨_, (map1_eq_ok hv.plain).mpr ⟨o, ho, rfl⟩⟩

theorem map2_computesOn {v w : StateVector} {h : Valuation} {f : Value → Value → Except EvalError Value}
    (hn : n < stateLimit) (hd : d.IsDomain n) (hg : g.Defined d) (hv : Shows n d g v) (hh : h.Defined d)
    (hw : Shows n d h w) : ComputesOn n d (ofEval (v.map2 w t (some d) f)) (mapValue2 t f g h) := by
  rw [map2_eq hv.plain hw.plain]
  refine tabulate_computesOn hn hd fun s hs => ?_
  obtain ⟨y, hy, hval⟩ := hv.entry_of_defined hg hs
  obtain ⟨z, hz, hwal⟩ := hw.entry_of_defined hh hs
  rw [hval, hwal]
  unfold mapValue2
  rw [hy, hz]
  rfl

end

/-- The values so far combined with the values of further arguments, each result widened. -/
def foldValue (f : Function) (t : ValueType) : Valuation → List Valuation → Valuation
  | g, [] => g
  | g, h :: hs => foldValue f t (mapValue2 t (Value.applyFunction2 f) g h) hs

/-- Where a fold has a value, so has what it starts from. -/
theorem foldValue_start {f : Function} {t : ValueType} {g : Valuation} {hs : List Valuation} {s : Nat} {y : Value}
    (hy : foldValue f t g hs s = some y) : ∃ z, g s = some z := by
  induction hs generalizing g with
  | nil => exact ⟨y, hy⟩
  | cons h hs ih =>
    obtain ⟨z, hz⟩ := ih hy
    exact mapValue2_left hz

/-! ## Conditionals and connectives -/

/-- A conditional takes the value of the branch that the condition picks. -/
def iteValue (t : ValueType) (cond g h : Valuation) : Valuation := fun s =>
  match cond s with
  | some (.bool true) => (g s).bind (·.coerce? t)
  | some (.bool false) => (h s).bind (·.coerce? t)
  | _ => none

/-- Where a conditional has a value its condition does, and so does the branch that is picked. -/
theorem iteValue_eq_some {t : ValueType} {cond g h : Valuation} {s : Nat} {y : Value}
    (hy : iteValue t cond g h s = some y) :
    (cond s = some (.bool true) ∧ ∃ z, g s = some z ∧ z.coerce? t = some y) ∨
      (cond s = some (.bool false) ∧ ∃ z, h s = some z ∧ z.coerce? t = some y) := by
  unfold iteValue at hy
  split at hy
  · next hcond => exact Or.inl ⟨hcond, Option.bind_eq_some_iff.mp hy⟩
  · next hcond => exact Or.inr ⟨hcond, Option.bind_eq_some_iff.mp hy⟩
  · cases hy

/-- A connective looks at its right operand where the left one decides nothing. -/
def lazyValue (op : BinaryOp) (g h : Valuation) : Valuation := fun s =>
  match g s with
  | some (.bool a) =>
    match Model.decided? op a with
    | some b => some (.bool b)
    | none => (h s).bind (·.coerce? .bool)
  | _ => none

namespace Checker

variable {c : Checker} {m : Model} {entered : Entered} {d : StateSet}

/-- The expression has the values of a valuation. -/
def HasValues (c : Checker) (m : Model) (entered : Entered) (e : Expr) (g : Valuation) : Prop :=
  Computes m.numStates (fun d => evalWith .whereOpen c m entered e (some d)) g

/-- A set of states has the values of its members. -/
theorem ofSet_computes {n : Nat} {p : Nat → Bool} (a : StateSet)
    (ha : ∀ s < n, a.contains s = p s) : Computes n (fun _ => pure (.ofSet a n)) fun s => some (.bool (p s)) := by
  intro d hd
  refine Settles.pure (fun s _ => ⟨_, rfl⟩) ⟨isPlain_ofSet a n, fun s hs y hy => ?_⟩
  cases hy
  rw [valueAt_ofSet (hd.lt s hs), ha s (hd.lt s hs)]

/-- The states that a property picks out of all states. -/
theorem contains_ofList_filter {n s : Nat} {p : Nat → Bool} (hn : n < stateLimit) (hs : s < n) :
    (StateSet.ofList ((List.range n).filter p)).contains s = p s := by
  have hindex : ∀ z < n, StateSet.index z = z := fun z hz => StateSet.index_of_lt (Nat.lt_trans hz hn)
  rw [Bool.eq_iff_iff, StateSet.contains_iff, StateSet.mem_ofList]
  constructor
  · rintro ⟨z, hz, heq⟩
    obtain ⟨hlt, hp⟩ := List.mem_filter.mp hz
    rw [hindex s hs, hindex z (List.mem_range.mp hlt)] at heq
    exact heq ▸ hp
  · exact fun hp => ⟨s, List.mem_filter.mpr ⟨List.mem_range.mpr hs, hp⟩, rfl⟩

theorem satisfaction_settles {n : Nat} {v : StateVector} {g : Valuation} (hn : n < stateLimit)
    (hd : d.IsDomain n) (hg : g.Defined d) (hv : Shows n d g v) :
    Settles (ofEval v.satisfaction) (g.DefinedBool d) (d.Shows g) := by
  have hlimit : ∀ s ∈ d, s < stateLimit := fun s hs => Nat.lt_trans (hd.lt s hs) hn
  refine Settles.ofEval (fun a ha => ?_) fun hbool => ?_
  · have hval : ∀ s ∈ d, v.valueAt s = .ok (.bool (a.contains s)) := fun s hs =>
      valueAt_of_satisfaction ha (hv.plain.1 ▸ hd.lt s hs)
    constructor
    · intro s hs
      obtain ⟨y, hy, hentry⟩ := hv.entry_of_defined hg hs
      rw [hval s hs] at hentry
      cases hentry
      exact ⟨_, hy⟩
    · intro s hs b hb
      have hentry := hv.entry s hs _ hb
      rw [hval s hs, StateSet.contains_eq_decide (hlimit s hs)] at hentry
      cases hentry
      exact (decide_eq_true_iff).symm
  · obtain ⟨s, hs⟩ := hd.nonempty
    obtain ⟨b, hb⟩ := hbool s hs
    exact satisfaction_of_valueAt (hv.entry s hs _ hb)

theorem defined_of_definedBool {g : Valuation} (h : g.DefinedBool d) : g.Defined d := by
  intro s hs
  obtain ⟨b, hb⟩ := h s hs
  exact ⟨_, hb⟩

theorem satisfying_settles {e : Expr} {g : Valuation} (hn : m.numStates < stateLimit) (hd : d.IsDomain m.numStates)
    (he : HasValues c m entered e g) :
    Settles (satisfying .whereOpen c m entered (some d) e) (g.DefinedBool d) (d.Shows g) :=
  (he d hd).bind defined_of_definedBool fun _ hg hv => satisfaction_settles hn hd hg hv

/-- An operand over the states where it still matters. -/
theorem evalOver_settles {e : Expr} {g : Valuation} {t : ValueType} {states : StateSet}
    (hlt : ∀ s ∈ states, s < m.numStates) (he : HasValues c m entered e g) :
    Settles (evalOver c m entered e t states) (g.Defined states) (Shows m.numStates states g) := by
  unfold evalOver
  cases hempty : states.isEmpty with
  | true =>
    have hnone := StateSet.isEmpty_iff.mp hempty
    exact Settles.pure (fun s hs => absurd hs (hnone s))
      ⟨isPlain_constant _ _, fun s hs => absurd hs (hnone s)⟩
  | false =>
    exact he states ⟨StateSet.isEmpty_eq_false_iff.mp hempty, hlt⟩

theorem satisfyingOver_settles {e : Expr} {g : Valuation} {states : StateSet} (hn : m.numStates < stateLimit)
    (hlt : ∀ s ∈ states, s < m.numStates) (he : HasValues c m entered e g) :
    Settles (satisfyingOver c m entered e states) (g.DefinedBool states) (states.Shows g) := by
  unfold satisfyingOver
  cases hempty : states.isEmpty with
  | true =>
    have hnone := StateSet.isEmpty_iff.mp hempty
    unfold evalOver
    rw [hempty, if_pos rfl, pure_bind]
    exact Settles.ofEval (fun a _ => ⟨fun s hs => absurd hs (hnone s), fun s hs => absurd hs (hnone s)⟩)
      fun _ => ⟨_, rfl⟩
  | false =>
    have hd : states.IsDomain m.numStates := ⟨StateSet.isEmpty_eq_false_iff.mp hempty, hlt⟩
    exact (evalOver_settles hlt he).bind defined_of_definedBool fun _ hg hv => satisfaction_settles hn hd hg hv

theorem narrow_lt {states : StateSet} (hd : d.IsDomain m.numStates) :
    ∀ s ∈ narrow states (some d), s < m.numStates :=
  fun s hs => hd.lt s (StateSet.mem_inter.mp hs).2

theorem mem_narrow {states : StateSet} {s : Nat} : s ∈ narrow states (some d) ↔ s ∈ states ∧ s ∈ d :=
  StateSet.mem_inter

theorem mem_complement_of_domain {a : StateSet} {n s : Nat} (hn : n < stateLimit) (hd : d.IsDomain n) (hs : s ∈ d) :
    s ∈ a.complement n ↔ s ∉ a := by
  rw [StateSet.mem_complement, StateSet.index_of_lt hn]
  exact and_iff_right (hd.lt s hs)

/-- Where the condition of a conditional holds, the first branch is evaluated. -/
theorem value_of_mem_narrow {g : Valuation} {holds : StateSet} (hbool : g.DefinedBool d) (hholds : d.Shows g holds)
    {s : Nat} (hs : s ∈ narrow holds (some d)) : g s = some (.bool true) := by
  obtain ⟨hmem, hsd⟩ := mem_narrow.mp hs
  obtain ⟨b, hb⟩ := hbool s hsd
  rw [hb, (hholds s hsd b hb).mp hmem]

/-- And elsewhere the second. -/
theorem value_of_mem_narrow_complement {g : Valuation} {holds : StateSet} (hn : m.numStates < stateLimit)
    (hd : d.IsDomain m.numStates) (hbool : g.DefinedBool d) (hholds : d.Shows g holds) {s : Nat}
    (hs : s ∈ narrow (holds.complement m.numStates) (some d)) : g s = some (.bool false) := by
  obtain ⟨hmem, hsd⟩ := mem_narrow.mp hs
  rw [mem_complement_of_domain hn hd hsd] at hmem
  obtain ⟨b, hb⟩ := hbool s hsd
  cases b with
  | true => exact absurd ((hholds s hsd true hb).mpr rfl) hmem
  | false => exact hb

/-- The entries of the two branches, put together by the condition, are the values of the conditional. -/
theorem iteValue_eq_entry {g gt ge : Valuation} {t : ValueType} {holds : StateSet} {tv ev : StateVector}
    (hn : m.numStates < stateLimit) (hd : d.IsDomain m.numStates) (hbool : g.DefinedBool d)
    (hholds : d.Shows g holds) (htdef : gt.Defined (narrow holds (some d)))
    (htv : Shows m.numStates (narrow holds (some d)) gt tv)
    (hedef : ge.Defined (narrow (holds.complement m.numStates) (some d)))
    (hev : Shows m.numStates (narrow (holds.complement m.numStates) (some d)) ge ev) {s : Nat} (hs : s ∈ d) :
    iteValue t g gt ge s =
      (do Value.applyIte (← (ofSet holds m.numStates).valueAt s) (← tv.valueAt s) (← ev.valueAt s) :
        Except EvalError Value).toOption.bind (·.coerce? t) := by
  have hlt := hd.lt s hs
  have hlimit : s < stateLimit := Nat.lt_trans hlt hn
  obtain ⟨x, hx⟩ := htv.plain.valueAt hlt
  obtain ⟨z, hz⟩ := hev.plain.valueAt hlt
  obtain ⟨b, hb⟩ := hbool s hs
  rw [valueAt_ofSet hlt, StateSet.contains_eq_decide hlimit, hx, hz]
  unfold iteValue
  cases b with
  | true =>
    have hmem : s ∈ holds := (hholds s hs true hb).mpr rfl
    have hnarrow := mem_narrow.mpr ⟨hmem, hs⟩
    obtain ⟨y, hy⟩ := htdef s hnarrow
    have hval := htv.entry s hnarrow y hy
    rw [hx] at hval
    cases hval
    simp only [hb, hy, hmem]
    rfl
  | false =>
    have hmem : s ∉ holds := fun h => by cases (hholds s hs false hb).mp h
    have hnarrow := mem_narrow.mpr ⟨(mem_complement_of_domain hn hd hs).mpr hmem, hs⟩
    obtain ⟨y, hy⟩ := hedef s hnarrow
    have hval := hev.entry s hnarrow y hy
    rw [hz] at hval
    cases hval
    simp only [hb, hy, hmem]
    rfl

theorem ite_hasValues {cond t e : Expr} {g gt ge : Valuation} (hn : m.numStates < stateLimit)
    (hcond : HasValues c m entered cond g) (ht : HasValues c m entered t gt) (he : HasValues c m entered e ge) :
    HasValues c m entered (.ite cond t e) (iteValue (t.type.choice e.type) g gt ge) := by
  intro d hd
  show Settles (evalWith .whereOpen c m entered (.ite cond t e) (some d)) _ _
  rw [evalWith_ite]
  -- The condition has to be a truth value in the whole domain, each branch only in its part.
  refine (satisfying_settles hn hd hcond).bind (fun hdef s hs => ?_) fun holds hbool hholds => ?_
  · obtain ⟨y, hy⟩ := hdef s hs
    rcases iteValue_eq_some hy with ⟨h, -⟩ | ⟨h, -⟩
    · exact ⟨true, h⟩
    · exact ⟨false, h⟩
  refine (evalOver_settles (narrow_lt hd) ht).bind (fun hdef s hs => ?_) fun tv htdef htv => ?_
  · obtain ⟨y, hy⟩ := hdef s (mem_narrow.mp hs).2
    rcases iteValue_eq_some hy with ⟨-, z, hz, -⟩ | ⟨h, -⟩
    · exact ⟨z, hz⟩
    · rw [value_of_mem_narrow hbool hholds hs] at h
      cases h
  refine (evalOver_settles (narrow_lt hd) he).bind (fun hdef s hs => ?_) fun ev hedef hev => ?_
  · obtain ⟨y, hy⟩ := hdef s (mem_narrow.mp hs).2
    rcases iteValue_eq_some hy with ⟨h, -⟩ | ⟨-, z, hz, -⟩
    · rw [value_of_mem_narrow_complement hn hd hbool hholds hs] at h
      cases h
    · exact ⟨z, hz⟩
  rw [map3_eq (isPlain_ofSet _ _) htv.plain hev.plain]
  exact tabulate_computesOn hn hd fun s hs => iteValue_eq_entry hn hd hbool hholds htdef htv hedef hev hs

theorem decided?_eq_none {op : BinaryOp} {a : Bool} {n s : Nat} {left : StateSet} (hop : op.isLazy = true)
    (hmem : s ∈ left ↔ a = true) (hcompl : s ∈ left.complement n ↔ s ∉ left) :
    s ∈ openStates op n left ↔ Model.decided? op a = none := by
  cases op <;> simp [BinaryOp.isLazy] at hop <;> cases a <;> simp_all [openStates, Model.decided?]

/-- What a connective makes of its operands, in a state where the left one is known. -/
theorem mem_connect {op : BinaryOp} {a : Bool} {n s : Nat} {left : StateSet} (right : StateSet)
    (hop : op.isLazy = true) (hmem : s ∈ left ↔ a = true) (hcompl : s ∈ left.complement n ↔ s ∉ left) :
    s ∈ connect op n left right ↔ (Model.decided? op a).getD (decide (s ∈ right)) = true := by
  cases op <;> simp [BinaryOp.isLazy] at hop <;> cases a <;> simp_all [connect, Model.decided?]

/-- Where a connective has a value, its left operand does, and its right one unless the left one decides. -/
theorem lazyValue_eq_some {op : BinaryOp} {g h : Valuation} {s : Nat} {y : Value}
    (hy : lazyValue op g h s = some y) :
    ∃ a, g s = some (.bool a) ∧ (Model.decided? op a = none → ∃ b, h s = some (.bool b)) := by
  unfold lazyValue at hy
  split at hy
  · next a ha =>
    refine ⟨a, ha, fun hopen => ?_⟩
    rw [hopen] at hy
    obtain ⟨z, hz, hw⟩ := Option.bind_eq_some_iff.mp hy
    obtain ⟨b, hb, -⟩ := Value.coerce?_bool.mp hw
    exact ⟨b, by rw [hz, Value.expectBool_eq_ok.mp hb]⟩
  · cases hy

theorem lazy_hasValues {op : BinaryOp} {l r : Expr} {g h : Valuation} (hn : m.numStates < stateLimit)
    (hop : op.isLazy = true) (hl : HasValues c m entered l g) (hr : HasValues c m entered r h) :
    HasValues c m entered (.binary op l r) (lazyValue op g h) := by
  intro d hd
  show Settles (evalWith .whereOpen c m entered (.binary op l r) (some d)) _ _
  rw [evalWith_lazy c m entered _ hop]
  refine (satisfying_settles hn hd hl).bind (fun hdef s hs => ?_) fun left hbool hleft => ?_
  · obtain ⟨y, hy⟩ := hdef s hs
    obtain ⟨a, ha, -⟩ := lazyValue_eq_some hy
    exact ⟨a, ha⟩
  -- The right operand is evaluated exactly where the left one decides nothing.
  have hopen : ∀ s ∈ d, ∀ a, g s = some (.bool a) →
      (s ∈ narrow (openStates op m.numStates left) (some d) ↔ Model.decided? op a = none) := by
    intro s hs a ha
    rw [mem_narrow, decided?_eq_none hop (hleft s hs a ha) (mem_complement_of_domain hn hd hs)]
    exact and_iff_left hs
  refine (satisfyingOver_settles hn (narrow_lt hd) hr).bind (fun hdef s hs => ?_) fun right hrbool hright => ?_
  · obtain ⟨y, hy⟩ := hdef s (mem_narrow.mp hs).2
    obtain ⟨a, ha, hb⟩ := lazyValue_eq_some hy
    exact hb ((hopen s (mem_narrow.mp hs).2 a ha).mp hs)
  have hvalue : ∀ s ∈ d, lazyValue op g h s =
      some (.bool (decide (s ∈ connect op m.numStates left right))) := by
    intro s hs
    obtain ⟨a, ha⟩ := hbool s hs
    have hconnect := mem_connect right hop (hleft s hs a ha) (mem_complement_of_domain hn hd hs)
    unfold lazyValue
    simp only [ha, hconnect]
    cases hdec : Model.decided? op a with
    | some b => simp
    | none =>
      have hnarrow := (hopen s hs a ha).mpr hdec
      obtain ⟨b, hb⟩ := hrbool s hnarrow
      have hmem := hright s hnarrow b hb
      simp [hb, hmem, Value.coerce?]
  refine Settles.pure (fun s hs => ⟨_, hvalue s hs⟩) ⟨isPlain_ofSet _ _, fun s hs y hy => ?_⟩
  rw [hvalue s hs] at hy
  cases hy
  rw [valueAt_ofSet (hd.lt s hs), StateSet.contains_eq_decide (Nat.lt_trans (hd.lt s hs) hn)]

theorem strict_hasValues {op : BinaryOp} {l r : Expr} {g h : Valuation} (hn : m.numStates < stateLimit)
    (hop : op.isLazy = false) (hl : HasValues c m entered l g) (hr : HasValues c m entered r h) :
    HasValues c m entered (.binary op l r)
      (mapValue2 (op.resultType l.type r.type) (Value.applyBinary op) g h) := by
  intro d hd
  show Settles (evalWith .whereOpen c m entered (.binary op l r) (some d)) _ _
  rw [evalWith_strict .whereOpen c m entered _ (by simp [hop])]
  refine (hl d hd).bind (fun hdef s hs => ?_) fun lv hg hlv => ?_
  · obtain ⟨y, hy⟩ := hdef s hs
    exact mapValue2_left hy
  refine (hr d hd).bind (fun hdef s hs => ?_) fun rv hh hrv => map2_computesOn hn hd hg hlv hh hrv
  obtain ⟨y, hy⟩ := hdef s hs
  exact mapValue2_right hy

/-! ## Functions -/

theorem unary_hasValues {op : UnaryOp} {e : Expr} {g : Valuation} (hn : m.numStates < stateLimit)
    (hop : op ≠ .parenth) (he : HasValues c m entered e g) :
    HasValues c m entered (.unary op e) (mapValue (op.resultType e.type) (Value.applyUnary op) g) := by
  intro d hd
  show Settles (evalWith .whereOpen c m entered (.unary op e) (some d)) _ _
  rw [evalWith_unary .whereOpen c m entered _ hop]
  refine (he d hd).bind (fun hdef s hs => ?_) fun v hg hv => map1_computesOn hn hd hg hv
  obtain ⟨y, hy⟩ := hdef s hs
  obtain ⟨a, ha, -⟩ := Option.bind_eq_some_iff.mp hy
  exact ⟨a, ha⟩

theorem rounding_hasValues {f : Function} {a : Expr} {g : Valuation} (hn : m.numStates < stateLimit)
    (hf : f.IsRounding) (ha : HasValues c m entered a g) :
    HasValues c m entered (.call f [a]) (mapValue (f.resultType [a.type]) (Value.applyFunction1 f) g) := by
  intro d hd
  show Settles (evalWith .whereOpen c m entered (.call f [a]) (some d)) _ _
  rw [evalWith_rounding .whereOpen c m entered _ hf]
  refine (ha d hd).bind (fun hdef s hs => ?_) fun v hg hv => map1_computesOn hn hd hg hv
  obtain ⟨y, hy⟩ := hdef s hs
  obtain ⟨z, hz, -⟩ := Option.bind_eq_some_iff.mp hy
  exact ⟨z, hz⟩

theorem dyadic_hasValues {f : Function} {a b : Expr} {g h : Valuation} (hn : m.numStates < stateLimit)
    (hf : f.IsDyadic) (ha : HasValues c m entered a g) (hb : HasValues c m entered b h) :
    HasValues c m entered (.call f [a, b])
      (mapValue2 (f.resultType [a.type, b.type]) (Value.applyFunction2 f) g h) := by
  intro d hd
  show Settles (evalWith .whereOpen c m entered (.call f [a, b]) (some d)) _ _
  rw [evalWith_dyadic .whereOpen c m entered _ hf]
  refine (ha d hd).bind (fun hdef s hs => ?_) fun v hg hv => ?_
  · obtain ⟨y, hy⟩ := hdef s hs
    exact mapValue2_left hy
  refine (hb d hd).bind (fun hdef s hs => ?_) fun w hh hw => map2_computesOn hn hd hg hv hh hw
  obtain ⟨y, hy⟩ := hdef s hs
  exact mapValue2_right hy

theorem combineArgs_computesOn {f : Function} {t : ValueType} (hn : m.numStates < stateLimit)
    (hd : d.IsDomain m.numStates) {val : Expr → Valuation} {args : List Expr}
    (hargs : ∀ a ∈ args, HasValues c m entered a (val a)) {g : Valuation} {acc : StateVector} (hg : g.Defined d)
    (hacc : Shows m.numStates d g acc) :
    ComputesOn m.numStates d (combineArgs .whereOpen c m entered f t acc args (some d))
      (foldValue f t g (args.map val)) := by
  induction args generalizing g acc with
  | nil =>
    rw [combineArgs_nil]
    exact Settles.pure hg hacc
  | cons a rest ih =>
    rw [combineArgs_cons]
    have hstart : (foldValue f t g ((a :: rest).map val)).Defined d →
        (mapValue2 t (Value.applyFunction2 f) g (val a)).Defined d := by
      intro hdef s hs
      obtain ⟨y, hy⟩ := hdef s hs
      exact foldValue_start hy
    refine (hargs a List.mem_cons_self d hd).bind (fun hdef s hs => ?_) fun v hh hv => ?_
    · obtain ⟨y, hy⟩ := hstart hdef s hs
      exact mapValue2_right hy
    refine (map2_computesOn hn hd hg hacc hh hv).bind hstart fun acc' hg' hacc' => ?_
    exact ih (fun b hb => hargs b (List.mem_cons_of_mem a hb)) hg' hacc'

theorem extremum_hasValues {f : Function} {a b : Expr} {rest : List Expr} (hn : m.numStates < stateLimit)
    (hf : f.IsExtremum) {val : Expr → Valuation} (hargs : ∀ e ∈ a :: b :: rest, HasValues c m entered e (val e)) :
    HasValues c m entered (.call f (a :: b :: rest))
      (foldValue f (f.resultType (Expr.types (a :: b :: rest))) (val a) ((b :: rest).map val)) := by
  intro d hd
  show Settles (evalWith .whereOpen c m entered (.call f (a :: b :: rest)) (some d)) _ _
  rw [evalWith_extremum .whereOpen c m entered _ hf]
  refine (hargs a List.mem_cons_self d hd).bind (fun hdef s hs => ?_) fun v hg hv => ?_
  · obtain ⟨y, hy⟩ := hdef s hs
    exact foldValue_start hy
  exact combineArgs_computesOn hn hd (fun e he => hargs e (List.mem_cons_of_mem a he)) hg hv

/-! ## Every expression -/

/-- The value of an expression in a state: the entry of the evaluation over this state alone. -/
def pointValue (c : Checker) (m : Model) (entered : Entered) (e : Expr) : Valuation := fun s =>
  (outcome (evalWith .whereOpen c m entered e (some (.singleton s))) .start).toOption.bind fun v =>
    (v.valueAt s).toOption

/-- The values that an expression has are the point values. -/
theorem HasValues.pointValue {e : Expr} {g : Valuation} (hn : m.numStates < stateLimit)
    (he : HasValues c m entered e g) : HasValues c m entered e (pointValue c m entered e) := by
  refine he.congr fun s hs => ?_
  have hindex : StateSet.index s = s := StateSet.index_of_lt (Nat.lt_trans hs hn)
  obtain ⟨hself, hd⟩ := isDomain_singleton hn hs
  unfold Checker.pointValue
  cases h : outcome (evalWith .whereOpen c m entered e (some (.singleton s))) .start with
  | error err =>
    cases hg : g s with
    | none => rfl
    | some y =>
      refine absurd (fun z hz => ?_) ((he _ hd).fails _ _ h)
      rw [StateSet.mem_singleton, hindex] at hz
      exact ⟨y, by rw [hz, hg]⟩
  | ok v =>
    obtain ⟨hdef, hshows⟩ := (he _ hd).sound _ _ h
    obtain ⟨y, hy, hval⟩ := hshows.entry_of_defined hdef hself
    rw [hy]
    simp [Except.toOption, hval]

/-- An expression whose evaluation ignores the domain. -/
theorem fixed_hasValues {e : Expr} {x : Check StateVector} (hn : m.numStates < stateLimit) (hc : c.solver = none)
    (hx : ∀ domain, evalWith .whereOpen c m entered e domain = x) :
    HasValues c m entered e (pointValue c m entered e) := by
  have hfits : Delivers x (·.Fits m) := hx none ▸ evalWith_delivers .whereOpen c m hc entered e none
  have hcomputes := Computes.fixed hfits
  have hfun : (fun d => evalWith .whereOpen c m entered e (some d)) = fun _ => x := funext fun d => hx (some d)
  rw [← hfun] at hcomputes
  exact HasValues.pointValue hn hcomputes

theorem call_hasValues {f : Function} {args : List Expr} (hn : m.numStates < stateLimit) (hc : c.solver = none)
    (hargs : ∀ a ∈ args, HasValues c m entered a (pointValue c m entered a)) :
    HasValues c m entered (.call f args) (pointValue c m entered (.call f args)) := by
  by_cases hmulti : f = .multi
  · rw [hmulti]
    exact fixed_hasValues hn hc fun domain => evalWith_multi_unsolved .whereOpen c m entered domain hc args
  · cases haccepts : f.accepts args.length with
    | false =>
      exact fixed_hasValues hn hc fun domain => evalWith_wrongArity .whereOpen c m entered _ hmulti haccepts
    | true =>
      rcases Function.accepts_cases haccepts with ⟨hf, a, b, rest, rfl⟩ | ⟨hf, a, rfl⟩ | ⟨hf, a, b, rfl⟩
      · exact (extremum_hasValues hn hf hargs).pointValue hn
      · exact (rounding_hasValues hn hf (hargs a List.mem_cons_self)).pointValue hn
      · exact (dyadic_hasValues hn hf (hargs a List.mem_cons_self) (hargs b (by simp))).pointValue hn

theorem observable_hasValues {name : String} {t : ValueType} (hn : m.numStates < stateLimit)
    (hc : c.solver = none) :
    HasValues c m entered (.observable name t) (pointValue c m entered (.observable name t)) := by
  cases hindex : c.definitions.observableIndex? name with
  | none =>
    refine fixed_hasValues hn hc (x := throw (.unknownObservable name)) fun domain => ?_
    rw [evalWith_observable]
    unfold observableVector
    rw [hindex]
  | some index =>
    by_cases hkind : m.kind.isPartiallyObservable = true
    · refine HasValues.pointValue hn (g := lookupValue t fun s => m.observation? s index) fun d hd => ?_
      have : evalWith .whereOpen c m entered (.observable name t) (some d) =
          lookupVector m name t (some d) fun s => m.observation? s index := by
        rw [evalWith_observable]
        unfold observableVector
        rw [hindex]
        exact if_pos hkind
      simp only [this]
      exact lookup_computes m hn name t _ d hd
    · refine fixed_hasValues hn hc (x := throw (.unsupported .observables m.kind)) fun domain => ?_
      rw [evalWith_observable]
      unfold observableVector
      rw [hindex]
      exact if_neg hkind

/-- Without a solver every expression has a value in some states and none in the others, and evaluating it
over a domain yields these values. -/
theorem evalWith_hasValues (hn : m.numStates < stateLimit) (hc : c.solver = none) (entered : Entered) (e : Expr) :
    HasValues c m entered e (pointValue c m entered e) := by
  -- Whatever valuation a case gives is exchanged for the point values, so that all cases say the same.
  match e with
  | .ite cond t e =>
    exact (ite_hasValues hn (evalWith_hasValues hn hc entered cond) (evalWith_hasValues hn hc entered t)
      (evalWith_hasValues hn hc entered e)).pointValue hn
  | .binary op l r =>
    have hl := evalWith_hasValues hn hc entered l
    have hr := evalWith_hasValues hn hc entered r
    cases hop : op.isLazy with
    | true => exact (lazy_hasValues hn hop hl hr).pointValue hn
    | false => exact (strict_hasValues hn hop hl hr).pointValue hn
  | .unary op e =>
    have he := evalWith_hasValues hn hc entered e
    by_cases hop : op = .parenth
    · refine HasValues.pointValue (g := pointValue c m entered e) hn fun d hd => ?_
      simp only [hop, evalWith_parenth]
      exact he d hd
    · exact (unary_hasValues hn hop he).pointValue hn
  | .call f args => exact call_hasValues hn hc fun a ha => evalWith_hasValues hn hc entered a
  | .filter op e p invisible explained =>
    exact fixed_hasValues hn hc fun domain =>
      evalWith_filter .whereOpen c m entered domain op e p invisible explained
  | .literal v => exact fixed_hasValues hn hc fun domain => evalWith_literal .whereOpen c m entered domain v
  | .constant name t =>
    exact fixed_hasValues hn hc fun domain => evalWith_constant .whereOpen c m entered domain name t
  | .ident name t => exact fixed_hasValues hn hc fun domain => evalWith_ident .whereOpen c m entered domain name t
  | .formula name (some body) t =>
    refine HasValues.pointValue (g := pointValue c m entered body) hn fun d hd => ?_
    simp only [evalWith_expanded]
    exact evalWith_hasValues hn hc entered body d hd
  | .formula name none t =>
    exact fixed_hasValues hn hc fun domain => evalWith_unexpanded .whereOpen c m entered domain name t
  | .var name index t =>
    refine HasValues.pointValue (g := lookupValue t fun s => m.value? s index.toNat) hn fun d hd => ?_
    simp only [evalWith_var]
    exact lookup_computes m hn name t _ d hd
  | .observable name t => exact observable_hasValues hn hc
  | .label name =>
    rcases evalWith_label_cases c m entered name with ⟨states, -, h⟩ | h | h | ⟨body, -, hlt, h⟩
    · exact fixed_hasValues hn hc (h _)
    · exact fixed_hasValues hn hc (h _)
    · exact fixed_hasValues hn hc (h _)
    · refine HasValues.pointValue (g := pointValue c m (entered.label name) body) hn fun d hd => ?_
      simp only [h]
      exact evalWith_hasValues hn hc (entered.label name) body d hd
  | .property name t =>
    rcases evalWith_property_cases c m entered name t with ⟨e, h⟩ | ⟨body, -, hlt, h⟩
    · exact fixed_hasValues hn hc (h _)
    · refine HasValues.pointValue (g := pointValue c m (entered.property name) body) hn fun d hd => ?_
      simp only [h]
      exact Computes.message _ (evalWith_hasValues hn hc (entered.property name) body) d hd
  | .quant measure query operand =>
    exact fixed_hasValues hn hc fun domain =>
      evalWith_quant .whereOpen c m entered domain hc measure query operand
  | .path op operands bound =>
    exact fixed_hasValues hn hc fun domain => evalWith_path .whereOpen c m entered domain op operands bound
termination_by (c.definitions.remaining entered, sizeOf e)

end Checker

end Statewise
