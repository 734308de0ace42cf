import Statewise.Proofs.Narrowing
import Statewise.Proofs.Submodel
import Mathlib.Tactic.Choose

/-!
# Restricting a model commutes with evaluation

An expression that looks at the current state alone means in a restricted model what it means in the model, with the
states renumbered. The meaning of an expression is its value in each state, since evaluation is pointwise, and one thing
more: over no states there is no value to go by, and yet the evaluation fails there on unknown names and on operands
that are no truth values. So a meaning also says whether the evaluation goes through over no states, and with what type.

Each kind of expression has one lemma that makes its meaning from those of its operands. Made from meanings that agree
up to the numbers of the states, the results agree in the same way.
-/

namespace Statewise

open Check StateVector

/-! ## What an evaluation comes to -/

/-- An evaluation of the first expression may come to the second one: through subexpressions and through the bodies of
definitions, except those of labels that are attached to the model. -/
inductive Definitions.Meets (d : Definitions) (m : Model) : Expr → Expr → Prop where
  | refl (e : Expr) : Meets d m e e
  | child {e a b : Expr} (ha : a ∈ e.children) (h : Meets d m a b) : Meets d m e b
  | label {name : String} {body b : Expr} (hm : m.labelStates? name = none) (hd : d.label? name = some body)
    (h : Meets d m body b) : Meets d m (.label name) b
  | property {name : String} {t : ValueType} {body b : Expr} (hd : d.property? name = some body)
    (h : Meets d m body b) : Meets d m (.property name t) b

/-- What holds throughout an expression and the definitions holds of all that an evaluation comes to. -/
theorem Definitions.Meets.of_throughout {d : Definitions} {m : Model} {p : Expr → Prop} {e a : Expr}
    (h : d.Meets m e a) (hd : d.Throughout p) (he : e.Throughout p) : p a := by
  induction h with
  | refl => exact he.self
  | child ha _ ih => exact ih (he.child ha)
  | label _ hbody _ ih => exact ih (hd.label hbody)
  | property hbody _ ih => exact ih (hd.property hbody)

/-- The expression itself is no filter and not the built-in label of the states without a successor: the two that look
at more than the current state. -/
def Checker.LooksHere (c : Checker) (m : Model) : Expr → Prop
  | .filter .. => False
  | .label name => m.labelStates? name = none → c.definitions.label? name = none → name ≠ Expr.deadlockName
  | _ => True

/-! ## Meanings -/

/-- A vector of a type, with one value per state. -/
structure StateVector.IsOf (n : Nat) (t : ValueType) (v : StateVector) : Prop where
  plain : v.IsPlain n
  type : v.type = t

/-- What an evaluation has to know of an operand. -/
structure Meaning where
  values : Valuation
  /-- Whether the evaluation over no states goes through. -/
  passes : Prop
  /-- The type of the vector over no states. -/
  type : ValueType

namespace Meaning

/-- The meaning of what always fails. -/
def failure : Meaning := ⟨fun _ => none, False, .bool⟩

instance : Inhabited Meaning := ⟨failure⟩

/-- The meaning for states with other numbers. -/
def along (old : Nat → Nat) (d : Meaning) : Meaning := { d with values := d.values ∘ old }

/-- Whether the evaluation over the states goes through. -/
def Succeeds (d : Meaning) (states : StateSet) : Prop :=
  d.values.Defined states ∧ (states.isEmpty = true → d.passes)

/-- Numbering some states anew does not change whether the evaluation over them goes through. -/
theorem succeeds_along {d : Meaning} {old : Nat → Nat} {states news : StateSet} (hinto : ∀ i ∈ news, old i ∈ states)
    (honto : ∀ s ∈ states, ∃ i ∈ news, old i = s) : (d.along old).Succeeds news ↔ d.Succeeds states := by
  have hdefined : (d.along old).values.Defined news ↔ d.values.Defined states := by
    constructor
    · intro h s hs
      obtain ⟨i, hi, rfl⟩ := honto s hs
      exact h i hi
    · exact fun h i hi => h (old i) (hinto i hi)
  have hempty : news.isEmpty = true ↔ states.isEmpty = true := by
    rw [StateSet.isEmpty_iff, StateSet.isEmpty_iff]
    constructor
    · intro h s hs
      obtain ⟨i, hi, -⟩ := honto s hs
      exact h i hi
    · exact fun h i hi => h (old i) (hinto i hi)
  exact and_congr hdefined (imp_congr_left hempty)

end Meaning

section

variable {n : Nat} {t : ValueType} {v w : StateVector}

/-- Over no states nothing can go wrong in a tabulation. -/
theorem tabulate_empty {ε : Type} (lift : EvalError → ε) (n : Nat) (t : ValueType) (f : Nat → Except ε Value) :
    ∃ out, tabulate lift t n (some .empty) f = .ok out ∧ out.IsOf n t := by
  obtain ⟨out, hout⟩ : ∃ out, tabulate lift t n (some .empty) f = .ok out :=
    tabulate_succeeds fun s hs => absurd hs (StateSet.not_mem_empty s)
  exact ⟨out, hout, (tabulate_spec hout).plain, (tabulate_spec hout).type⟩

theorem map1_empty (hv : v.IsPlain n) (f : Value → Except EvalError Value) :
    ∃ out, v.map1 t (some .empty) f = .ok out ∧ out.IsOf n t := by
  obtain ⟨out, hout, hof⟩ := tabulate_empty id n t fun s => do f (← v.valueAt s)
  exact ⟨_, (map1_eq_ok hv).mpr ⟨out, hout, rfl⟩, hof.plain, hof.type⟩

theorem map2_empty (hv : v.IsPlain n) (hw : w.IsPlain n) (f : Value → Value → Except EvalError Value) :
    ∃ out, v.map2 w t (some .empty) f = .ok out ∧ out.IsOf n t := by
  rw [map2_eq hv hw]
  exact tabulate_empty ..

theorem settles_ofEval {x : Except EvalError StateVector} {S : Prop} (hS : S)
    (hx : ∃ out, x = .ok out ∧ out.IsOf n t) : Settles (ofEval x) S (IsOf n t) := by
  obtain ⟨out, rfl, hof⟩ := hx
  exact Settles.pure hS hof

theorem settles_ofExcept {x : Except CheckError StateVector} {S : Prop} (hS : S)
    (hx : ∃ out, x = .ok out ∧ out.IsOf n t) : Settles (Check.ofExcept x) S (IsOf n t) := by
  obtain ⟨out, rfl, hof⟩ := hx
  exact Settles.pure hS hof

end

namespace Checker

variable {c : Checker} {m : Model} {entered : Entered}

/-- The evaluation of an expression has a meaning. -/
structure Means (c : Checker) (m : Model) (entered : Entered) (e : Expr) (d : Meaning) : Prop where
  values : HasValues c m entered e d.values
  nowhere : Settles (evalWith .whereOpen c m entered e (some .empty)) d.passes (IsOf m.numStates d.type)

/-- A meaning says over which states the evaluation succeeds, and the entries there. -/
theorem Means.settles {e : Expr} {d : Meaning} {states : StateSet} (h : c.Means m entered e d)
    (hlt : ∀ s ∈ states, s < m.numStates) :
    Settles (evalWith .whereOpen c m entered e (some states)) (d.Succeeds states)
      (Shows m.numStates states d.values) := by
  cases hempty : states.isEmpty with
  | true =>
    have hnone := StateSet.isEmpty_iff.mp hempty
    obtain rfl : states = .empty := StateSet.ext fun s => by simp [hnone s]
    refine h.nowhere.imp ⟨fun hpass => ⟨fun s hs => absurd hs (hnone s), fun _ => hpass⟩, fun hs => hs.2 hempty⟩ ?_
    exact fun v _ hv => ⟨hv.plain, fun s hs => absurd hs (hnone s)⟩
  | false =>
    refine (h.values states ⟨StateSet.isEmpty_eq_false_iff.mp hempty, hlt⟩).imp ?_ fun _ _ hv => hv
    exact ⟨fun hdef => ⟨hdef, fun h => by rw [hempty] at h; cases h⟩, And.left⟩

theorem Means.congr {e : Expr} {d : Meaning} {g : Valuation} (h : c.Means m entered e d)
    (hg : ∀ s < m.numStates, d.values s = g s) : c.Means m entered e { d with values := g } :=
  ⟨h.values.congr hg, h.nowhere⟩

/-! ### References and constants -/

section

variable {e : Expr}

/-- An evaluation that fails over all states alike. -/
theorem fail_means {err : CheckError} (h : ∀ domain, evalWith .whereOpen c m entered e domain = throw err) :
    c.Means m entered e .failure where
  values := by
    intro d hd
    simp only [h]
    exact Computes.fail err d hd
  nowhere := by
    rw [h]
    exact Settles.throw err id

theorem set_means {p : Nat → Bool} (a : StateSet) (ha : ∀ s < m.numStates, a.contains s = p s)
    (h : ∀ domain, evalWith .whereOpen c m entered e domain = pure (.ofSet a m.numStates)) :
    c.Means m entered e ⟨fun s => some (.bool (p s)), True, .bool⟩ where
  values := by
    intro d hd
    simp only [h]
    exact ofSet_computes a ha d hd
  nowhere := by
    rw [h]
    exact Settles.pure trivial ⟨isPlain_ofSet _ _, rfl⟩

theorem constant_means (hn : m.numStates < stateLimit) (v : Value)
    (h : ∀ domain, evalWith .whereOpen c m entered e domain = pure (.constant v m.numStates)) :
    c.Means m entered e ⟨fun _ => some v, True, v.type⟩ where
  values := by
    intro d hd
    simp only [h]
    exact Computes.constant hn v d hd
  nowhere := by
    rw [h]
    exact Settles.pure trivial ⟨isPlain_constant _ _, type_constant _ _⟩

theorem lookup_means {name : String} {t : ValueType} {value? : Nat → Option Value} (hn : m.numStates < stateLimit)
    (h : ∀ domain, evalWith .whereOpen c m entered e domain = lookupVector m name t domain value?) :
    c.Means m entered e ⟨lookupValue t value?, True, t⟩ where
  values := by
    intro d hd
    simp only [h]
    exact lookup_computes m hn name t value? d hd
  nowhere := by
    rw [h]
    exact settles_ofExcept trivial (tabulate_empty ..)

end

/-! ### Operands -/

section

variable {cond t e l r : Expr} {a b b' : Meaning}

/-- Over no states an expression is satisfied by no more than its type. -/
theorem satisfying_empty (h : c.Means m entered e a) :
    Settles (satisfying .whereOpen c m entered (some .empty) e) (a.passes ∧ a.type = .bool) fun _ => True := by
  refine h.nowhere.bind And.left fun v hpasses hv => Settles.ofEval (fun holds hholds => ?_) fun hbool => ?_
  · exact ⟨⟨hpasses, hv.type ▸ type_of_satisfaction hholds⟩, trivial⟩
  · exact satisfaction_of_type (hv.type.trans hbool.2)

/-- No part of no states is left for an operand. -/
theorem evalOver_empty (e : Expr) (t : ValueType) (states : StateSet) :
    evalOver c m entered e t (narrow states (some .empty)) = pure (.zero t m.numStates) :=
  if_pos (StateSet.isEmpty_iff.mpr fun s hs => StateSet.not_mem_empty s (mem_narrow.mp hs).2)

theorem ite_means (hn : m.numStates < stateLimit) (hcond : c.Means m entered cond a) (ht : c.Means m entered t b)
    (he : c.Means m entered e b') :
    c.Means m entered (.ite cond t e)
      ⟨iteValue (t.type.choice e.type) a.values b.values b'.values, a.passes ∧ a.type = .bool,
        t.type.choice e.type⟩ where
  values := ite_hasValues hn hcond.values ht.values he.values
  nowhere := by
    rw [evalWith_ite]
    refine (satisfying_empty hcond).bind id fun holds hpasses _ => ?_
    have hzero : (zero (t.type.choice e.type) m.numStates).IsPlain m.numStates := isPlain_constant _ _
    rw [evalOver_empty, evalOver_empty, pure_bind, pure_bind, map3_eq (isPlain_ofSet _ _) hzero hzero]
    exact settles_ofEval hpasses (tabulate_empty ..)

theorem lazy_means {op : BinaryOp} (hn : m.numStates < stateLimit) (hop : op.isLazy = true)
    (hl : c.Means m entered l a) (hr : c.Means m entered r b) :
    c.Means m entered (.binary op l r) ⟨lazyValue op a.values b.values, a.passes ∧ a.type = .bool, .bool⟩ where
  values := lazy_hasValues hn hop hl.values hr.values
  nowhere := by
    rw [evalWith_lazy c m entered _ hop]
    refine (satisfying_empty hl).bind id fun left hpasses _ => ?_
    unfold satisfyingOver
    rw [evalOver_empty, pure_bind]
    exact Settles.pure hpasses ⟨isPlain_ofSet _ _, rfl⟩

theorem strict_means {op : BinaryOp} (hn : m.numStates < stateLimit) (hop : op.isLazy = false)
    (hl : c.Means m entered l a) (hr : c.Means m entered r b) :
    c.Means m entered (.binary op l r)
      ⟨mapValue2 (op.resultType l.type r.type) (Value.applyBinary op) a.values b.values, a.passes ∧ b.passes,
        op.resultType l.type r.type⟩ where
  values := strict_hasValues hn hop hl.values hr.values
  nowhere := by
    rw [evalWith_strict .whereOpen c m entered _ (by simp [hop])]
    refine hl.nowhere.bind And.left fun lv hlpasses hlv => hr.nowhere.bind And.right fun rv hrpasses hrv => ?_
    exact settles_ofEval ⟨hlpasses, hrpasses⟩ (map2_empty hlv.plain hrv.plain _)

theorem unary_means {op : UnaryOp} (hn : m.numStates < stateLimit) (hop : op ≠ .parenth) (he : c.Means m entered e a) :
    c.Means m entered (.unary op e)
      ⟨mapValue (op.resultType e.type) (Value.applyUnary op) a.values, a.passes, op.resultType e.type⟩ where
  values := unary_hasValues hn hop he.values
  nowhere := by
    rw [evalWith_unary .whereOpen c m entered _ hop]
    exact he.nowhere.bind id fun v hpasses hv => settles_ofEval hpasses (map1_empty hv.plain _)

theorem rounding_means {f : Function} (hn : m.numStates < stateLimit) (hf : f.IsRounding) (he : c.Means m entered e a) :
    c.Means m entered (.call f [e])
      ⟨mapValue (f.resultType [e.type]) (Value.applyFunction1 f) a.values, a.passes, f.resultType [e.type]⟩ where
  values := rounding_hasValues hn hf he.values
  nowhere := by
    rw [evalWith_rounding .whereOpen c m entered _ hf]
    exact he.nowhere.bind id fun v hpasses hv => settles_ofEval hpasses (map1_empty hv.plain _)

theorem dyadic_means {f : Function} (hn : m.numStates < stateLimit) (hf : f.IsDyadic) (hl : c.Means m entered l a)
    (hr : c.Means m entered r b) :
    c.Means m entered (.call f [l, r])
      ⟨mapValue2 (f.resultType [l.type, r.type]) (Value.applyFunction2 f) a.values b.values, a.passes ∧ b.passes,
        f.resultType [l.type, r.type]⟩ where
  values := dyadic_hasValues hn hf hl.values hr.values
  nowhere := by
    rw [evalWith_dyadic .whereOpen c m entered _ hf]
    refine hl.nowhere.bind And.left fun lv hlpasses hlv => hr.nowhere.bind And.right fun rv hrpasses hrv => ?_
    exact settles_ofEval ⟨hlpasses, hrpasses⟩ (map2_empty hlv.plain hrv.plain _)

theorem combineArgs_empty {f : Function} {t : ValueType} {args : List Expr} {acc : StateVector} {d : Expr → Meaning}
    (hargs : ∀ a ∈ args, c.Means m entered a (d a)) (hacc : acc.IsPlain m.numStates) (htype : args = [] → acc.type = t) :
    Settles (combineArgs .whereOpen c m entered f t acc args (some .empty)) (∀ a ∈ args, (d a).passes)
      (IsOf m.numStates t) := by
  induction args generalizing acc with
  | nil =>
    rw [combineArgs_nil]
    exact Settles.pure (fun a ha => absurd ha List.not_mem_nil) ⟨hacc, htype rfl⟩
  | cons a rest ih =>
    rw [combineArgs_cons]
    refine (hargs a List.mem_cons_self).nowhere.bind (fun h => h a List.mem_cons_self) fun v hpasses hv => ?_
    obtain ⟨out, hout, hof⟩ := map2_empty (t := t) hacc hv.plain (Value.applyFunction2 f)
    rw [hout, List.forall_mem_cons, and_iff_right hpasses]
    exact ih (fun b hb => hargs b (List.mem_cons_of_mem a hb)) hof.plain fun _ => hof.type

theorem extremum_means {f : Function} {e₀ e₁ : Expr} {rest : List Expr} {d : Expr → Meaning}
    (hn : m.numStates < stateLimit) (hf : f.IsExtremum) (hargs : ∀ e ∈ e₀ :: e₁ :: rest, c.Means m entered e (d e)) :
    c.Means m entered (.call f (e₀ :: e₁ :: rest))
      ⟨foldValue f (f.resultType (Expr.types (e₀ :: e₁ :: rest))) (d e₀).values
          ((e₁ :: rest).map fun e => (d e).values),
        ∀ e ∈ e₀ :: e₁ :: rest, (d e).passes, f.resultType (Expr.types (e₀ :: e₁ :: rest))⟩ where
  values := extremum_hasValues hn hf fun e he => (hargs e he).values
  nowhere := by
    rw [evalWith_extremum .whereOpen c m entered _ hf]
    refine (hargs e₀ List.mem_cons_self).nowhere.bind (fun h => h e₀ List.mem_cons_self) fun v hpasses hv => ?_
    rw [List.forall_mem_cons, and_iff_right hpasses]
    exact combineArgs_empty (fun e he => hargs e (List.mem_cons_of_mem e₀ he)) hv.plain fun h => by cases h

end

/-! ## The same meaning in two models -/

variable {m' : Model} {old : Nat → Nat}

/-- The expression means in the second model what it means in the first, under the old numbers. -/
def SameMeaning (c : Checker) (m m' : Model) (old : Nat → Nat) (entered : Entered) (e : Expr) : Prop :=
  ∃ d, c.Means m entered e d ∧ c.Means m' entered e (d.along old)

namespace SameMeaning

/-- The computations that an expression is evaluated by are those of another one. -/
theorem of_eval {entered' : Entered} {e e' : Expr} (h : SameMeaning c m m' old entered' e')
    (hm : ∀ domain, evalWith .whereOpen c m entered e domain = evalWith .whereOpen c m entered' e' domain)
    (hm' : ∀ domain, evalWith .whereOpen c m' entered e domain = evalWith .whereOpen c m' entered' e' domain) :
    SameMeaning c m m' old entered e := by
  obtain ⟨d, ⟨hvalues, hnowhere⟩, ⟨hvalues', hnowhere'⟩⟩ := h
  unfold HasValues at hvalues hvalues'
  simp only [← hm, ← hm'] at hvalues hnowhere hvalues' hnowhere'
  exact ⟨d, ⟨hvalues, hnowhere⟩, ⟨hvalues', hnowhere'⟩⟩

theorem fail {e : Expr} {err err' : CheckError}
    (hm : ∀ domain, evalWith .whereOpen c m entered e domain = throw err)
    (hm' : ∀ domain, evalWith .whereOpen c m' entered e domain = throw err') : SameMeaning c m m' old entered e :=
  ⟨_, fail_means hm, fail_means hm'⟩

/-- What fails in every model. -/
theorem fail_always {e : Expr} {err : Model → CheckError}
    (h : ∀ k domain, evalWith .whereOpen c k entered e domain = throw (err k)) : SameMeaning c m m' old entered e :=
  .fail (h m) (h m')

end SameMeaning

theorem literal_sameMeaning (h : m.Renumbers m' old) (v : Value) : SameMeaning c m m' old entered (.literal v) :=
  ⟨_, constant_means h.small v fun domain => evalWith_literal .whereOpen c m entered domain v,
    constant_means h.fewer v fun domain => evalWith_literal .whereOpen c m' entered domain v⟩

theorem constant_sameMeaning (h : m.Renumbers m' old) (name : String) (t : ValueType) :
    SameMeaning c m m' old entered (.constant name t) := by
  -- Whether there is a value, and which, does not depend on the model.
  have heq : ∀ k : Model, ∀ domain, evalWith .whereOpen c k entered (.constant name t) domain =
      constantVector c k name t := fun k domain => evalWith_constant .whereOpen c k entered domain name t
  unfold constantVector at heq
  split at heq
  · exact .fail_always heq
  · split at heq
    · exact .fail_always heq
    · next v _ => exact ⟨_, constant_means h.small v (heq m), constant_means h.fewer v (heq m')⟩

/-- A table that says of each state what another one says of the state with the old number. -/
theorem lookup_sameMeaning {e : Expr} (h : m.Renumbers m' old) {name : String} {t : ValueType}
    {value? value?' : Nat → Option Value} (hvalue : ∀ i < m'.numStates, value?' i = value? (old i))
    (hm : ∀ domain, evalWith .whereOpen c m entered e domain = lookupVector m name t domain value?)
    (hm' : ∀ domain, evalWith .whereOpen c m' entered e domain = lookupVector m' name t domain value?') :
    SameMeaning c m m' old entered e := by
  refine ⟨_, lookup_means h.small hm, (lookup_means h.fewer hm').congr fun i hi => ?_⟩
  show (value?' i).bind (·.coerce? t) = (value? (old i)).bind (·.coerce? t)
  rw [hvalue i hi]

theorem var_sameMeaning (h : m.Renumbers m' old) (name : String) (index : UInt64) (t : ValueType) :
    SameMeaning c m m' old entered (.var name index t) :=
  lookup_sameMeaning h (fun i hi => h.value i hi index.toNat)
    (fun domain => evalWith_var .whereOpen c m entered domain name index t)
    fun domain => evalWith_var .whereOpen c m' entered domain name index t

theorem observable_sameMeaning (h : m.Renumbers m' old) (name : String) (t : ValueType) :
    SameMeaning c m m' old entered (.observable name t) := by
  have hm := fun domain => evalWith_observable .whereOpen c m entered domain name t
  have hm' := fun domain => evalWith_observable .whereOpen c m' entered domain name t
  unfold observableVector at hm hm'
  rw [h.kind] at hm'
  cases hindex : c.definitions.observableIndex? name with
  | none =>
    simp only [hindex] at hm hm'
    exact .fail hm hm'
  | some index =>
    simp only [hindex] at hm hm'
    by_cases hkind : m.kind.isPartiallyObservable = true
    · simp only [hkind, if_true] at hm hm'
      exact lookup_sameMeaning h (fun i hi => h.observation i hi index) hm hm'
    · simp only [hkind] at hm hm'
      exact .fail hm hm'

/-- A set that holds in each state if another one holds in the state with the old number. -/
theorem set_sameMeaning {e : Expr} {p : Nat → Bool} {a b : StateSet} (ha : ∀ s < m.numStates, a.contains s = p s)
    (hb : ∀ i < m'.numStates, b.contains i = p (old i))
    (hm : ∀ domain, evalWith .whereOpen c m entered e domain = pure (.ofSet a m.numStates))
    (hm' : ∀ domain, evalWith .whereOpen c m' entered e domain = pure (.ofSet b m'.numStates)) :
    SameMeaning c m m' old entered e :=
  ⟨_, set_means a ha hm, set_means b hb hm'⟩

/-- Of the built-in labels only that of the initial states looks at the current state alone. -/
theorem builtin_sameMeaning (h : m.Renumbers m' old) {name : String} (hm : m.labelStates? name = none)
    (hd : c.definitions.label? name = none) (hname : name ≠ Expr.deadlockName) :
    SameMeaning c m m' old entered (.label name) := by
  have hm := fun domain => evalWith_builtin .whereOpen c m entered domain hm hd
  have hm' := fun domain => evalWith_builtin .whereOpen c m' entered domain (h.unlabelled name ‹_›) hd
  unfold builtinLabel at hm hm'
  simp only [if_neg hname] at hm hm'
  by_cases hinit : name = Expr.initName
  · simp only [if_pos hinit] at hm hm'
    refine set_sameMeaning (fun s hs => contains_ofList_filter h.small hs) (fun i hi => ?_) hm hm'
    rw [contains_ofList_filter h.fewer hi, h.initial i hi]
  · simp only [if_neg hinit] at hm hm'
    exact .fail hm hm'

theorem label_sameMeaning (h : m.Renumbers m' old) {name : String} (he : c.LooksHere m (.label name))
    (hbody : ∀ body, m.labelStates? name = none → c.definitions.label? name = some body →
      entered.labels.contains name = false → SameMeaning c m m' old (entered.label name) body) :
    SameMeaning c m m' old entered (.label name) := by
  cases hm : m.labelStates? name with
  | some a =>
    obtain ⟨b, hm', hab⟩ := h.label name a hm
    exact set_sameMeaning (fun _ _ => rfl) hab (fun domain => evalWith_attached .whereOpen c m entered domain hm)
      fun domain => evalWith_attached .whereOpen c m' entered domain hm'
  | none =>
    have hm' := h.unlabelled name hm
    cases hd : c.definitions.label? name with
    | none => exact builtin_sameMeaning h hm hd (he hm hd)
    | some body =>
      cases hin : entered.labels.contains name with
      | true =>
        exact .fail (fun domain => evalWith_cyclicLabel .whereOpen c m entered domain hm hd hin)
          fun domain => evalWith_cyclicLabel .whereOpen c m' entered domain hm' hd hin
      | false =>
        exact (hbody body hm hd hin).of_eval
          (fun domain => evalWith_definedLabel .whereOpen c m entered domain hm hd hin)
          fun domain => evalWith_definedLabel .whereOpen c m' entered domain hm' hd hin

theorem Means.message {e : Expr} {d : Meaning} {entered' : Entered} {e' : Expr} {text : String}
    (h : c.Means m entered' e' d) (he : ∀ domain, evalWith .whereOpen c m entered e domain = (do
      Check.message text
      evalWith .whereOpen c m entered' e' domain)) : c.Means m entered e d where
  values := by
    intro states hstates
    simp only [he]
    exact Computes.message text h.values states hstates
  nowhere := by
    rw [he]
    exact Settles.next (fun r => ⟨(), outcome_message text r⟩) fun _ => h.nowhere

theorem property_sameMeaning {name : String} {t : ValueType}
    (hbody : ∀ body, c.definitions.property? name = some body → entered.properties.contains name = false →
      SameMeaning c m m' old (entered.property name) body) : SameMeaning c m m' old entered (.property name t) := by
  cases hd : c.definitions.property? name with
  | none => exact .fail_always fun k domain => evalWith_unknownProperty .whereOpen c k entered domain t hd
  | some body =>
    cases hin : entered.properties.contains name with
    | true => exact .fail_always fun k domain => evalWith_cyclicProperty .whereOpen c k entered domain t hd hin
    | false =>
      obtain ⟨d, hmeans, hmeans'⟩ := hbody body hd hin
      exact ⟨d, hmeans.message fun domain => evalWith_definedProperty .whereOpen c m entered domain t hd hin,
        hmeans'.message fun domain => evalWith_definedProperty .whereOpen c m' entered domain t hd hin⟩

/-! ### Operators and functions -/

theorem ite_sameMeaning {cond t e : Expr} (h : m.Renumbers m' old) (hcond : SameMeaning c m m' old entered cond)
    (ht : SameMeaning c m m' old entered t) (he : SameMeaning c m m' old entered e) :
    SameMeaning c m m' old entered (.ite cond t e) := by
  obtain ⟨_, hcond, hcond'⟩ := hcond
  obtain ⟨_, ht, ht'⟩ := ht
  obtain ⟨_, he, he'⟩ := he
  exact ⟨_, ite_means h.small hcond ht he, ite_means h.fewer hcond' ht' he'⟩

theorem binary_sameMeaning {op : BinaryOp} {l r : Expr} (h : m.Renumbers m' old)
    (hl : SameMeaning c m m' old entered l) (hr : SameMeaning c m m' old entered r) :
    SameMeaning c m m' old entered (.binary op l r) := by
  obtain ⟨_, hl, hl'⟩ := hl
  obtain ⟨_, hr, hr'⟩ := hr
  cases hop : op.isLazy with
  | true => exact ⟨_, lazy_means h.small hop hl hr, lazy_means h.fewer hop hl' hr'⟩
  | false => exact ⟨_, strict_means h.small hop hl hr, strict_means h.fewer hop hl' hr'⟩

theorem unary_sameMeaning {op : UnaryOp} {e : Expr} (h : m.Renumbers m' old) (he : SameMeaning c m m' old entered e) :
    SameMeaning c m m' old entered (.unary op e) := by
  by_cases hop : op = .parenth
  · rw [hop]
    exact he.of_eval (fun domain => evalWith_parenth .whereOpen c m entered domain e)
      fun domain => evalWith_parenth .whereOpen c m' entered domain e
  · obtain ⟨_, he, he'⟩ := he
    exact ⟨_, unary_means h.small hop he, unary_means h.fewer hop he'⟩

/-- Folding goes state by state. -/
theorem foldValue_comp (f : Function) (t : ValueType) (g : Valuation) (gs : List Valuation) (old : Nat → Nat) :
    foldValue f t (g ∘ old) (gs.map (· ∘ old)) = foldValue f t g gs ∘ old := by
  induction gs generalizing g with
  | nil => rfl
  | cons h gs ih => exact ih (mapValue2 t (Value.applyFunction2 f) g h)

theorem call_sameMeaning {f : Function} {args : List Expr} (h : m.Renumbers m' old) (hc : c.solver = none)
    (hargs : ∀ a ∈ args, SameMeaning c m m' old entered a) : SameMeaning c m m' old entered (.call f args) := by
  by_cases hmulti : f = .multi
  · rw [hmulti]
    exact .fail_always fun k domain => evalWith_multi_unsolved .whereOpen c k entered domain hc args
  · cases haccepts : f.accepts args.length with
    | false => exact .fail_always fun k domain => evalWith_wrongArity .whereOpen c k entered domain hmulti haccepts
    | true =>
      choose! d hmeans hmeans' using hargs
      rcases Function.accepts_cases haccepts with ⟨hf, a, b, rest, rfl⟩ | ⟨hf, a, rfl⟩ | ⟨hf, a, b, rfl⟩
      · refine ⟨_, extremum_means h.small hf hmeans, ?_⟩
        rw [Meaning.along, ← foldValue_comp, List.map_map]
        exact extremum_means h.fewer hf hmeans'
      · exact ⟨_, rounding_means h.small hf (hmeans a List.mem_cons_self),
          rounding_means h.fewer hf (hmeans' a List.mem_cons_self)⟩
      · exact ⟨_, dyadic_means h.small hf (hmeans a List.mem_cons_self) (hmeans b (by simp)),
          dyadic_means h.fewer hf (hmeans' a List.mem_cons_self) (hmeans' b (by simp))⟩

/-! ### Every expression -/

/-- An expression of which no part looks at more than the current state means the same in both models. -/
theorem evalWith_sameMeaning (h : m.Renumbers m' old) (hc : c.solver = none) (entered : Entered) (e : Expr)
    (he : ∀ a, c.definitions.Meets m e a → c.LooksHere m a) : SameMeaning c m m' old entered e := by
  have child : ∀ a ∈ e.children, ∀ b, c.definitions.Meets m a b → c.LooksHere m b :=
    fun a ha b hb => he b (.child ha hb)
  match e with
  | .ite cond t e =>
    exact ite_sameMeaning h (evalWith_sameMeaning h hc entered cond (child _ (by simp [Expr.children])))
      (evalWith_sameMeaning h hc entered t (child _ (by simp [Expr.children])))
      (evalWith_sameMeaning h hc entered e (child _ (by simp [Expr.children])))
  | .binary op l r =>
    exact binary_sameMeaning h (evalWith_sameMeaning h hc entered l (child _ (by simp [Expr.children])))
      (evalWith_sameMeaning h hc entered r (child _ (by simp [Expr.children])))
  | .unary op e =>
    exact unary_sameMeaning h (evalWith_sameMeaning h hc entered e (child _ (by simp [Expr.children])))
  | .call f args => exact call_sameMeaning h hc fun a ha => evalWith_sameMeaning h hc entered a (child a ha)
  | .filter op e p invisible explained => exact absurd (he _ (.refl _)) id
  | .literal v => exact literal_sameMeaning h v
  | .constant name t => exact constant_sameMeaning h name t
  | .ident name t => exact .fail_always fun k domain => evalWith_ident .whereOpen c k entered domain name t
  | .formula name (some body) t =>
    exact (evalWith_sameMeaning h hc entered body (child _ (by simp [Expr.children]))).of_eval
      (fun domain => evalWith_expanded .whereOpen c m entered domain name body t)
      fun domain => evalWith_expanded .whereOpen c m' entered domain name body t
  | .formula name none t => exact .fail_always fun k domain => evalWith_unexpanded .whereOpen c k entered domain name t
  | .var name index t => exact var_sameMeaning h name index t
  | .observable name t => exact observable_sameMeaning h name t
  | .label name =>
    refine label_sameMeaning h (he _ (.refl _)) fun body hm hd hin => ?_
    have := Definitions.remaining_label_lt hd hin
    exact evalWith_sameMeaning h hc (entered.label name) body fun b hb => he b (.label hm hd hb)
  | .property name t =>
    refine property_sameMeaning fun body hd hin => ?_
    have := Definitions.remaining_property_lt hd hin
    exact evalWith_sameMeaning h hc (entered.property name) body fun b hb => he b (.property hd hb)
  | .quant measure query operand =>
    exact .fail_always fun k domain => evalWith_quant .whereOpen c k entered domain hc measure query operand
  | .path op operands bound =>
    exact .fail_always fun k domain => evalWith_path .whereOpen c k entered domain op operands bound
termination_by (c.definitions.remaining entered, sizeOf e)

/-! ## Checking an expression -/

/-- Checking an expression over some real states, also over none. -/
theorem Means.checkExpression_settles {e : Expr} {d : Meaning} {states : StateSet} (h : c.Means m .none e d)
    (hlt : ∀ s ∈ states, s < m.numStates) :
    Settles (c.checkExpression m e (some states)) (d.Succeeds states) (Shows m.numStates states d.values) :=
  Settles.next (fun r => ⟨(), outcome_restart _ r⟩) fun _ => h.settles hlt

/-- One meaning says when checking over the kept states and checking in the restricted model succeed, and with which
entries. -/
theorem restrict_settles (hn : m.numStates < stateLimit) (hc : c.solver = none) (keep : StateSet) {e : Expr}
    (he : ∀ a, c.definitions.Meets m e a → c.LooksHere m a) :
    ∃ d : Meaning, Settles (c.checkExpression m e (some (keep.filter (· < m.numStates))))
        (d.Succeeds (keep.filter (· < m.numStates))) (Shows m.numStates (keep.filter (· < m.numStates)) d.values) ∧
      Settles (c.checkExpression (m.restrict keep) e none) (d.Succeeds (keep.filter (· < m.numStates)))
        (Shows (m.restrict keep).numStates (.full (m.restrict keep).numStates) (d.values ∘ m.oldNumber keep)) := by
  have hrenumbers : m.Renumbers (m.restrict keep) (m.oldNumber keep) := m.restrict_renumbers hn
  obtain ⟨d, hmeans, hmeans'⟩ := evalWith_sameMeaning hrenumbers hc .none e he
  refine ⟨d, hmeans.checkExpression_settles fun s hs => (Model.mem_kept.mp hs).2, ?_⟩
  -- Without a domain the restricted model is checked over all its states.
  rw [checkExpression_full hrenumbers.fewer (m.labelsInRange_restrict hn) hc e]
  refine (hmeans'.checkExpression_settles fun i hi => mem_full_lt hi).imp ?_ fun _ _ hw => hw
  refine Meaning.succeeds_along (fun i hi => Model.oldNumber_mem (mem_full_lt hi)) fun s hs => ?_
  obtain ⟨i, hi, heq⟩ := Model.exists_oldNumber hs
  exact ⟨i, (StateSet.mem_full_of_lt hrenumbers.fewer).mpr hi, heq⟩

/-- Restricting a model commutes with evaluation. If an expression and the definitions that it leads to look at the
current state alone, then checking it over the states that a restriction keeps succeeds if and only if checking it in
the restricted model does, and the entry of a kept state in the one is the entry of its new number in the other. -/
theorem checkExpression_restrict (c : Checker) (m : Model) (hn : m.numStates < stateLimit) (hc : c.solver = none)
    (keep : StateSet) (e : Expr) (he : ∀ a, c.definitions.Meets m e a → c.LooksHere m a) (r r' : Run) :
    let kept := keep.filter (· < m.numStates)
    ((∃ v, outcome (c.checkExpression m e (some kept)) r = .ok v) ↔
      ∃ w, outcome (c.checkExpression (m.restrict keep) e none) r' = .ok w) ∧
    ∀ v w, outcome (c.checkExpression m e (some kept)) r = .ok v →
      outcome (c.checkExpression (m.restrict keep) e none) r' = .ok w →
      ∀ i s, kept.toList[i]? = some s → ∃ y, v.valueAt s = .ok y ∧ w.valueAt i = .ok y := by
  obtain ⟨d, hkept, hrestricted⟩ := restrict_settles hn hc keep he
  refine ⟨⟨?_, ?_⟩, fun v w hv hw i s his => ?_⟩
  · rintro ⟨v, hv⟩
    obtain ⟨w, hw, -⟩ := hrestricted.succeeds (hkept.sound r v hv).1 r'
    exact ⟨w, hw⟩
  · rintro ⟨w, hw⟩
    obtain ⟨v, hv, -⟩ := hkept.succeeds (hrestricted.sound r' w hw).1 r
    exact ⟨v, hv⟩
  · obtain ⟨⟨hdefined, -⟩, hshows⟩ := hkept.sound r v hv
    obtain ⟨y, hy, hval⟩ := hshows.entry_of_defined hdefined (List.mem_of_getElem? his)
    have hfull : i ∈ StateSet.full (m.restrict keep).numStates :=
      (StateSet.mem_full_of_lt (m.restrict_renumbers hn).fewer).mpr (Model.lt_of_getElem?_kept his)
    have hold : (d.values ∘ m.oldNumber keep) i = some y := by
      rw [Function.comp_apply, Model.oldNumber_eq his, hy]
    exact ⟨y, hval, (hrestricted.sound r' w hw).2.entry i hfull y hold⟩

/-- The second of two states alone, where the second branch of the conditional is taken. -/
theorem checkExpression_restrict_pickSeven :
    ∃ w, outcome (bare.checkExpression (.restrict .twoStates (.singleton 1)) .pickSeven none) .start = .ok w ∧
      w.valueAt 0 = .ok (.int 1) := by
  have hlooks : Expr.pickSeven.Throughout (bare.LooksHere .twoStates) := by
    simp [Expr.pickSeven, Expr.throughout_iff, Expr.children, LooksHere]
  obtain ⟨hiff, hentries⟩ := checkExpression_restrict bare .twoStates (by decide) rfl (.singleton 1) .pickSeven
    (fun a ha => ha.of_throughout Definitions.throughout_empty hlooks) .start .start
  have hv : outcome (bare.checkExpression .twoStates .pickSeven
      (some ((StateSet.singleton 1).filter (· < Model.twoStates.numStates)))) .start = .ok ⟨.ints #[0, 1], none⟩ := by
    unfold checkExpression eval Expr.pickSeven
    rw [evalWith_ite]
    unfold satisfying evalOver
    rw [evalWith_strict .whereOpen _ _ _ _ (by decide)]
    simp only [evalWith_var, evalWith_literal]
    rfl
  obtain ⟨w, hw⟩ := hiff.mp ⟨_, hv⟩
  obtain ⟨y, hy, hwy⟩ := hentries _ w hv hw 0 1 rfl
  cases hy
  exact ⟨w, hw, hwy⟩

end Checker

end Statewise
