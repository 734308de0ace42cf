import Statewise.Proofs.Filters
import Statewise.Proofs.Stages

/-!
# The vectors that come out

Without a solver, the outcome of an evaluation does not depend on the run it starts from, and every vector
has one value per state. If the labels of the model hold in its states only, so does every vector of truth
values, whatever the domain.
-/

namespace Statewise

open Check

/-- The labels that are attached to the model hold in its states only. -/
def Model.LabelsInRange (m : Model) : Prop :=
  ∀ name states, m.labelStates? name = some states → ∀ s ∈ states, s < m.numStates

/-- A vector with one value per state, whose truth values hold in real states if those of the labels do. -/
structure StateVector.Fits (v : StateVector) (m : Model) : Prop where
  plain : v.IsPlain m.numStates
  inRange : m.LabelsInRange → ∀ a, v.satisfaction = .ok a → ∀ s ∈ a, s < m.numStates

namespace StateVector

variable {m : Model}

theorem fits_ofSet {a : StateSet} (h : m.LabelsInRange → ∀ s ∈ a, s < m.numStates) :
    (ofSet a m.numStates).Fits m :=
  ⟨isPlain_ofSet _ _, fun hm b hb => by cases hb; exact h hm⟩

theorem mem_full_lt {n s : Nat} (h : s ∈ StateSet.full n) : s < n :=
  Nat.lt_of_lt_of_le (StateSet.mem_full.mp h) (Nat.mod_le _ _)

theorem fits_constant (x : Value) : (constant x m.numStates).Fits m := by
  refine ⟨isPlain_constant _ _, fun _ a ha s hs => ?_⟩
  cases x with
  | bool b =>
    cases ha
    cases b with
    | true => exact mem_full_lt hs
    | false => exact absurd hs (StateSet.not_mem_empty s)
  | int n => cases ha
  | double x => cases ha

theorem fits_withAccuracy {v : StateVector} (h : v.Fits m) (a : Option Accuracy) : (v.withAccuracy a).Fits m :=
  ⟨h.plain, h.inRange⟩

theorem Tabulated.fits {ε : Type} {t : ValueType} {domain : Option StateSet} {f : Nat → Except ε Value}
    {out : StateVector} (h : Tabulated t m.numStates domain f out) : out.Fits m := ⟨h.plain, fun _ => h.holds⟩

end StateVector

open StateVector

/-- The reduction of a vector that fits leads to one that fits. -/
theorem Filter.Origin.fits {m : Model} {states : StateSet} {v : StateVector} {r : Reduced}
    (h : Origin m.numStates states v r) (hv : v.Fits m) (hs : m.LabelsInRange → ∀ s ∈ states, s < m.numStates) :
    r.vector.Fits m := by
  cases h with
  | kept => exact hv
  | single x => exact fits_withAccuracy (fits_constant x) _
  | frontier points => exact fits_constant (.bool true)
  | matching found hfound => exact fits_ofSet fun hm s h => hs hm s (hfound s h)

namespace Checker

variable (st : Strategy) (c : Checker) (m : Model)

theorem lookupVector_delivers (name : String) (t : ValueType) (domain : Option StateSet)
    (value? : Nat → Option Value) : Delivers (lookupVector m name t domain value?) (·.Fits m) :=
  Delivers.ofExcept fun _ h => (tabulate_spec h).fits

theorem builtinLabel_delivers (name : String) : Delivers (builtinLabel m name) (·.Fits m) := by
  have hlist : ∀ p : Nat → Bool, (ofSet (.ofList ((List.range m.numStates).filter p)) m.numStates).Fits m := by
    intro p
    refine fits_ofSet fun _ s hs => ?_
    obtain ⟨i, hi, rfl⟩ := StateSet.mem_ofList.mp hs
    exact Nat.lt_of_le_of_lt (Nat.mod_le _ _) (List.mem_range.mp (List.mem_filter.mp hi).1)
  unfold builtinLabel
  refine Delivers.ite (fun _ => Delivers.pure (hlist _)) fun _ => ?_
  exact Delivers.ite (fun _ => Delivers.pure (hlist _)) fun _ => Delivers.throw _

theorem constantVector_delivers (name : String) (t : ValueType) :
    Delivers (constantVector c m name t) (·.Fits m) := by
  unfold constantVector
  split
  · exact Delivers.throw _
  · split
    · exact Delivers.throw _
    · exact Delivers.pure (fits_constant _)

theorem observableVector_delivers (name : String) (t : ValueType) (domain : Option StateSet) :
    Delivers (observableVector c m name t domain) (·.Fits m) := by
  unfold observableVector
  split
  · exact Delivers.throw _
  · exact Delivers.ite (fun _ => lookupVector_delivers m _ _ _ _) fun _ => Delivers.throw _

/-- A satisfaction set within the range of the model. -/
def InRange (a : StateSet) : Prop := m.LabelsInRange → ∀ s ∈ a, s < m.numStates

theorem satisfaction_delivers {v : StateVector} (h : v.Fits m) : Delivers (ofEval v.satisfaction) (InRange m) :=
  Delivers.ofEval fun a ha hm => h.inRange hm a ha

theorem connect_inRange {op : BinaryOp} {left right : StateSet} (hl : InRange m left) (hr : InRange m right) :
    InRange m (connect op m.numStates left right) := by
  intro hm s hs
  unfold connect at hs
  split at hs
  · exact hl hm s (StateSet.mem_inter.mp hs).1
  · rcases StateSet.mem_union.mp hs with hs | hs
    · exact Nat.lt_of_lt_of_le (StateSet.mem_complement.mp hs).1 (Nat.mod_le _ _)
    · exact hr hm s hs
  · rcases StateSet.mem_union.mp hs with hs | hs
    · exact hl hm s hs
    · exact hr hm s hs

theorem applyFilter_delivers {entered : Entered} {f : Filter} {e : Expr} {states : StateSet}
    (he : ∀ d, Delivers (evalWith st c m entered e d) (·.Fits m)) (hs : InRange m states) :
    Delivers (applyFilter st c m entered f e states) (·.Fits m) := by
  unfold applyFilter
  refine Delivers.bind (f.select_delivers m states) fun selection hselection => ?_
  obtain ⟨rfl, hcan⟩ := hselection
  refine Delivers.bind (he _) fun v hv => ?_
  refine Delivers.bind (f.reduce_delivers m c.settings _ v) fun r hr => ?_
  refine (f.record_delivers c.settings _ r).mono fun w hw => ?_
  rw [hw]
  exact hr.fits hv fun hm s h => hs hm s ((f.selectionOf_states m hcan).1 s h)

section

variable {st c m} {entered : Entered} {domain : Option StateSet}

/-- The vector of an expression fits, whatever the domain. -/
def AlwaysFits (st : Strategy) (c : Checker) (m : Model) (entered : Entered) (e : Expr) : Prop :=
  ∀ domain, Delivers (evalWith st c m entered e domain) (·.Fits m)

theorem satisfying_delivers {e : Expr} (he : AlwaysFits st c m entered e) :
    Delivers (satisfying st c m entered domain e) (InRange m) :=
  Delivers.bind (he domain) fun _ hv => satisfaction_delivers m hv

theorem evalOver_delivers {e : Expr} (he : AlwaysFits .whereOpen c m entered e) (t : ValueType)
    (states : StateSet) : Delivers (evalOver c m entered e t states) (·.Fits m) :=
  Delivers.ite (fun _ => Delivers.pure (fits_constant _)) fun _ => he _

theorem satisfyingOver_delivers {e : Expr} (he : AlwaysFits .whereOpen c m entered e) (states : StateSet) :
    Delivers (satisfyingOver c m entered e states) (InRange m) :=
  Delivers.bind (evalOver_delivers he _ _) fun _ hv => satisfaction_delivers m hv

theorem ite_delivers {cond t e : Expr} (hcond : AlwaysFits st c m entered cond)
    (ht : AlwaysFits st c m entered t) (he : AlwaysFits st c m entered e) :
    AlwaysFits st c m entered (.ite cond t e) := by
  intro domain
  cases st with
  | everywhere =>
    rw [evalWith_ite_everywhere]
    refine Delivers.bind (hcond _) fun cv hcv => Delivers.bind (ht _) fun tv htv => ?_
    refine Delivers.bind (he _) fun ev hev => Delivers.ofEval fun out hout => ?_
    rw [map3_eq hcv.plain htv.plain hev.plain] at hout
    exact (tabulate_spec hout).fits
  | whereOpen =>
    rw [evalWith_ite]
    refine Delivers.bind (satisfying_delivers hcond) fun holds _ => ?_
    refine Delivers.bind (evalOver_delivers ht _ _) fun tv htv => ?_
    refine Delivers.bind (evalOver_delivers he _ _) fun ev hev => Delivers.ofEval fun out hout => ?_
    rw [map3_eq (isPlain_ofSet _ _) htv.plain hev.plain] at hout
    exact (tabulate_spec hout).fits

theorem binary_delivers {op : BinaryOp} {l r : Expr} (hl : AlwaysFits st c m entered l)
    (hr : AlwaysFits st c m entered r) : AlwaysFits st c m entered (.binary op l r) := by
  intro domain
  by_cases hop : st = .whereOpen ∧ op.isLazy = true
  · obtain ⟨rfl, hop⟩ := hop
    rw [evalWith_lazy c m entered domain hop]
    refine Delivers.bind (satisfying_delivers hl) fun left hleft => ?_
    refine Delivers.bind (satisfyingOver_delivers hr _) fun right hright => Delivers.pure ?_
    exact fits_ofSet (connect_inRange m hleft hright)
  · rw [evalWith_strict st c m entered domain hop]
    refine Delivers.bind (hl _) fun lv hlv => Delivers.bind (hr _) fun rv hrv => Delivers.ofEval fun out hout => ?_
    rw [map2_eq hlv.plain hrv.plain] at hout
    exact (tabulate_spec hout).fits

/-- One operand, state by state. -/
theorem map1_delivers {v : StateVector} {t : ValueType} {f : Value → Except EvalError Value} (hv : v.Fits m) :
    Delivers (ofEval (v.map1 t domain f)) (·.Fits m) := by
  refine Delivers.ofEval fun out hout => ?_
  obtain ⟨o, ho, rfl⟩ := (map1_eq_ok hv.plain).mp hout
  exact fits_withAccuracy (tabulate_spec ho).fits _

theorem unary_delivers {op : UnaryOp} {e : Expr} (he : AlwaysFits st c m entered e) :
    AlwaysFits st c m entered (.unary op e) := by
  intro domain
  by_cases hop : op = .parenth
  · rw [hop, evalWith_parenth]
    exact he domain
  · rw [evalWith_unary st c m entered domain hop]
    exact Delivers.bind (he _) fun v hv => map1_delivers hv

theorem combineArgs_delivers {f : Function} {t : ValueType} {args : List Expr}
    (hargs : ∀ a ∈ args, AlwaysFits st c m entered a) {acc : StateVector} (hacc : acc.Fits m) :
    Delivers (combineArgs st c m entered f t acc args domain) (·.Fits m) := by
  induction args generalizing acc with
  | nil =>
    rw [combineArgs_nil]
    exact Delivers.pure hacc
  | cons a rest ih =>
    rw [combineArgs_cons]
    refine Delivers.bind (hargs a List.mem_cons_self _) fun v hv => ?_
    refine Delivers.bind (P := (·.Fits m)) (Delivers.ofEval fun out hout => ?_) fun acc' hacc' => ?_
    · rw [map2_eq hacc.plain hv.plain] at hout
      exact (tabulate_spec hout).fits
    · exact ih (fun b hb => hargs b (List.mem_cons_of_mem a hb)) hacc'

theorem call_delivers (hc : c.solver = none) {f : Function} {args : List Expr}
    (hargs : ∀ a ∈ args, AlwaysFits st c m entered a) : AlwaysFits st c m entered (.call f args) := by
  intro domain
  by_cases hmulti : f = .multi
  · rw [hmulti, evalWith_multi_unsolved st c m entered domain hc]
    exact Delivers.throw _
  · cases haccepts : f.accepts args.length with
    | false =>
      rw [evalWith_wrongArity st c m entered domain hmulti haccepts]
      exact Delivers.throw _
    | true =>
      rcases Function.accepts_cases haccepts with ⟨hf, a, b, rest, rfl⟩ | ⟨hf, a, rfl⟩ | ⟨hf, a, b, rfl⟩
      · rw [evalWith_extremum st c m entered domain hf]
        refine Delivers.bind (hargs a List.mem_cons_self _) fun first hfirst => ?_
        exact combineArgs_delivers (fun d hd => hargs d (List.mem_cons_of_mem a hd)) hfirst
      · rw [evalWith_rounding st c m entered domain hf]
        exact Delivers.bind (hargs a List.mem_cons_self _) fun v hv => map1_delivers hv
      · rw [evalWith_dyadic st c m entered domain hf]
        refine Delivers.bind (hargs a List.mem_cons_self _) fun v hv => ?_
        refine Delivers.bind (hargs b (by simp) _) fun w hw => Delivers.ofEval fun out hout => ?_
        rw [map2_eq hv.plain hw.plain] at hout
        exact (tabulate_spec hout).fits

theorem selected_delivers {p : Option Expr} (hp : ∀ e ∈ p, AlwaysFits st c m entered e) :
    Delivers (selected st c m entered p) (InRange m) := by
  cases p with
  | none => exact Delivers.pure fun _ s hs => mem_full_lt hs
  | some p => exact satisfying_delivers (hp p rfl)

theorem filter_delivers {op : FilterOp} {e : Expr} {p : Option Expr} {invisible explained : Bool}
    (he : AlwaysFits st c m entered e) (hp : ∀ e ∈ p, AlwaysFits st c m entered e) :
    AlwaysFits st c m entered (.filter op e p invisible explained) := by
  intro domain
  rw [evalWith_filter]
  exact Delivers.bind (selected_delivers hp) fun states hstates => applyFilter_delivers st c m he hstates

end

/-- Without a solver an evaluation yields a vector that fits the model, and the same from every run. -/
theorem evalWith_delivers (hc : c.solver = none) (entered : Entered) (e : Expr) :
    AlwaysFits st c m entered e := by
  -- A reference has fewer definitions left to enter, any other operand is smaller.
  match e with
  | .ite cond t e =>
    exact ite_delivers (evalWith_delivers hc entered cond) (evalWith_delivers hc entered t)
      (evalWith_delivers hc entered e)
  | .binary op l r => exact binary_delivers (evalWith_delivers hc entered l) (evalWith_delivers hc entered r)
  | .unary op e => exact unary_delivers (evalWith_delivers hc entered e)
  | .call f args => exact call_delivers hc fun a ha => evalWith_delivers hc entered a
  | .filter op e p invisible explained =>
    exact filter_delivers (evalWith_delivers hc entered e) fun q hq => evalWith_delivers hc entered q
  | .literal v =>
    intro domain
    rw [evalWith_literal]
    exact Delivers.pure (fits_constant v)
  | .constant name t =>
    intro domain
    rw [evalWith_constant]
    exact constantVector_delivers c m name t
  | .ident name t =>
    intro domain
    rw [evalWith_ident]
    exact Delivers.throw _
  | .formula name (some d) t =>
    intro domain
    rw [evalWith_expanded]
    exact evalWith_delivers hc entered d domain
  | .formula name none t =>
    intro domain
    rw [evalWith_unexpanded]
    exact Delivers.throw _
  | .var name index t =>
    intro domain
    rw [evalWith_var]
    exact lookupVector_delivers m name t domain _
  | .observable name t =>
    intro domain
    rw [evalWith_observable]
    exact observableVector_delivers c m name t domain
  | .label name =>
    intro domain
    rcases evalWith_label_cases c m entered name with
      ⟨states, hm, h⟩ | h | h | ⟨body, -, hlt, h⟩ <;> rw [h]
    · exact Delivers.pure (fits_ofSet fun hrange => hrange name states hm)
    · exact builtinLabel_delivers m name
    · exact Delivers.throw _
    · exact evalWith_delivers hc (entered.label name) body domain
  | .property name t =>
    intro domain
    rcases evalWith_property_cases c m entered name t with ⟨e, h⟩ | ⟨body, -, hlt, h⟩ <;> rw [h]
    · exact Delivers.throw _
    · exact Delivers.next (Steady.message _) fun _ => evalWith_delivers hc (entered.property name) body domain
  | .quant measure query operand =>
    intro domain
    rw [evalWith_quant st c m entered domain hc]
    exact Delivers.throw _
  | .path op operands bound =>
    intro domain
    rw [evalWith_path]
    exact Delivers.throw _
termination_by (c.definitions.remaining entered, sizeOf e)

end Checker

end Statewise
