import Statewise.Proofs.Narrowing
import Statewise.Proofs.Reporting

/-!
# Answers by themselves

An expression counts as an answer by itself if it is made of constants and of filters that count as one. Its
vector then has one value in all states, so that no filter has to be put around it. One operator is counted
among these filters although it hands on the vector of its operand: the range of values.
-/

namespace Statewise

open Check StateVector

/-! ## One value over a domain -/

section

variable {n s t : Nat} {domain : Option StateSet}

/-- Two states of a model that lie in the domain. -/
structure PairIn (n : Nat) (domain : Option StateSet) (s t : Nat) : Prop where
  fst_mem : s ∈ statesOf n domain
  snd_mem : t ∈ statesOf n domain
  fst_lt : s < n
  snd_lt : t < n

theorem mem_statesOf_narrow {a : StateSet} (ha : s ∈ a) (hs : s ∈ statesOf n domain) :
    s ∈ statesOf n (some (narrow a domain)) := by
  cases domain with
  | none => exact ha
  | some d => exact StateSet.mem_inter.mpr ⟨ha, hs⟩

theorem PairIn.narrow {a : StateSet} (h : PairIn n domain s t) (hs : s ∈ a) (ht : t ∈ a) :
    PairIn n (some (narrow a domain)) s t :=
  ⟨mem_statesOf_narrow hs h.fst_mem, mem_statesOf_narrow ht h.snd_mem, h.fst_lt, h.snd_lt⟩

theorem PairIn.mem_complement_iff {a : StateSet} (hn : n < stateLimit) (h : PairIn n domain s t) :
    (s ∈ a.complement n ↔ s ∉ a) ∧ (t ∈ a.complement n ↔ t ∉ a) := by
  rw [StateSet.mem_complement, StateSet.mem_complement, StateSet.index_of_lt hn]
  exact ⟨and_iff_right h.fst_lt, and_iff_right h.snd_lt⟩

/-- The set holds in all states of the domain or in none. -/
def StateSet.UniformOver (n : Nat) (domain : Option StateSet) (a : StateSet) : Prop :=
  ∀ {s t}, PairIn n domain s t → (s ∈ a ↔ t ∈ a)

namespace StateVector

/-- The vector has a value in every state, and in all states of the domain the same. -/
structure UniformOver (n : Nat) (domain : Option StateSet) (v : StateVector) : Prop where
  plain : v.IsPlain n
  same : ∀ {s t}, PairIn n domain s t → v.valueAt s = v.valueAt t

namespace UniformOver

variable {u v w out : StateVector} {ty : ValueType}

theorem constant (hn : n < stateLimit) (x : Value) : (StateVector.constant x n).UniformOver n domain := by
  refine ⟨isPlain_constant x n, fun h => ?_⟩
  rw [valueAt_constant (fun _ => hn) h.fst_lt, valueAt_constant (fun _ => hn) h.snd_lt]

theorem withAccuracy (hv : v.UniformOver n domain) (accuracy : Option Accuracy) :
    (v.withAccuracy accuracy).UniformOver n domain := ⟨hv.plain, hv.same⟩

/-- What is tabulated from one value over the domain has one value there. -/
theorem tabulate {ε : Type} {lift : EvalError → ε} {f : Nat → Except ε Value} (hn : n < stateLimit)
    (hf : ∀ {s t}, PairIn n domain s t → f s = f t) (h : StateVector.tabulate lift ty n domain f = .ok out) :
    out.UniformOver n domain := by
  have hspec := tabulate_spec h
  refine ⟨hspec.plain, fun {s t} hst => ?_⟩
  obtain ⟨-, x, y, hx, hy, hval⟩ := hspec.entry (Nat.le_of_lt hn) s hst.fst_mem
  obtain ⟨-, x', y', hx', hy', hval'⟩ := hspec.entry (Nat.le_of_lt hn) t hst.snd_mem
  rw [hf hst, hx'] at hx
  cases hx
  rw [hy'] at hy
  cases hy
  rw [hval, hval']

theorem map1 {f : Value → Except EvalError Value} (hn : n < stateLimit) (hv : v.UniformOver n domain)
    (h : v.map1 ty domain f = .ok out) : out.UniformOver n domain := by
  obtain ⟨o, ho, rfl⟩ := (map1_eq_ok hv.plain).mp h
  have huniform : o.UniformOver n domain := tabulate hn (fun hst => by rw [hv.same hst]) ho
  exact huniform.withAccuracy v.accuracy

theorem map2 {f : Value → Value → Except EvalError Value} (hn : n < stateLimit) (hv : v.UniformOver n domain)
    (hw : w.UniformOver n domain) (h : v.map2 w ty domain f = .ok out) : out.UniformOver n domain := by
  rw [map2_eq hv.plain hw.plain] at h
  exact tabulate hn (fun hst => by rw [hv.same hst, hw.same hst]) h

theorem satisfaction {a : StateSet} (hn : n < stateLimit) (hv : v.UniformOver n domain)
    (ha : v.satisfaction = .ok a) : a.UniformOver n domain := by
  intro s t h
  have hval := hv.same h
  rw [valueAt_of_satisfaction ha (hv.plain.1 ▸ h.fst_lt), valueAt_of_satisfaction ha (hv.plain.1 ▸ h.snd_lt),
    StateSet.contains_eq_decide (Nat.lt_trans h.fst_lt hn),
    StateSet.contains_eq_decide (Nat.lt_trans h.snd_lt hn)] at hval
  cases hiff : decide (s ∈ a) <;> simp_all

theorem ofSet {a : StateSet} (hn : n < stateLimit) (ha : a.UniformOver n domain) :
    (StateVector.ofSet a n).UniformOver n domain := by
  refine ⟨isPlain_ofSet a n, fun h => ?_⟩
  rw [valueAt_ofSet h.fst_lt, valueAt_ofSet h.snd_lt, StateSet.contains_eq_decide (Nat.lt_trans h.fst_lt hn),
    StateSet.contains_eq_decide (Nat.lt_trans h.snd_lt hn), decide_eq_decide.mpr (ha h)]

/-- A conditional whose condition is the same everywhere takes its values from one of its branches. -/
theorem ite {holds : StateSet} (hn : n < stateLimit) (hholds : holds.UniformOver n domain)
    (hv : v.UniformOver n (some (narrow holds domain)))
    (hw : w.UniformOver n (some (narrow (holds.complement n) domain)))
    (h : (StateVector.ofSet holds n).map3 v w ty domain Value.applyIte = .ok out) : out.UniformOver n domain := by
  rw [map3_eq (isPlain_ofSet holds n) hv.plain hw.plain] at h
  refine tabulate hn (fun {s t} hst => ?_) h
  rw [Checker.applyIte_valueAt hn hst.fst_lt (isPlain_ofSet holds n) (satisfaction_ofSet holds n) hv.plain hw.plain,
    Checker.applyIte_valueAt hn hst.snd_lt (isPlain_ofSet holds n) (satisfaction_ofSet holds n) hv.plain hw.plain]
  obtain ⟨hs, ht⟩ := hst.mem_complement_iff (a := holds) hn
  by_cases hmem : s ∈ holds
  · have hmem' : t ∈ holds := (hholds hst).mp hmem
    rw [if_pos hmem, if_pos hmem', hv.same (hst.narrow hmem hmem')]
  · have hmem' : t ∉ holds := fun h => hmem ((hholds hst).mpr h)
    rw [if_neg hmem, if_neg hmem', hw.same (hst.narrow (hs.mpr hmem) (ht.mpr hmem'))]

end UniformOver

end StateVector

end

/-! ## Reductions to one value -/

namespace Filter

variable (f : Filter) (settings : Settings) (m : Model) (s : Selection) (v : StateVector)

/-- The vector has one value, up to its accuracy. -/
def YieldsConstant (numStates : Nat) (r : Reduced) : Prop :=
  ∃ x accuracy, r.vector = (StateVector.constant x numStates).withAccuracy accuracy

theorem yieldsConstant_single (numStates : Nat) (x : Value) (accuracy : Option Accuracy) (explanation : String) :
    YieldsConstant numStates (.single numStates x accuracy explanation) := ⟨x, accuracy, rfl⟩

theorem reduceSingle_constant (value : Except EvalError Value) (accuracy : Option Accuracy) (explanation : String) :
    Ensures (reduceSingle m value accuracy explanation) (YieldsConstant m.numStates) := by
  unfold reduceSingle
  exact Ensures.next fun x => Ensures.next fun _ => .pure (yieldsConstant_single ..)

theorem reduceExtreme_constant (kind : String) (extreme : Except EvalError Value) :
    Ensures (reduceExtreme settings m s v kind extreme) (YieldsConstant m.numStates) := by
  unfold reduceExtreme
  refine Ensures.next fun x => Ensures.next fun _ => Ensures.next fun found => Ensures.next fun _ => ?_
  exact .pure (yieldsConstant_single ..)

/-- Also of a frontier nothing but `true` goes on. -/
theorem reduceForAll_constant : Ensures (reduceForAll m s v) (YieldsConstant m.numStates) := by
  unfold reduceForAll
  split
  · exact Ensures.next fun _ => .pure ⟨.bool true, none, rfl⟩
  · refine Ensures.next fun holds => Ensures.next fun satisfied => Ensures.next fun _ => ?_
    exact .pure (yieldsConstant_single ..)

theorem reduceExists_constant : Ensures (reduceExists m s v) (YieldsConstant m.numStates) := by
  unfold reduceExists
  exact Ensures.next fun holds => Ensures.next fun _ => .pure (yieldsConstant_single ..)

/-- A filter that counts as an answer reduces its operand to one value, unless it asks for the range. -/
theorem reduce_constant (hop : f.op.isSingleValued = true) (hrange : f.op ≠ .range) :
    Ensures (f.reduce settings m s v) (YieldsConstant m.numStates) := by
  unfold reduce
  split <;> rename_i heq <;> rw [heq] at hop hrange
  case h_12 => exact absurd rfl hrange
  case h_4 | h_5 => exact reduceExtreme_constant settings m s v _ _
  case h_8 | h_9 | h_10 | h_11 | h_15 => exact reduceSingle_constant m _ _ _
  case h_13 => exact reduceForAll_constant m s v
  case h_14 => exact reduceExists_constant m s v
  all_goals cases hop

end Filter

/-! ## Expressions -/

namespace Checker

variable {c : Checker} {m : Model} {entered : Entered} {domain : Option StateSet}

/-- Over every domain the expression has one value. -/
def EvaluatesUniformly (c : Checker) (m : Model) (entered : Entered) (e : Expr) : Prop :=
  ∀ domain, Ensures (evalWith .whereOpen c m entered e domain) (UniformOver m.numStates domain)

theorem satisfying_uniform {e : Expr} (hn : m.numStates < stateLimit) (he : EvaluatesUniformly c m entered e) :
    Ensures (satisfying .whereOpen c m entered domain e) (StateSet.UniformOver m.numStates domain) :=
  (he domain).bind fun _ hv => .ofEval fun _ ha => hv.satisfaction hn ha

theorem evalOver_uniform {e : Expr} {t : ValueType} {states : StateSet} (hn : m.numStates < stateLimit)
    (he : EvaluatesUniformly c m entered e) :
    Ensures (evalOver c m entered e t states) (UniformOver m.numStates (some states)) :=
  .ite (fun _ => .pure (.constant hn _)) fun _ => he (some states)

theorem satisfyingOver_uniform {e : Expr} {states : StateSet} (hn : m.numStates < stateLimit)
    (he : EvaluatesUniformly c m entered e) :
    Ensures (satisfyingOver c m entered e states) (StateSet.UniformOver m.numStates (some states)) :=
  (evalOver_uniform hn he).bind fun _ hv => .ofEval fun _ ha => hv.satisfaction hn ha

theorem ite_uniform {cond t e : Expr} (hn : m.numStates < stateLimit) (hcond : EvaluatesUniformly c m entered cond)
    (ht : EvaluatesUniformly c m entered t) (he : EvaluatesUniformly c m entered e) :
    EvaluatesUniformly c m entered (.ite cond t e) := by
  intro domain
  rw [evalWith_ite]
  refine (satisfying_uniform hn hcond).bind fun holds hholds => ?_
  refine (evalOver_uniform hn ht).bind fun tv htv => (evalOver_uniform hn he).bind fun ev hev => ?_
  exact .ofEval fun out h => .ite hn hholds htv hev h

/-- Either the left operand decides in all states of the domain, or the right one was evaluated in all of them. -/
theorem connect_uniform {op : BinaryOp} {n : Nat} {left right : StateSet} (hn : n < stateLimit)
    (hop : op.isLazy = true) (hleft : left.UniformOver n domain)
    (hright : right.UniformOver n (some (narrow (openStates op n left) domain))) :
    (connect op n left right).UniformOver n domain := by
  intro s t hst
  obtain ⟨hs, ht⟩ := hst.mem_complement_iff (a := left) hn
  have hmem : s ∈ left ↔ decide (t ∈ left) = true := by rw [decide_eq_true_iff, hleft hst]
  have hmem' : t ∈ left ↔ decide (t ∈ left) = true := decide_eq_true_iff.symm
  rw [mem_connect right hop hmem hs, mem_connect right hop hmem' ht]
  cases hdec : Model.decided? op (decide (t ∈ left)) with
  | some b => rfl
  | none =>
    have hopen := hst.narrow ((decided?_eq_none hop hmem hs).mpr hdec) ((decided?_eq_none hop hmem' ht).mpr hdec)
    rw [Option.getD_none, Option.getD_none, decide_eq_true_iff, decide_eq_true_iff, hright hopen]

theorem lazy_uniform {op : BinaryOp} {l r : Expr} (hn : m.numStates < stateLimit) (hop : op.isLazy = true)
    (hl : EvaluatesUniformly c m entered l) (hr : EvaluatesUniformly c m entered r) :
    EvaluatesUniformly c m entered (.binary op l r) := by
  intro domain
  rw [evalWith_lazy c m entered domain hop]
  refine (satisfying_uniform hn hl).bind fun left hleft => ?_
  exact (satisfyingOver_uniform hn hr).bind fun right hright => .pure (.ofSet hn (connect_uniform hn hop hleft hright))

theorem binary_uniform {op : BinaryOp} {l r : Expr} (hn : m.numStates < stateLimit)
    (hl : EvaluatesUniformly c m entered l) (hr : EvaluatesUniformly c m entered r) :
    EvaluatesUniformly c m entered (.binary op l r) := by
  by_cases hop : op.isLazy = true
  · exact lazy_uniform hn hop hl hr
  · intro domain
    rw [evalWith_strict .whereOpen c m entered domain fun h => hop h.2]
    refine (hl domain).bind fun lv hlv => (hr domain).bind fun rv hrv => ?_
    exact .ofEval fun out h => hlv.map2 hn hrv h

theorem unary_uniform {op : UnaryOp} {e : Expr} (hn : m.numStates < stateLimit)
    (he : EvaluatesUniformly c m entered e) : EvaluatesUniformly c m entered (.unary op e) := by
  intro domain
  by_cases hop : op = .parenth
  · rw [hop, evalWith_parenth]
    exact he domain
  · rw [evalWith_unary .whereOpen c m entered domain hop]
    exact (he domain).bind fun v hv => .ofEval fun out h => hv.map1 hn h

theorem combineArgs_uniform {f : Function} {t : ValueType} {args : List Expr} {acc : StateVector}
    (hn : m.numStates < stateLimit) (hargs : ∀ a ∈ args, EvaluatesUniformly c m entered a)
    (hacc : acc.UniformOver m.numStates domain) :
    Ensures (combineArgs .whereOpen c m entered f t acc args domain) (UniformOver m.numStates domain) := by
  induction args generalizing acc with
  | nil =>
    rw [combineArgs_nil]
    exact .pure hacc
  | cons a rest ih =>
    rw [combineArgs_cons]
    refine (hargs a List.mem_cons_self domain).bind fun v hv => ?_
    refine Ensures.bind (.ofEval fun acc' h => hacc.map2 hn hv h) fun acc' hacc' => ?_
    exact ih (fun b hb => hargs b (List.mem_cons_of_mem a hb)) hacc'

theorem call_uniform {f : Function} {args : List Expr} (hn : m.numStates < stateLimit) (hmulti : f ≠ .multi)
    (hargs : ∀ a ∈ args, EvaluatesUniformly c m entered a) : EvaluatesUniformly c m entered (.call f args) := by
  intro domain
  cases haccepts : f.accepts args.length with
  | false =>
    rw [evalWith_wrongArity .whereOpen c m entered domain hmulti haccepts]
    exact .throw _
  | true =>
    rcases Function.accepts_cases haccepts with ⟨hkind, a, b, rest, rfl⟩ | ⟨hkind, a, rfl⟩ | ⟨hkind, a, b, rfl⟩
    · rw [evalWith_extremum .whereOpen c m entered domain hkind]
      refine (hargs a List.mem_cons_self domain).bind fun v hv => ?_
      exact combineArgs_uniform hn (fun d hd => hargs d (List.mem_cons_of_mem a hd)) hv
    · rw [evalWith_rounding .whereOpen c m entered domain hkind]
      exact (hargs a List.mem_cons_self domain).bind fun v hv => .ofEval fun out h => hv.map1 hn h
    · rw [evalWith_dyadic .whereOpen c m entered domain hkind]
      refine (hargs a List.mem_cons_self domain).bind fun v hv => ?_
      exact (hargs b (by simp) domain).bind fun w hw => .ofEval fun out h => hv.map2 hn hw h

theorem constantVector_uniform (hn : m.numStates < stateLimit) (name : String) (t : ValueType) :
    Ensures (constantVector c m name t) (UniformOver m.numStates domain) := by
  unfold constantVector
  split
  · exact .throw _
  · split
    · exact .throw _
    · exact .pure (.constant hn _)

theorem filter_uniform {op : FilterOp} {e : Expr} {p : Option Expr} {invisible explained : Bool}
    (hn : m.numStates < stateLimit) (hop : op.isSingleValued = true) (hrange : op ≠ .range) :
    EvaluatesUniformly c m entered (.filter op e p invisible explained) := by
  intro domain r w hw
  obtain ⟨states, reduced, r₁, r₂, -, hreduced, rfl, -⟩ := filter_eq_ok hw
  have hconstant : Ensures (reduceOver .whereOpen c m entered ⟨op, p, invisible, explained⟩ e states)
      (Filter.YieldsConstant m.numStates) := by
    unfold reduceOver
    exact Ensures.next fun selection => Ensures.next fun v => Filter.reduce_constant _ _ _ _ _ hop hrange
  obtain ⟨x, accuracy, hvector⟩ := hconstant r₂ reduced hreduced
  rw [hvector]
  exact (UniformOver.constant hn x).withAccuracy accuracy

/-- An answer by itself has one value over every domain, if no operator is applied to a filter for the range of
values. -/
theorem evalWith_uniform {e : Expr} (hn : m.numStates < stateLimit) (he : e.isSingleValued = true)
    (hrange : ∀ g ∈ e.filters, g.isFilter .range = false) : EvaluatesUniformly c m entered e := by
  match e with
  | .literal v =>
    intro domain
    rw [evalWith_literal]
    exact .pure (.constant hn v)
  | .constant name t =>
    intro domain
    rw [evalWith_constant]
    exact constantVector_uniform hn name t
  | .filter op e p invisible explained =>
    refine filter_uniform hn he fun hop => ?_
    have hself := hrange _ List.mem_cons_self
    rw [hop] at hself
    cases hself
  | .ite cond t e =>
    simp only [Expr.isSingleValued, Bool.and_eq_true] at he
    simp only [Expr.filters, List.mem_append] at hrange
    have hcond : EvaluatesUniformly c m entered cond :=
      evalWith_uniform hn he.1.1 fun g hg => hrange g (Or.inl (Or.inl hg))
    have ht : EvaluatesUniformly c m entered t :=
      evalWith_uniform hn he.1.2 fun g hg => hrange g (Or.inl (Or.inr hg))
    exact ite_uniform hn hcond ht (evalWith_uniform hn he.2 fun g hg => hrange g (Or.inr hg))
  | .binary op l r =>
    simp only [Expr.isSingleValued, Bool.and_eq_true] at he
    simp only [Expr.filters, List.mem_append] at hrange
    have hl : EvaluatesUniformly c m entered l := evalWith_uniform hn he.1 fun g hg => hrange g (Or.inl hg)
    exact binary_uniform hn hl (evalWith_uniform hn he.2 fun g hg => hrange g (Or.inr hg))
  | .unary op e => exact unary_uniform hn (evalWith_uniform (e := e) hn he hrange)
  | .call f args =>
    simp only [Expr.isSingleValued, Bool.and_eq_true] at he
    have hargs : ∀ a ∈ args, a.isSingleValued = true := Expr.areSingleValued_iff.mp he.2
    refine call_uniform hn (by simpa using he.1) fun a ha => ?_
    exact evalWith_uniform hn (hargs a ha) fun g hg => hrange g (Expr.mem_filtersOf.mpr ⟨a, ha, hg⟩)
  | .formula name (some d) t =>
    intro domain
    rw [evalWith_expanded]
    exact evalWith_uniform (e := d) hn he hrange domain

/-- Without a domain there is one value in every state. The only answers by themselves of which this may fail apply
operators to a filter for the range of values. -/
theorem checkExpression_uniform (c : Checker) (m : Model) (hn : m.numStates < stateLimit) (e : Expr)
    (he : e.isSingleValued = true) (hrange : ∀ g ∈ e.filters, g.isFilter .range = false) (r : Run) (v : StateVector)
    (hv : outcome (c.checkExpression m e none) r = .ok v) :
    v.size = m.numStates ∧ ∃ x, ∀ s < m.numStates, v.valueAt s = .ok x := by
  obtain ⟨-, -, hv⟩ := outcome_bind_eq_ok.mp hv
  have huniform := evalWith_uniform hn he hrange none _ v hv
  refine ⟨huniform.plain.1, ?_⟩
  rcases Nat.eq_zero_or_pos m.numStates with hzero | hpos
  · exact ⟨.bool true, fun s hs => absurd hs (by omega)⟩
  · obtain ⟨x, hx⟩ := huniform.plain.valueAt hpos
    refine ⟨x, fun s hs => ?_⟩
    rw [huniform.same ⟨List.mem_range.mpr hs, List.mem_range.mpr hpos, hs, hpos⟩, hx]

/-! ### A sum and a range -/

/-- The sum of a variable is one value. -/
theorem checkExpression_uniform_sum :
    ∃ v, outcome (bare.checkExpression .twoStates sumOfVar none) .start = .ok v ∧ v.size = 2 ∧
      ∃ x, ∀ s < 2, v.valueAt s = .ok x := by
  obtain ⟨r', h, -⟩ := evalWith_sumOfVar (after (Check.restart none) .start)
  have hv : outcome (bare.checkExpression .twoStates sumOfVar none) .start = .ok ⟨.ints #[1, 1], none⟩ :=
    congrArg Prod.fst h
  have hfilters : ∀ g ∈ sumOfVar.filters, g.isFilter .range = false := by
    rintro g (_ | ⟨_, hg⟩)
    · rfl
    · cases hg
  exact ⟨_, hv, checkExpression_uniform bare .twoStates (by decide) sumOfVar rfl hfilters .start _ hv⟩

/-- The range of the values of a variable. -/
def rangeOfVar : Expr := .filter .range (.var "x" 0 .int) none false true

/-- The range of a variable counts as an answer, and it is another value in each state. -/
theorem checkExpression_varies_range :
    rangeOfVar.isSingleValued = true ∧
      ∃ v, outcome (bare.checkExpression .twoStates rangeOfVar none) .start = .ok v ∧
        v.valueAt 0 = .ok (.int 0) ∧ v.valueAt 1 = .ok (.int 1) := by
  refine ⟨rfl, ⟨.ints #[0, 1], none⟩, ?_, rfl, rfl⟩
  unfold checkExpression eval rangeOfVar
  rw [outcome_bind_ok (outcome_restart _ _), evalWith_filter]
  unfold selected applyFilter
  simp only [evalWith_var]
  rfl

end Checker

end Statewise
