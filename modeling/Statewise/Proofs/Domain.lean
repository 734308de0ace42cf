import Statewise.Proofs.Pointwise

/-!
# Domains

Checking an expression over a domain is checking it in every state of the domain by itself. If the labels of
a model hold in its states only, checking without a domain is checking over all states.
-/

namespace Statewise

open Check StateVector

/-! ## All states -/

section

variable {n : Nat} {t : ValueType}

theorem statesOf_full (hn : n < stateLimit) : statesOf n (some (.full n)) = statesOf n none := by
  show List.range (StateSet.index n) = List.range n
  rw [StateSet.index_of_lt hn]

theorem tabulate_full {ε : Type} {lift : EvalError → ε} {f : Nat → Except ε Value} (hn : n < stateLimit) :
    tabulate lift t n (some (.full n)) f = tabulate lift t n none f := by
  unfold tabulate entriesOver
  rw [statesOf_full hn]

theorem map1_full {v : StateVector} {f : Value → Except EvalError Value} (hn : n < stateLimit) (hv : v.IsPlain n) :
    v.map1 t (some (.full n)) f = v.map1 t none f := by
  unfold map1
  rw [hv.1, tabulate_full hn]

theorem map2_full {v w : StateVector} {f : Value → Value → Except EvalError Value} (hn : n < stateLimit)
    (hv : v.IsPlain n) : v.map2 w t (some (.full n)) f = v.map2 w t none f := by
  unfold map2
  rw [hv.1, tabulate_full hn]

theorem map3_full {u v w : StateVector} {f : Value → Value → Value → Except EvalError Value} (hn : n < stateLimit)
    (hu : u.IsPlain n) : u.map3 v w t (some (.full n)) f = u.map3 v w t none f := by
  unfold map3
  rw [hu.1, tabulate_full hn]

/-- Narrowing a set of real states to all states changes nothing. -/
theorem narrow_full {a : StateSet} (hn : n < stateLimit) (ha : ∀ s ∈ a, s < n) :
    narrow a (some (.full n)) = narrow a none := by
  ext s
  show s ∈ a.inter (.full n) ↔ s ∈ a
  rw [StateSet.mem_inter, StateSet.mem_full_of_lt hn]
  exact and_iff_left_of_imp (ha s)

end

namespace Checker

variable {c : Checker} {m : Model}

theorem complement_lt {n : Nat} (a : StateSet) : ∀ s ∈ a.complement n, s < n :=
  fun _ hs => Nat.lt_of_lt_of_le (StateSet.mem_complement.mp hs).1 (Nat.mod_le _ _)

section

variable {entered : Entered}

/-- Evaluating over all states is evaluating without a domain. -/
def IgnoresFull (c : Checker) (m : Model) (entered : Entered) (e : Expr) : Prop :=
  evalWith .whereOpen c m entered e (some (.full m.numStates)) = evalWith .whereOpen c m entered e none

/-- What is computed without looking at the domain. -/
theorem IgnoresFull.fixed {e : Expr} {x : Check StateVector}
    (h : ∀ domain, evalWith .whereOpen c m entered e domain = x) : IgnoresFull c m entered e :=
  (h _).trans (h none).symm

theorem satisfying_full {e : Expr} (he : IgnoresFull c m entered e) :
    satisfying .whereOpen c m entered (some (.full m.numStates)) e = satisfying .whereOpen c m entered none e := by
  unfold satisfying
  rw [he]

theorem lookupVector_full (hn : m.numStates < stateLimit) (name : String) (t : ValueType)
    (value? : Nat → Option Value) :
    lookupVector m name t (some (.full m.numStates)) value? = lookupVector m name t none value? := by
  unfold lookupVector
  rw [tabulate_full hn]

/-- The satisfaction set of an expression holds in real states only. -/
theorem satisfying_lt (hm : m.LabelsInRange) (hc : c.solver = none) {e : Expr} {domain : Option StateSet} {r : Run}
    {a : StateSet} (h : outcome (satisfying .whereOpen c m entered domain e) r = .ok a) :
    ∀ s ∈ a, s < m.numStates :=
  (satisfying_delivers (evalWith_delivers .whereOpen c m hc entered e)).spec r a h hm

theorem plain_of_outcome {st : Strategy} (hc : c.solver = none) {e : Expr} {domain : Option StateSet} {r : Run}
    {v : StateVector} (h : outcome (evalWith st c m entered e domain) r = .ok v) : v.IsPlain m.numStates :=
  ((evalWith_delivers st c m hc entered e domain).spec r v h).plain

theorem ite_full {cond t e : Expr} (hn : m.numStates < stateLimit) (hm : m.LabelsInRange) (hc : c.solver = none)
    (hcond : IgnoresFull c m entered cond) : IgnoresFull c m entered (.ite cond t e) := by
  unfold IgnoresFull
  rw [evalWith_ite, evalWith_ite]
  refine bind_congr_ok (satisfying_full hcond) fun r holds hholds => ?_
  rw [narrow_full hn (satisfying_lt hm hc hholds), narrow_full hn (complement_lt holds)]
  simp only [map3_full hn (isPlain_ofSet holds m.numStates)]

theorem binary_full {op : BinaryOp} {l r : Expr} (hn : m.numStates < stateLimit) (hm : m.LabelsInRange)
    (hc : c.solver = none) (hl : IgnoresFull c m entered l) (hr : IgnoresFull c m entered r) :
    IgnoresFull c m entered (.binary op l r) := by
  unfold IgnoresFull
  cases hop : op.isLazy with
  | true =>
    rw [evalWith_lazy c m entered _ hop, evalWith_lazy c m entered _ hop]
    refine bind_congr_ok (satisfying_full hl) fun run left hleft => ?_
    have hopen : ∀ s ∈ openStates op m.numStates left, s < m.numStates := by
      unfold openStates
      split
      · exact complement_lt left
      · exact satisfying_lt hm hc hleft
    rw [narrow_full hn hopen]
  | false =>
    have hstrict : ¬(Strategy.whereOpen = .whereOpen ∧ op.isLazy = true) := by simp [hop]
    rw [evalWith_strict .whereOpen c m entered _ hstrict, evalWith_strict .whereOpen c m entered _ hstrict]
    refine bind_congr_ok hl fun run lv hlv => ?_
    rw [hr]
    simp only [map2_full hn (plain_of_outcome hc hlv)]

theorem unary_full {op : UnaryOp} {e : Expr} (hn : m.numStates < stateLimit) (hc : c.solver = none)
    (he : IgnoresFull c m entered e) : IgnoresFull c m entered (.unary op e) := by
  unfold IgnoresFull
  by_cases hop : op = .parenth
  · rw [hop, evalWith_parenth, evalWith_parenth]
    exact he
  · rw [evalWith_unary .whereOpen c m entered _ hop, evalWith_unary .whereOpen c m entered _ hop]
    refine bind_congr_ok he fun run v hv => ?_
    rw [map1_full hn (plain_of_outcome hc hv)]

theorem combineArgs_full {f : Function} {t : ValueType} {args : List Expr} {acc : StateVector}
    (hn : m.numStates < stateLimit) (hc : c.solver = none) (hargs : ∀ a ∈ args, IgnoresFull c m entered a)
    (hacc : acc.IsPlain m.numStates) :
    combineArgs .whereOpen c m entered f t acc args (some (.full m.numStates)) =
      combineArgs .whereOpen c m entered f t acc args none := by
  induction args generalizing acc with
  | nil => rw [combineArgs_nil, combineArgs_nil]
  | cons a rest ih =>
    rw [combineArgs_cons, combineArgs_cons]
    refine bind_congr_ok (hargs a List.mem_cons_self) fun run v hv => ?_
    rw [map2_full hn hacc]
    refine bind_congr_ok rfl fun run acc' hacc' => ?_
    rw [outcome_ofEval_eq_ok, map2_eq hacc (plain_of_outcome hc hv)] at hacc'
    exact ih (fun b hb => hargs b (List.mem_cons_of_mem a hb)) (tabulate_spec hacc').plain

theorem call_full {f : Function} {args : List Expr} (hn : m.numStates < stateLimit) (hc : c.solver = none)
    (hargs : ∀ a ∈ args, IgnoresFull c m entered a) : IgnoresFull c m entered (.call f args) := by
  unfold IgnoresFull
  by_cases hmulti : f = .multi
  · rw [hmulti, evalWith_multi_unsolved .whereOpen c m entered _ hc, evalWith_multi_unsolved .whereOpen c m entered _ hc]
  · cases haccepts : f.accepts args.length with
    | false =>
      rw [evalWith_wrongArity .whereOpen c m entered _ hmulti haccepts,
        evalWith_wrongArity .whereOpen c m entered _ hmulti haccepts]
    | true =>
      rcases Function.accepts_cases haccepts with ⟨hf, a, b, rest, rfl⟩ | ⟨hf, a, rfl⟩ | ⟨hf, a, b, rfl⟩
      · rw [evalWith_extremum .whereOpen c m entered _ hf, evalWith_extremum .whereOpen c m entered _ hf]
        refine bind_congr_ok (hargs a List.mem_cons_self) fun run v hv => ?_
        exact combineArgs_full hn hc (fun d hd => hargs d (List.mem_cons_of_mem a hd)) (plain_of_outcome hc hv)
      · rw [evalWith_rounding .whereOpen c m entered _ hf, evalWith_rounding .whereOpen c m entered _ hf]
        refine bind_congr_ok (hargs a List.mem_cons_self) fun run v hv => ?_
        rw [map1_full hn (plain_of_outcome hc hv)]
      · rw [evalWith_dyadic .whereOpen c m entered _ hf, evalWith_dyadic .whereOpen c m entered _ hf]
        refine bind_congr_ok (hargs a List.mem_cons_self) fun run v hv => ?_
        rw [hargs b (by simp)]
        simp only [map2_full hn (plain_of_outcome hc hv)]

theorem observable_full {name : String} {t : ValueType} (hn : m.numStates < stateLimit) :
    IgnoresFull c m entered (.observable name t) := by
  unfold IgnoresFull
  rw [evalWith_observable, evalWith_observable]
  unfold observableVector
  simp only [lookupVector_full hn]

end

/-- If labels hold in real states only, evaluating over all states is evaluating without a domain. -/
theorem evalWith_full (hn : m.numStates < stateLimit) (hm : m.LabelsInRange) (hc : c.solver = none)
    (entered : Entered) (e : Expr) : IgnoresFull c m entered e := by
  -- Operands go on with the narrowed domain; a filter, a reference to nothing and a constant have no use for it.
  match e with
  | .ite cond t e => exact ite_full hn hm hc (evalWith_full hn hm hc entered cond)
  | .binary op l r =>
    exact binary_full hn hm hc (evalWith_full hn hm hc entered l) (evalWith_full hn hm hc entered r)
  | .unary op e => exact unary_full hn hc (evalWith_full hn hm hc entered e)
  | .call f args => exact call_full hn hc fun a ha => evalWith_full hn hm hc entered a
  | .filter op e p invisible explained =>
    exact .fixed fun domain => evalWith_filter .whereOpen c m entered domain op e p invisible explained
  | .literal v => exact .fixed fun domain => evalWith_literal .whereOpen c m entered domain v
  | .constant name t => exact .fixed fun domain => evalWith_constant .whereOpen c m entered domain name t
  | .ident name t => exact .fixed fun domain => evalWith_ident .whereOpen c m entered domain name t
  | .formula name (some body) t =>
    unfold IgnoresFull
    rw [evalWith_expanded, evalWith_expanded]
    exact evalWith_full hn hm hc entered body
  | .formula name none t => exact .fixed fun domain => evalWith_unexpanded .whereOpen c m entered domain name t
  | .var name index t =>
    unfold IgnoresFull
    rw [evalWith_var, evalWith_var, lookupVector_full hn]
  | .observable name t => exact observable_full hn
  | .label name =>
    rcases evalWith_label_cases c m entered name with ⟨states, hstates, h⟩ | h | h | ⟨body, -, hlt, h⟩
    · exact .fixed (h _)
    · exact .fixed (h _)
    · exact .fixed (h _)
    · unfold IgnoresFull
      rw [h, h]
      exact evalWith_full hn hm hc (entered.label name) body
  | .property name t =>
    rcases evalWith_property_cases c m entered name t with ⟨e, h⟩ | ⟨body, -, hlt, h⟩
    · exact .fixed (h _)
    · unfold IgnoresFull
      rw [h, h]
      exact bind_congr_ok rfl fun _ _ _ => evalWith_full hn hm hc (entered.property name) body
  | .quant measure query operand =>
    exact .fixed fun domain => evalWith_quant .whereOpen c m entered domain hc measure query operand
  | .path op operands bound => exact .fixed fun domain => evalWith_path .whereOpen c m entered domain op operands bound
termination_by (c.definitions.remaining entered, sizeOf e)

/-! ## Checking an expression -/

/-- If labels hold in real states only, checking without a domain is checking over all states. -/
theorem checkExpression_full (hn : m.numStates < stateLimit) (hm : m.LabelsInRange) (hc : c.solver = none) (e : Expr) :
    c.checkExpression m e none = c.checkExpression m e (some (.full m.numStates)) :=
  bind_congr_ok rfl fun _ _ _ => (evalWith_full hn hm hc .none e).symm

/-- Checking an expression over a domain yields its values in the states of the domain. -/
theorem checkExpression_computesOn (hn : m.numStates < stateLimit) (hc : c.solver = none) (e : Expr)
    {d : StateSet} (hd : d.IsDomain m.numStates) :
    ComputesOn m.numStates d (c.checkExpression m e (some d)) (pointValue c m .none e) :=
  Settles.next (fun r => ⟨(), outcome_restart _ r⟩) fun _ => evalWith_hasValues hn hc .none e d hd

/-- A value in every state of the domain is a successful run over every state by itself. -/
theorem defined_iff_singletons (hn : m.numStates < stateLimit) (hc : c.solver = none) (e : Expr) {d : StateSet}
    (hd : d.IsDomain m.numStates) (r : Run) :
    (pointValue c m .none e).Defined d ↔
      ∀ s ∈ d, ∃ w, outcome (c.checkExpression m e (some (.singleton s))) r = .ok w := by
  refine forall₂_congr fun s hs => ?_
  obtain ⟨hself, hdom⟩ := isDomain_singleton hn (hd.lt s hs)
  have hcomp := checkExpression_computesOn hn hc e hdom
  constructor
  · rintro ⟨y, hy⟩
    have hdef : (pointValue c m .none e).Defined (.singleton s) := by
      intro z hz
      rw [StateSet.mem_singleton, StateSet.index_of_lt (Nat.lt_trans (hd.lt s hs) hn)] at hz
      exact ⟨y, hz ▸ hy⟩
    obtain ⟨w, hw, -⟩ := hcomp.succeeds hdef r
    exact ⟨w, hw⟩
  · rintro ⟨w, hw⟩
    exact (hcomp.sound r w hw).1 s hself

/-- Checking an expression is pointwise in the domain. It succeeds over a domain if and only if it succeeds
over each of its states alone, and with the same entries; over a smaller domain it does not fail and has the
same entries. If labels hold in real states only, checking without a domain is checking over all states. -/
theorem checkExpression_pointwise (c : Checker) (m : Model) (hn : m.numStates < stateLimit) (hc : c.solver = none)
    (e : Expr) (r r' : Run) :
    (∀ d : StateSet, d.IsDomain m.numStates →
      ((∃ v, outcome (c.checkExpression m e (some d)) r = .ok v) ↔
        ∀ s ∈ d, ∃ w, outcome (c.checkExpression m e (some (.singleton s))) r' = .ok w) ∧
      (∀ v, outcome (c.checkExpression m e (some d)) r = .ok v → ∀ s ∈ d, ∀ w,
        outcome (c.checkExpression m e (some (.singleton s))) r' = .ok w →
        ∃ y, v.valueAt s = .ok y ∧ w.valueAt s = .ok y) ∧
      (∀ v, outcome (c.checkExpression m e (some d)) r = .ok v → ∀ d' : StateSet, (∃ s, s ∈ d') →
        (∀ s ∈ d', s ∈ d) → ∃ w, outcome (c.checkExpression m e (some d')) r' = .ok w ∧
        ∀ s ∈ d', ∃ y, v.valueAt s = .ok y ∧ w.valueAt s = .ok y)) ∧
    (m.LabelsInRange → c.checkExpression m e none = c.checkExpression m e (some (.full m.numStates))) := by
  constructor
  · intro d hd
    have hcomp := checkExpression_computesOn hn hc e hd
    refine ⟨?_, fun v hv s hs w hw => ?_, fun v hv d' hne hsub => ?_⟩
    · rw [← defined_iff_singletons hn hc e hd r']
      constructor
      · rintro ⟨v, hv⟩
        exact (hcomp.sound r v hv).1
      · intro hdef
        obtain ⟨v, hv, -⟩ := hcomp.succeeds hdef r
        exact ⟨v, hv⟩
    · obtain ⟨hdef, hshows⟩ := hcomp.sound r v hv
      obtain ⟨y, hy, hval⟩ := hshows.entry_of_defined hdef hs
      obtain ⟨hself, hdom⟩ := isDomain_singleton hn (hd.lt s hs)
      have hw := (checkExpression_computesOn hn hc e hdom).sound r' w hw
      exact ⟨y, hval, hw.2.entry s hself y hy⟩
    · obtain ⟨hdef, hshows⟩ := hcomp.sound r v hv
      have hd' : d'.IsDomain m.numStates := ⟨hne, fun s hs => hd.lt s (hsub s hs)⟩
      have hdef' : (pointValue c m .none e).Defined d' := fun s hs => hdef s (hsub s hs)
      obtain ⟨w, hw, hshows'⟩ := (checkExpression_computesOn hn hc e hd').succeeds hdef' r'
      refine ⟨w, hw, fun s hs => ?_⟩
      obtain ⟨y, hy, hval⟩ := hshows'.entry_of_defined hdef' hs
      exact ⟨y, hshows.entry s (hsub s hs) y hy, hval⟩
  · intro hm
    exact bind_congr_ok rfl fun _ _ _ => (evalWith_full hn hm hc .none e).symm

end Checker

/-! ## A variable over two states -/

/-- Two states with the values 0 and 1 of a variable; the first one is initial. -/
def Model.twoStates : Model :=
  ⟨.dtmc, ["x"], #[⟨[.int 0], [1]⟩, ⟨[.int 1], [1]⟩], .singleton 0, .empty, #[]⟩

theorem Model.isDomain_twoStates : (StateSet.full 2).IsDomain twoStates.numStates :=
  ⟨⟨0, by decide⟩, fun _ hs => StateSet.mem_full.mp hs⟩

theorem Model.labelsInRange_twoStates : twoStates.LabelsInRange := by
  intro name states h
  cases h

namespace Checker

/-- A checker that knows no definitions and asks no one. -/
def bare : Checker := ⟨.empty, {}, none, none, none⟩

theorem bare_checkExpression_var :
    outcome (bare.checkExpression .twoStates (.var "x" 0 .int) (some (.full 2))) .start =
      .ok ⟨.ints #[0, 1], none⟩ := by
  unfold checkExpression eval
  rw [evalWith_var]
  rfl

/-- The variable has the value 1 in the second state, over both states, over this state and over all. -/
theorem checkExpression_pointwise_twoStates :
    (∃ w, outcome (bare.checkExpression .twoStates (.var "x" 0 .int) (some (.singleton 1))) .start = .ok w ∧
      w.valueAt 1 = .ok (.int 1)) ∧
    bare.checkExpression .twoStates (.var "x" 0 .int) none =
      bare.checkExpression .twoStates (.var "x" 0 .int) (some (.full Model.twoStates.numStates)) := by
  obtain ⟨hdomain, hfull⟩ :=
    checkExpression_pointwise bare .twoStates (by decide) rfl (.var "x" 0 .int) .start .start
  obtain ⟨hsucceeds, hentries, -⟩ := hdomain (.full 2) Model.isDomain_twoStates
  obtain ⟨w, hw⟩ := hsucceeds.mp ⟨_, bare_checkExpression_var⟩ 1 (by decide)
  obtain ⟨y, hv, hy⟩ := hentries _ bare_checkExpression_var 1 (by decide) w hw
  cases hv
  exact ⟨⟨w, hw, hy⟩, hfull Model.labelsInRange_twoStates⟩

end Checker

end Statewise
