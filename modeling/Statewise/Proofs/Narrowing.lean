import Statewise.Proofs.Domain
import Statewise.Proofs.Following
import Statewise.Proofs.Within
import Mathlib.Data.List.Forall2

/-!
# Narrowed domains

Evaluating operands only in the states where they still matter never changes a result. If an evaluation over a
domain succeeds, with all operands evaluated everywhere or only where they matter, then so does the evaluation
over every part of the domain, and the two agree on this part. The filters that pass the vector of their operand
on are the exception: their vector is right in the states of the filter only, so they must select all states.
-/

namespace Statewise

open Check StateVector

/-- A filter that passes the vector of its operand on selects all states. -/
def Expr.KeepsWhole : Expr → Prop
  | .filter op _ selector _ _ => op.keepsVector = true → selector = none
  | _ => True

/-- A vector with one value per state, whose truth values hold in real states. -/
structure StateVector.IsReal (n : Nat) (v : StateVector) : Prop where
  plain : v.IsPlain n
  lt : ∀ a, v.satisfaction = .ok a → ∀ s ∈ a, s < n

namespace Checker

/-- Two models without a solver that differ in the labels attached to them at most. Their states fit into sets,
and their labels hold in these states. -/
structure Compares (c : Checker) (m m' : Model) : Prop where
  solver : c.solver = none
  small : m.numStates < stateLimit
  inRange : m.LabelsInRange
  inRange' : m'.LabelsInRange
  relabelled : ∃ labels, m' = { m with labels }

namespace Compares

variable {c : Checker} {m m' : Model}

theorem size (h : c.Compares m m') : m'.numStates = m.numStates := by
  obtain ⟨labels, rfl⟩ := h.relabelled
  rfl

theorem refl (hc : c.solver = none) (hn : m.numStates < stateLimit) (hm : m.LabelsInRange) : c.Compares m m :=
  ⟨hc, hn, hm, hm, m.labels, rfl⟩

theorem symm (h : c.Compares m m') : c.Compares m' m := by
  obtain ⟨hc, hn, hm, hm', labels, rfl⟩ := h
  exact ⟨hc, hn, hm', hm, m.labels, rfl⟩

end Compares

/-- The evaluation of `e'` over a part of a domain follows that of `e` over the domain, with the same type and the
same entries in this part. An evaluation of everything everywhere is followed over a nonempty domain only, since
over the empty one it can succeed by luck. -/
def Simulates (st : Strategy) (c : Checker) (m m' : Model) (entered : Entered) (e : Expr) (entered' : Entered)
    (e' : Expr) : Prop :=
  ∀ wide nar, Narrows m.numStates wide nar → (st = .everywhere → ∃ s, s ∈ statesOf m.numStates wide) →
    Follows (evalWith st c m entered e wide) (evalWith .whereOpen c m' entered' e' nar) (Matches m.numStates nar)

variable {st : Strategy} {c : Checker} {m m' : Model} {entered entered' : Entered} {wide nar : Option StateSet}

/-! ## Satisfaction sets -/

section

variable {e e' : Expr}

theorem evalWith_real (hc : c.solver = none) (hm : m.LabelsInRange) (domain : Option StateSet) :
    Delivers (evalWith st c m entered e domain) (IsReal m.numStates) :=
  (evalWith_delivers st c m hc entered e domain).mono fun _ hv => ⟨hv.plain, hv.inRange hm⟩

theorem satisfying_real (hc : c.solver = none) (hm : m.LabelsInRange) (domain : Option StateSet) :
    Delivers (satisfying st c m entered domain e) fun a => ∀ s ∈ a, s < m.numStates :=
  (satisfying_delivers (evalWith_delivers st c m hc entered e)).mono fun _ ha => ha hm

theorem evalOver_real (hc : c.solver = none) (hm : m.LabelsInRange) (t : ValueType) (states : StateSet) :
    Delivers (evalOver c m entered e t states) (IsReal m.numStates) :=
  (evalOver_delivers (evalWith_delivers .whereOpen c m hc entered e) t states).mono fun _ hv =>
    ⟨hv.plain, hv.inRange hm⟩

theorem satisfying_follows (h : c.Compares m m') (he : Simulates st c m m' entered e entered' e')
    (hd : Narrows m.numStates wide nar) (hne : st = .everywhere → ∃ s, s ∈ statesOf m.numStates wide) :
    Follows (satisfying st c m entered wide e) (satisfying .whereOpen c m' entered' nar e') fun a b =>
      ∀ s ∈ statesOf m.numStates nar, s ∈ a ↔ s ∈ b := by
  refine (he wide nar hd hne).bind (evalWith_real h.solver h.inRange wide)
    (evalWith_real h.solver h.inRange' nar) fun v w hv hw hvw => Follows.ofEval fun a ha => ?_
  rw [h.size] at hw
  obtain ⟨b, hb⟩ := satisfaction_of_type (hvw.type.symm.trans (type_of_satisfaction ha))
  exact ⟨b, hb, hvw.mem_iff h.small hd.nar_lt hv.plain hw.plain ha hb⟩

end

/-! ## The states where an operand matters -/

theorem mem_narrow_iff {a : StateSet} {n s : Nat} {domain : Option StateSet} (ha : ∀ s ∈ a, s < n) :
    s ∈ narrow a domain ↔ s ∈ a ∧ s ∈ statesOf n domain := by
  cases domain with
  | none => exact (and_iff_left_of_imp fun hs => List.mem_range.mpr (ha s hs)).symm
  | some d => exact StateSet.mem_inter

/-- Sets that agree on a part of a domain narrow it to a part of what they narrow the domain to. -/
theorem narrows_narrow {a b : StateSet} {n : Nat} (hd : Narrows n wide nar) (ha : ∀ s ∈ a, s < n)
    (hb : ∀ s ∈ b, s < n) (hab : ∀ s ∈ statesOf n nar, s ∈ a ↔ s ∈ b) :
    Narrows n (some (narrow a wide)) (some (narrow b nar)) := by
  refine Narrows.of_sets (fun s hs => ?_) fun s hs => ha s ((mem_narrow_iff ha).mp hs).1
  obtain ⟨hsb, hsn⟩ := (mem_narrow_iff hb).mp hs
  exact (mem_narrow_iff ha).mpr ⟨(hab s hsn).mpr hsb, hd.sub s hsn⟩

theorem complement_congr {a b : StateSet} {n s : Nat} (hab : s ∈ a ↔ s ∈ b) :
    s ∈ a.complement n ↔ s ∈ b.complement n := by
  rw [StateSet.mem_complement, StateSet.mem_complement, hab]

/-- What is left of an operand that was evaluated over some states, as far as they are needed: its type unless
there are none, and its entries. -/
structure Covers (t : ValueType) (states : StateSet) (v w : StateVector) : Prop where
  type : w.type = if states.isEmpty then t else v.type
  entry : ∀ s ∈ states, v.valueAt s = w.valueAt s

theorem covers_zero {t : ValueType} {states : StateSet} (hempty : states.isEmpty = true) (v : StateVector) (n : Nat) :
    Covers t states v (.zero t n) :=
  ⟨by rw [hempty, if_pos rfl, type_zero], fun s hs => absurd hs (StateSet.isEmpty_iff.mp hempty s)⟩

theorem covers_of_matches {t : ValueType} {states : StateSet} {v w : StateVector} {n : Nat}
    (hempty : states.isEmpty = false) (h : Matches n (some states) v w) : Covers t states v w :=
  ⟨by rw [hempty, if_neg Bool.false_ne_true, h.type], h.entry⟩

section

variable {e e' : Expr} {states part : StateSet}

/-- An operand over the states where it matters follows that over more such states. -/
theorem evalOver_follows (he : Simulates .whereOpen c m m' entered e entered' e') (t : ValueType)
    (hd : Narrows m.numStates (some states) (some part)) :
    Follows (evalOver c m entered e t states) (evalOver c m' entered' e' t part) (Covers t part) := by
  unfold evalOver
  cases hempty : part.isEmpty with
  | true =>
    rw [if_pos rfl]
    exact Follows.always fun r v => ⟨_, rfl, covers_zero hempty v _⟩
  | false =>
    obtain ⟨s, hs⟩ := StateSet.isEmpty_eq_false_iff.mp hempty
    have hstates : states.isEmpty = false := StateSet.isEmpty_eq_false_iff.mpr ⟨s, hd.sub s hs⟩
    rw [hstates, if_neg Bool.false_ne_true, if_neg Bool.false_ne_true]
    exact (he _ _ hd (fun hst => by cases hst)).mono fun v w hvw => covers_of_matches hempty hvw

/-- And it follows that over a whole domain. -/
theorem evalOver_follows_everywhere (he : Simulates .everywhere c m m' entered e entered' e') (t : ValueType)
    (hd : Narrows m.numStates wide (some part)) :
    Follows (evalWith .everywhere c m entered e wide) (evalOver c m' entered' e' t part) (Covers t part) := by
  unfold evalOver
  cases hempty : part.isEmpty with
  | true =>
    rw [if_pos rfl]
    exact Follows.always fun r v => ⟨_, rfl, covers_zero hempty v _⟩
  | false =>
    obtain ⟨s, hs⟩ := StateSet.isEmpty_eq_false_iff.mp hempty
    rw [if_neg Bool.false_ne_true]
    exact (he _ _ hd fun _ => ⟨s, hd.sub s hs⟩).mono fun v w hvw => covers_of_matches hempty hvw

theorem satisfyingOver_follows (h : c.Compares m m') (he : Simulates .whereOpen c m m' entered e entered' e')
    (hd : Narrows m.numStates (some states) (some part)) :
    Follows (satisfyingOver c m entered e states) (satisfyingOver c m' entered' e' part) fun a b =>
      ∀ s ∈ part, s ∈ a ↔ s ∈ b := by
  refine (evalOver_follows he .bool hd).bind (evalOver_real h.solver h.inRange .bool states)
    (evalOver_real h.solver h.inRange' .bool part) fun v w hv hw hvw => Follows.ofEval fun a ha => ?_
  rw [h.size] at hw
  have htype : w.type = .bool := by
    rw [hvw.type, type_of_satisfaction ha]
    exact ite_self _
  obtain ⟨b, hb⟩ := satisfaction_of_type htype
  refine ⟨b, hb, fun s hs => ?_⟩
  have hlt : s < m.numStates := hd.nar_lt s hs
  exact mem_iff_of_valueAt_eq hv.plain hw.plain ha hb hlt (Nat.lt_trans hlt h.small) (hvw.entry s hs)

end

/-! ## Conditionals -/

section

variable {a b : StateSet} {cv tv ev cv' tv' ev' out : StateVector} {n : Nat} {t u : ValueType}

/-- In a state a conditional takes the entry of the branch that the condition picks. -/
theorem applyIte_valueAt {s : Nat} (hn : n < stateLimit) (hs : s < n) (hcv : cv.IsPlain n)
    (ha : cv.satisfaction = .ok a) (htv : tv.IsPlain n) (hev : ev.IsPlain n) :
    (do Value.applyIte (← cv.valueAt s) (← tv.valueAt s) (← ev.valueAt s) : Except EvalError Value) =
      if s ∈ a then tv.valueAt s else ev.valueAt s := by
  obtain ⟨x, hx⟩ := htv.valueAt hs
  obtain ⟨y, hy⟩ := hev.valueAt hs
  rw [valueAt_of_satisfaction ha (hcv.1 ▸ hs), StateSet.contains_eq_decide (Nat.lt_trans hs hn), hx, hy]
  by_cases hmem : s ∈ a
  · rw [if_pos hmem, decide_eq_true hmem]
    rfl
  · rw [if_neg hmem, decide_eq_false hmem]
    rfl

/-- Conditionals agree on a part of a domain if their conditions do, and each of their branches where the
condition picks it. -/
theorem iteVector_follows (hn : n < stateLimit) (hd : Narrows n wide nar) (hb : ∀ s ∈ b, s < n)
    (hab : ∀ s ∈ statesOf n nar, s ∈ a ↔ s ∈ b) (hcv : cv.IsPlain n) (ha : cv.satisfaction = .ok a)
    (htv : tv.IsPlain n) (hev : ev.IsPlain n) (htv' : tv'.IsPlain n) (hev' : ev'.IsPlain n)
    (ht : Covers u (narrow b nar) tv tv') (he : Covers u (narrow (b.complement n) nar) ev ev')
    (hout : cv.map3 tv ev t wide Value.applyIte = .ok out) :
    ∃ o, (ofSet b n).map3 tv' ev' t nar Value.applyIte = .ok o ∧ Matches n nar out o := by
  rw [map3_eq hcv htv hev] at hout
  rw [map3_eq (isPlain_ofSet b n) htv' hev']
  refine tabulate_follows hn hd (fun s hs y hy => ?_) hout
  have hlt : s < n := hd.nar_lt s hs
  rw [applyIte_valueAt hn hlt hcv ha htv hev] at hy
  rw [applyIte_valueAt hn hlt (isPlain_ofSet b n) (satisfaction_ofSet b n) htv' hev', ← hy]
  by_cases hmem : s ∈ b
  · have hnarrow : s ∈ narrow b nar := (mem_narrow_iff hb).mpr ⟨hmem, hs⟩
    rw [if_pos hmem, if_pos ((hab s hs).mpr hmem), ht.entry s hnarrow]
  · have hcompl : s ∈ b.complement n := StateSet.mem_complement.mpr ⟨by rwa [StateSet.index_of_lt hn], hmem⟩
    have hnarrow : s ∈ narrow (b.complement n) nar := (mem_narrow_iff (complement_lt b)).mpr ⟨hcompl, hs⟩
    rw [if_neg hmem, if_neg fun h => hmem ((hab s hs).mp h), he.entry s hnarrow]

/-- A state of the domain of a tabulation has a value. -/
theorem exists_value_of_tabulate {f : Nat → Except EvalError Value} {s : Nat} (hn : n < stateLimit)
    (hs : s ∈ statesOf n wide) (h : tabulate id t n wide f = .ok out) : ∃ y, f s = .ok y := by
  obtain ⟨-, y, -, hy, -, -⟩ := (tabulate_spec h).entry (Nat.le_of_lt hn) s hs
  exact ⟨y, hy⟩

/-- A vector that serves as a condition in some state has truth values. -/
theorem satisfaction_of_map3 (hn : n < stateLimit) (hne : ∃ s, s ∈ statesOf n wide) (hcv : cv.IsPlain n)
    (htv : tv.IsPlain n) (hev : ev.IsPlain n) (hout : cv.map3 tv ev t wide Value.applyIte = .ok out) :
    ∃ a, cv.satisfaction = .ok a := by
  rw [map3_eq hcv htv hev] at hout
  obtain ⟨s, hs⟩ := hne
  obtain ⟨y, hy⟩ := exists_value_of_tabulate hn hs hout
  obtain ⟨x, hx, hy⟩ := Yields.bind_eq_ok.mp hy
  obtain ⟨p, -, hy⟩ := Yields.bind_eq_ok.mp hy
  obtain ⟨q, -, hy⟩ := Yields.bind_eq_ok.mp hy
  obtain ⟨b, hb, -⟩ := Yields.bind_eq_ok.mp hy
  rw [Value.expectBool_eq_ok.mp hb] at hx
  exact satisfaction_of_valueAt hx

end

section

variable {cond cond' t t' e e' : Expr}

theorem ite_simulates_whereOpen (h : c.Compares m m') (htype : t'.type.choice e'.type = t.type.choice e.type)
    (hcond : Simulates .whereOpen c m m' entered cond entered' cond')
    (ht : Simulates .whereOpen c m m' entered t entered' t')
    (he : Simulates .whereOpen c m m' entered e entered' e') :
    Simulates .whereOpen c m m' entered (.ite cond t e) entered' (.ite cond' t' e') := by
  intro wide nar hd hne
  rw [evalWith_ite, evalWith_ite, htype, h.size]
  refine (satisfying_follows h hcond hd hne).bind (satisfying_real h.solver h.inRange wide)
    (satisfying_real h.solver h.inRange' nar) fun a b ha hb hab => ?_
  rw [h.size] at hb
  have hthen := narrows_narrow hd ha hb hab
  have helse := narrows_narrow hd (complement_lt a) (complement_lt b) fun s hs => complement_congr (hab s hs)
  refine (evalOver_follows ht _ hthen).bind (evalOver_real h.solver h.inRange _ _)
    (evalOver_real h.solver h.inRange' _ _) fun tv tv' htv htv' htcov => ?_
  refine (evalOver_follows he _ helse).bind (evalOver_real h.solver h.inRange _ _)
    (evalOver_real h.solver h.inRange' _ _) fun ev ev' hev hev' hecov => Follows.ofEval fun out hout => ?_
  rw [h.size] at htv' hev'
  exact iteVector_follows h.small hd hb hab (isPlain_ofSet a _) (satisfaction_ofSet a _) htv.plain hev.plain
    htv'.plain hev'.plain htcov hecov hout

/-- Conditionals whose branches were all evaluated over the whole domain. -/
theorem ite_simulates_everywhere (h : c.Compares m m') (htype : t'.type.choice e'.type = t.type.choice e.type)
    (hcond : Simulates .everywhere c m m' entered cond entered' cond')
    (ht : Simulates .everywhere c m m' entered t entered' t')
    (he : Simulates .everywhere c m m' entered e entered' e') :
    Simulates .everywhere c m m' entered (.ite cond t e) entered' (.ite cond' t' e') := by
  intro wide nar hd hne
  rw [evalWith_ite_everywhere, evalWith_ite, htype, h.size]
  unfold satisfying
  simp only [bind_assoc]
  refine (hcond wide nar hd hne).bind (evalWith_real h.solver h.inRange wide)
    (evalWith_real h.solver h.inRange' nar) fun cv cv' hcv hcv' hcvs => ?_
  rw [h.size] at hcv'
  -- That the condition has truth values shows only when the branches are combined.
  refine Follows.assume fun r out hout => ?_
  obtain ⟨tv, htv, hout⟩ := outcome_bind_eq_ok.mp hout
  obtain ⟨ev, hev, hout⟩ := outcome_bind_eq_ok.mp hout
  obtain ⟨a, ha⟩ := satisfaction_of_map3 h.small (hne rfl) hcv.plain (plain_of_outcome h.solver htv)
    (plain_of_outcome h.solver hev) (outcome_ofEval_eq_ok.mp hout)
  obtain ⟨b, hb⟩ := satisfaction_of_type (hcvs.type.symm.trans (type_of_satisfaction ha))
  have hab := hcvs.mem_iff h.small hd.nar_lt hcv.plain hcv'.plain ha hb
  have hblt := hcv'.lt b hb
  have hpart : ∀ p : StateSet, (∀ s ∈ p, s < m.numStates) →
      Narrows m.numStates wide (some (narrow p nar)) := fun p hp =>
    ⟨fun s hs => hd.sub s ((mem_narrow_iff hp).mp hs).2, hd.lt⟩
  rw [hb]
  refine (evalOver_follows_everywhere ht _ (hpart b hblt)).bind (evalWith_real h.solver h.inRange _)
    (evalOver_real h.solver h.inRange' _ _) fun tv tv' htv htv' htcov => ?_
  refine (evalOver_follows_everywhere he _ (hpart _ (complement_lt b))).bind (evalWith_real h.solver h.inRange _)
    (evalOver_real h.solver h.inRange' _ _) fun ev ev' hev hev' hecov => Follows.ofEval fun out hout => ?_
  rw [h.size] at htv' hev'
  exact iteVector_follows h.small hd hblt hab hcv.plain ha htv.plain hev.plain htv'.plain hev'.plain htcov hecov hout

theorem ite_simulates (h : c.Compares m m') (htype : t'.type.choice e'.type = t.type.choice e.type)
    (hcond : Simulates st c m m' entered cond entered' cond') (ht : Simulates st c m m' entered t entered' t')
    (he : Simulates st c m m' entered e entered' e') :
    Simulates st c m m' entered (.ite cond t e) entered' (.ite cond' t' e') := by
  cases st with
  | whereOpen => exact ite_simulates_whereOpen h htype hcond ht he
  | everywhere => exact ite_simulates_everywhere h htype hcond ht he

end

/-! ## Connectives -/

/-- Connectives agree in a state if their left operands do, and their right operands unless the left one decides. -/
theorem connect_congr {op : BinaryOp} {left left' right right' : StateSet} {n s : Nat} (hop : op.isLazy = true)
    (hn : n < stateLimit) (hs : s < n) (hl : s ∈ left ↔ s ∈ left')
    (hr : s ∈ openStates op n left' → (s ∈ right ↔ s ∈ right')) :
    s ∈ connect op n left right ↔ s ∈ connect op n left' right' := by
  have hcompl : ∀ a : StateSet, s ∈ a.complement n ↔ s ∉ a := fun a => by
    rw [StateSet.mem_complement, StateSet.index_of_lt hn]
    exact and_iff_right hs
  by_cases hmem : s ∈ left' <;> cases op <;>
    simp_all [-StateSet.mem_complement, BinaryOp.isLazy, openStates, connect]

theorem openStates_lt {op : BinaryOp} {left : StateSet} {n : Nat} (h : ∀ s ∈ left, s < n) :
    ∀ s ∈ openStates op n left, s < n := by
  unfold openStates
  split
  · exact complement_lt left
  · exact h

theorem openStates_congr {op : BinaryOp} {a b : StateSet} {n s : Nat} (hab : s ∈ a ↔ s ∈ b) :
    s ∈ openStates op n a ↔ s ∈ openStates op n b := by
  unfold openStates
  split
  · exact complement_congr hab
  · exact hab

/-- Sets that agree on a domain are vectors that do. -/
theorem matches_ofSet {a b : StateSet} {n : Nat} {domain : Option StateSet} (hn : n < stateLimit)
    (hlt : ∀ s ∈ statesOf n domain, s < n) (hab : ∀ s ∈ statesOf n domain, s ∈ a ↔ s ∈ b) :
    Matches n domain (ofSet a n) (ofSet b n) := by
  refine ⟨rfl, fun s hs => ?_⟩
  have hlimit : s < stateLimit := Nat.lt_trans (hlt s hs) hn
  rw [valueAt_ofSet (hlt s hs), valueAt_ofSet (hlt s hs), StateSet.contains_eq_decide hlimit,
    StateSet.contains_eq_decide hlimit, decide_eq_decide.mpr (hab s hs)]

section

variable {op : BinaryOp} {l l' r r' : Expr}

theorem lazy_simulates_whereOpen (h : c.Compares m m') (hop : op.isLazy = true)
    (hl : Simulates .whereOpen c m m' entered l entered' l')
    (hr : Simulates .whereOpen c m m' entered r entered' r') :
    Simulates .whereOpen c m m' entered (.binary op l r) entered' (.binary op l' r') := by
  intro wide nar hd hne
  rw [evalWith_lazy c m entered wide hop, evalWith_lazy c m' entered' nar hop, h.size]
  refine (satisfying_follows h hl hd hne).bind (satisfying_real h.solver h.inRange wide)
    (satisfying_real h.solver h.inRange' nar) fun left left' hlt hlt' hleft => ?_
  rw [h.size] at hlt'
  have hopenlt : ∀ s ∈ openStates op m.numStates left, s < m.numStates := openStates_lt hlt
  have hopen := narrows_narrow hd hopenlt (openStates_lt hlt') fun s hs => openStates_congr (hleft s hs)
  refine (satisfyingOver_follows h hr hopen).next fun right right' hright => Follows.pure ?_
  refine matches_ofSet h.small hd.nar_lt fun s hs => ?_
  refine connect_congr hop h.small (hd.nar_lt s hs) (hleft s hs) fun hmem => hright s ?_
  exact (mem_narrow_iff (openStates_lt hlt')).mpr ⟨hmem, hs⟩

/-- What a connective does in a state whose left operand is known: the right one has to be a truth value unless
the left one decides. -/
theorem applyBinary_lazy {a : Bool} {x y : Value} (hop : op.isLazy = true)
    (h : Value.applyBinary op (.bool a) x = .ok y) :
    ∃ b, y = .bool ((Model.decided? op a).getD b) ∧ (Model.decided? op a = none → x = .bool b) := by
  cases x with
  | bool b =>
    refine ⟨b, ?_, fun _ => rfl⟩
    cases op <;> simp [BinaryOp.isLazy] at hop <;> cases a <;> exact (Except.ok.inj h).symm
  | _ =>
    -- Only where the left operand decides is nothing asked of a number.
    refine ⟨true, ?_⟩
    cases op <;> simp [BinaryOp.isLazy] at hop <;> cases a <;>
      simp_all [Value.applyBinary, Value.expectBool, Model.decided?, bind, Except.bind, pure, Except.pure]

theorem applyBinary_left {x z y : Value} (hop : op.isLazy = true) (h : Value.applyBinary op x z = .ok y) :
    ∃ a, x = .bool a := by
  cases op <;> simp [BinaryOp.isLazy] at hop <;> cases x <;>
    simp_all [Value.applyBinary, Value.expectBool, bind, Except.bind]

/-- The right operand of a connective that was evaluated over the whole domain has truth values where it matters. -/
theorem lazyVector_follows {left left' : StateSet} {lv rv rv' out : StateVector} {n : Nat} (hop : op.isLazy = true)
    (hn : n < stateLimit) (hd : Narrows n wide nar) (hlt' : ∀ s ∈ left', s < n)
    (hleft : ∀ s ∈ statesOf n nar, s ∈ left ↔ s ∈ left') (hlv : lv.IsPlain n) (hl : lv.satisfaction = .ok left)
    (hrv : rv.IsPlain n) (hrv' : rv'.IsPlain n) (hcov : Covers .bool (narrow (openStates op n left') nar) rv rv')
    (hout : lv.map2 rv .bool wide (Value.applyBinary op) = .ok out) :
    ∃ right, rv'.satisfaction = .ok right ∧ Matches n nar out (ofSet (connect op n left' right) n) := by
  rw [map2_eq hlv hrv] at hout
  have hspec := tabulate_spec hout
  have hentry : ∀ s ∈ statesOf n nar, ∃ b,
      out.valueAt s = .ok (.bool ((Model.decided? op (decide (s ∈ left'))).getD b)) ∧
        (Model.decided? op (decide (s ∈ left')) = none → rv.valueAt s = .ok (.bool b)) := by
    intro s hs
    have hlt := hd.nar_lt s hs
    obtain ⟨-, y, w, hy, hw, hval⟩ := hspec.entry (Nat.le_of_lt hn) s (hd.sub s hs)
    obtain ⟨x, hx, hy⟩ := Yields.bind_eq_ok.mp hy
    obtain ⟨z, hz, hy⟩ := Yields.bind_eq_ok.mp hy
    rw [valueAt_of_satisfaction hl (hlv.1 ▸ hlt), StateSet.contains_eq_decide (Nat.lt_trans hlt hn),
      decide_eq_decide.mpr (hleft s hs)] at hx
    rw [← Except.ok.inj hx] at hy
    obtain ⟨b, hyb, hopen⟩ := applyBinary_lazy hop hy
    refine ⟨b, ?_, fun hdec => by rw [hz, hopen hdec]⟩
    rw [hyb] at hw
    rw [hval, ← Option.some.inj hw]
  have hdec : ∀ s ∈ statesOf n nar,
      (s ∈ openStates op n left' ↔ Model.decided? op (decide (s ∈ left')) = none) := fun s hs =>
    decided?_eq_none hop decide_eq_true_iff.symm (by
      rw [StateSet.mem_complement, StateSet.index_of_lt hn]
      exact and_iff_right (hd.nar_lt s hs))
  have htype : rv'.type = .bool := by
    rw [hcov.type]
    cases hempty : (narrow (openStates op n left') nar).isEmpty with
    | true => exact if_pos rfl
    | false =>
      obtain ⟨s, hs⟩ := StateSet.isEmpty_eq_false_iff.mp hempty
      obtain ⟨hopen, hsn⟩ := (mem_narrow_iff (openStates_lt hlt')).mp hs
      obtain ⟨b, -, hb⟩ := hentry s hsn
      rw [if_neg Bool.false_ne_true]
      exact (type_of_valueAt (hb ((hdec s hsn).mp hopen))).symm
  obtain ⟨right, hright⟩ := satisfaction_of_type htype
  refine ⟨right, hright, hspec.type, fun s hs => ?_⟩
  have hlt := hd.nar_lt s hs
  have hlimit := Nat.lt_trans hlt hn
  have hcompl : s ∈ left'.complement n ↔ s ∉ left' := by
    rw [StateSet.mem_complement, StateSet.index_of_lt hn]
    exact and_iff_right hlt
  have hconnect : decide (s ∈ connect op n left' right) =
      (Model.decided? op (decide (s ∈ left'))).getD (decide (s ∈ right)) := by
    rw [Bool.eq_iff_iff, decide_eq_true_iff]
    exact mem_connect right hop decide_eq_true_iff.symm hcompl
  obtain ⟨b, hval, hb⟩ := hentry s hs
  rw [hval, valueAt_ofSet hlt, StateSet.contains_eq_decide hlimit, hconnect]
  cases hopen : Model.decided? op (decide (s ∈ left')) with
  | some d => simp
  | none =>
    have hmem := (mem_narrow_iff (openStates_lt hlt')).mpr ⟨(hdec s hs).mpr hopen, hs⟩
    have hvalue := (hcov.entry s hmem).symm.trans (hb hopen)
    rw [valueAt_of_satisfaction hright (hrv'.1 ▸ hlt), StateSet.contains_eq_decide hlimit] at hvalue
    rw [Value.bool.inj (Except.ok.inj hvalue)]

/-- Connectives whose operands were both evaluated over the whole domain. -/
theorem lazy_simulates_everywhere (h : c.Compares m m') (hop : op.isLazy = true)
    (hl : Simulates .everywhere c m m' entered l entered' l')
    (hr : Simulates .everywhere c m m' entered r entered' r') :
    Simulates .everywhere c m m' entered (.binary op l r) entered' (.binary op l' r') := by
  have hresult : op.resultType l.type r.type = .bool := by cases op <;> simp [BinaryOp.isLazy] at hop <;> rfl
  intro wide nar hd hne
  rw [evalWith_strict .everywhere c m entered wide (by simp), evalWith_lazy c m' entered' nar hop, h.size, hresult]
  unfold satisfying satisfyingOver
  simp only [bind_assoc]
  refine (hl wide nar hd hne).bind (evalWith_real h.solver h.inRange wide)
    (evalWith_real h.solver h.inRange' nar) fun lv lv' hlv hlv' hlvs => ?_
  rw [h.size] at hlv'
  -- That the left operand has truth values shows only when the two are combined.
  refine Follows.assume fun run out hout => ?_
  obtain ⟨rv, hrv, hout⟩ := outcome_bind_eq_ok.mp hout
  rw [outcome_ofEval_eq_ok, map2_eq hlv.plain (plain_of_outcome h.solver hrv)] at hout
  obtain ⟨s, hs⟩ := hne rfl
  obtain ⟨y, hy⟩ := exists_value_of_tabulate h.small hs hout
  obtain ⟨x, hx, hy⟩ := Yields.bind_eq_ok.mp hy
  obtain ⟨z, -, hy⟩ := Yields.bind_eq_ok.mp hy
  obtain ⟨b, rfl⟩ := applyBinary_left hop hy
  obtain ⟨left, hleft⟩ := satisfaction_of_valueAt hx
  obtain ⟨left', hleft'⟩ := satisfaction_of_type (hlvs.type.symm.trans (type_of_satisfaction hleft))
  have hagree := hlvs.mem_iff h.small hd.nar_lt hlv.plain hlv'.plain hleft hleft'
  have hlt' := hlv'.lt left' hleft'
  have hpart : Narrows m.numStates wide (some (narrow (openStates op m.numStates left') nar)) :=
    ⟨fun s hs => hd.sub s ((mem_narrow_iff (openStates_lt hlt')).mp hs).2, hd.lt⟩
  rw [hleft']
  refine (evalOver_follows_everywhere hr .bool hpart).bind (evalWith_real h.solver h.inRange _)
    (evalOver_real h.solver h.inRange' _ _) fun rv rv' hrv hrv' hcov => ?_
  rw [h.size] at hrv'
  intro _ _ out hout
  obtain ⟨right, hright, hmatch⟩ := lazyVector_follows hop h.small hd hlt' hagree hlv.plain hleft hrv.plain
    hrv'.plain hcov (outcome_ofEval_eq_ok.mp hout)
  rw [hright]
  exact ⟨_, rfl, hmatch⟩

theorem strict_simulates (h : c.Compares m m') (hop : ¬(st = .whereOpen ∧ op.isLazy = true))
    (hop' : op.isLazy = false) (htype : op.resultType l'.type r'.type = op.resultType l.type r.type)
    (hl : Simulates st c m m' entered l entered' l') (hr : Simulates st c m m' entered r entered' r') :
    Simulates st c m m' entered (.binary op l r) entered' (.binary op l' r') := by
  intro wide nar hd hne
  rw [evalWith_strict st c m entered wide hop, evalWith_strict .whereOpen c m' entered' nar (by simp [hop']), htype]
  refine (hl wide nar hd hne).bind (evalWith_real h.solver h.inRange wide)
    (evalWith_real h.solver h.inRange' nar) fun lv lv' hlv hlv' hlvs => ?_
  refine (hr wide nar hd hne).bind (evalWith_real h.solver h.inRange wide)
    (evalWith_real h.solver h.inRange' nar) fun rv rv' hrv hrv' hrvs => Follows.ofEval fun out hout => ?_
  rw [h.size] at hlv' hrv'
  exact map2_follows h.small hd hlv.plain hlv'.plain hrv.plain hrv'.plain hlvs hrvs hout

theorem binary_simulates (h : c.Compares m m')
    (htype : op.resultType l'.type r'.type = op.resultType l.type r.type)
    (hl : Simulates st c m m' entered l entered' l') (hr : Simulates st c m m' entered r entered' r') :
    Simulates st c m m' entered (.binary op l r) entered' (.binary op l' r') := by
  cases hop : op.isLazy with
  | false => exact strict_simulates h (by simp [hop]) hop htype hl hr
  | true =>
    cases st with
    | whereOpen => exact lazy_simulates_whereOpen h hop hl hr
    | everywhere => exact lazy_simulates_everywhere h hop hl hr

end

/-! ## Functions -/

section

variable {e e' : Expr}

theorem unary_simulates (h : c.Compares m m') {op : UnaryOp} (htype : e'.type = e.type)
    (he : Simulates st c m m' entered e entered' e') :
    Simulates st c m m' entered (.unary op e) entered' (.unary op e') := by
  intro wide nar hd hne
  by_cases hop : op = .parenth
  · rw [hop, evalWith_parenth, evalWith_parenth]
    exact he wide nar hd hne
  · rw [evalWith_unary st c m entered wide hop, evalWith_unary .whereOpen c m' entered' nar hop, htype]
    refine (he wide nar hd hne).bind (evalWith_real h.solver h.inRange wide)
      (evalWith_real h.solver h.inRange' nar) fun v w hv hw hvw => Follows.ofEval fun out hout => ?_
    rw [h.size] at hw
    exact map1_follows h.small hd hv.plain hw.plain hvw hout

/-- Arguments in their order, each followed by its counterpart. -/
abbrev SimulatesAll (st : Strategy) (c : Checker) (m m' : Model) (entered : Entered) (args : List Expr)
    (entered' : Entered) (args' : List Expr) : Prop :=
  List.Forall₂ (fun a a' => Simulates st c m m' entered a entered' a') args args'

theorem combineArgs_follows (h : c.Compares m m') {f : Function} {t : ValueType} {args args' : List Expr}
    (hargs : SimulatesAll st c m m' entered args entered' args') (hd : Narrows m.numStates wide nar)
    (hne : st = .everywhere → ∃ s, s ∈ statesOf m.numStates wide) {acc acc' : StateVector}
    (hacc : acc.IsPlain m.numStates) (hacc' : acc'.IsPlain m.numStates) (hmatch : Matches m.numStates nar acc acc') :
    Follows (combineArgs st c m entered f t acc args wide) (combineArgs .whereOpen c m' entered' f t acc' args' nar)
      (Matches m.numStates nar) := by
  induction hargs generalizing acc acc' with
  | nil =>
    rw [combineArgs_nil, combineArgs_nil]
    exact Follows.pure hmatch
  | cons ha hrest ih =>
    rw [combineArgs_cons, combineArgs_cons]
    refine (ha wide nar hd hne).bind (evalWith_real h.solver h.inRange wide)
      (evalWith_real h.solver h.inRange' nar) fun v w hv hw hvw => ?_
    rw [h.size] at hw
    refine Follows.next (R := fun o o' => o.IsPlain m.numStates ∧ o'.IsPlain m.numStates ∧
      Matches m.numStates nar o o') (Follows.ofEval fun o ho => ?_) fun o o' hoo => ?_
    · obtain ⟨o', ho', hoo⟩ := map2_follows h.small hd hacc hacc' hv.plain hw.plain hmatch hvw ho
      rw [map2_eq hacc hv.plain] at ho
      have hplain' := ho'
      rw [map2_eq hacc' hw.plain] at hplain'
      exact ⟨o', ho', (tabulate_spec ho).plain, (tabulate_spec hplain').plain, hoo⟩
    · exact ih hoo.1 hoo.2.1 hoo.2.2

/-- What fails need not be followed. -/
theorem Simulates.throw {err : CheckError} (he : ∀ domain, evalWith st c m entered e domain = throw err) :
    Simulates st c m m' entered e entered' e' := by
  intro wide nar _ _
  rw [he]
  exact Follows.throw err _

theorem call_simulates (h : c.Compares m m') {f : Function} {args args' : List Expr}
    (htypes : Expr.types args' = Expr.types args) (hargs : SimulatesAll st c m m' entered args entered' args') :
    Simulates st c m m' entered (.call f args) entered' (.call f args') := by
  by_cases hmulti : f = .multi
  · rw [hmulti]
    exact Simulates.throw fun domain => evalWith_multi_unsolved st c m entered domain h.solver args
  · cases haccepts : f.accepts args.length with
    | false => exact Simulates.throw fun domain => evalWith_wrongArity st c m entered domain hmulti haccepts
    | true =>
      intro wide nar hd hne
      rcases Function.accepts_cases haccepts with ⟨hf, a, b, rest, rfl⟩ | ⟨hf, a, rfl⟩ | ⟨hf, a, b, rfl⟩
      · obtain _ | ⟨ha, _ | ⟨hb, hrest⟩⟩ := hargs
        rw [evalWith_extremum st c m entered wide hf, evalWith_extremum .whereOpen c m' entered' nar hf, htypes]
        refine (ha wide nar hd hne).bind (evalWith_real h.solver h.inRange wide)
          (evalWith_real h.solver h.inRange' nar) fun v w hv hw hvw => ?_
        rw [h.size] at hw
        exact combineArgs_follows h (.cons hb hrest) hd hne hv.plain hw.plain hvw
      · obtain _ | ⟨ha, ⟨⟩⟩ := hargs
        have htype : f.resultType (Expr.types [_]) = f.resultType (Expr.types [a]) := congrArg _ htypes
        rw [evalWith_rounding st c m entered wide hf, evalWith_rounding .whereOpen c m' entered' nar hf]
        refine (ha wide nar hd hne).bind (evalWith_real h.solver h.inRange wide)
          (evalWith_real h.solver h.inRange' nar) fun v w hv hw hvw => Follows.ofEval fun out hout => ?_
        rw [h.size] at hw
        obtain ⟨o, ho, hmatch⟩ := map1_follows h.small hd hv.plain hw.plain hvw hout
        exact ⟨o, htype ▸ ho, hmatch⟩
      · obtain _ | ⟨ha, _ | ⟨hb, ⟨⟩⟩⟩ := hargs
        have htype : f.resultType (Expr.types [_, _]) = f.resultType (Expr.types [a, b]) := congrArg _ htypes
        rw [evalWith_dyadic st c m entered wide hf, evalWith_dyadic .whereOpen c m' entered' nar hf]
        refine (ha wide nar hd hne).bind (evalWith_real h.solver h.inRange wide)
          (evalWith_real h.solver h.inRange' nar) fun v w hv hw hvw => ?_
        refine (hb wide nar hd hne).bind (evalWith_real h.solver h.inRange wide)
          (evalWith_real h.solver h.inRange' nar) fun v' w' hv' hw' hvw' => Follows.ofEval fun out hout => ?_
        rw [h.size] at hw hw'
        obtain ⟨o, ho, hmatch⟩ := map2_follows h.small hd hv.plain hw.plain hv'.plain hw'.plain hvw hvw' hout
        exact ⟨o, htype ▸ ho, hmatch⟩

end

/-! ## Filters -/

section

variable {f f' : Filter} {e e' : Expr} {states : StateSet}

theorem select_follows (hop : f'.op = f.op) (states : StateSet) :
    Follows (f.select m states) (f'.select m' states) fun s s' => s = f.selectionOf m states ∧
      f.CanSelect m states ∧ s' = f'.selectionOf m' states ∧ s'.states = s.states := by
  have hstates : (f'.selectionOf m' states).states = (f.selectionOf m states).states := by
    unfold Filter.selectionOf
    simp only [hop]
  intro r r' s hs
  obtain ⟨rfl, hcan⟩ := (f.select_delivers m states).spec r s hs
  have hcan' : f'.CanSelect m' states := ⟨hcan.1, fun hstate => by
    rw [hstates]
    exact hcan.2 (hop.symm.trans hstate)⟩
  exact ⟨_, f'.select_succeeds m' hcan' r', rfl, hcan, rfl, hstates⟩

/-- Filters over the same states, with operands that agree over them, yield reports that agree. -/
theorem reduceOver_follows (h : c.Compares m m') (hop : f'.op = f.op)
    (he : Simulates st c m m' entered e entered' e') (hstates : ∀ s ∈ states, s < m.numStates) :
    Follows (reduceOver st c m entered f e states) (reduceOver .whereOpen c m' entered' f' e' states)
      (Filter.ReportsAlike m.numStates (f.comparable (f.selectionOf m states)) (f.selectionOf m states)
        (f'.selectionOf m' states)) := by
  unfold reduceOver
  refine Follows.next (select_follows hop states) ?_
  rintro s s' ⟨rfl, hcan, rfl, hsame⟩
  obtain ⟨hsub, hsome⟩ := f.selectionOf_states m hcan
  have hlt : ∀ i ∈ (f.selectionOf m states).states, i < m.numStates := fun i hi => hstates i (hsub i hi)
  rw [hsame]
  have hd : Narrows m.numStates (some (f.selectionOf m states).states) (some (f.selectionOf m states).states) :=
    Narrows.refl hlt
  refine (he _ _ hd fun _ => hsome).bind (evalWith_real h.solver h.inRange _)
    (evalWith_real h.solver h.inRange' _) fun v w hv hw hvw => ?_
  rw [h.size] at hw
  exact Filter.reduce_follows h.small rfl h.size hop ⟨hsame, hlt, hv.plain, hw.plain, hvw⟩

/-- And so do their vectors. -/
theorem applyFilter_follows (h : c.Compares m m') (hop : f'.op = f.op)
    (he : Simulates st c m m' entered e entered' e') (hstates : ∀ s ∈ states, s < m.numStates) :
    Follows (applyFilter st c m entered f e states) (applyFilter .whereOpen c m' entered' f' e' states)
      (Matches m.numStates (f.comparable (f.selectionOf m states))) := by
  rw [applyFilter_eq, applyFilter_eq]
  refine (reduceOver_follows h hop he hstates).next fun reduced reduced' hreduced _ _ v hv => ?_
  cases hv
  exact ⟨_, rfl, hreduced.vector⟩

/-- All states are selected without a selector. -/
theorem selected_none_follows (h : c.Compares m m') :
    Follows (selected st c m entered none) (selected .whereOpen c m' entered' none) fun a b => b = a := by
  show Follows (pure (StateSet.full m.numStates)) (pure (StateSet.full m'.numStates)) _
  rw [h.size]
  exact Follows.pure rfl

theorem selected_some_follows (h : c.Compares m m') (hpos : st = .everywhere → 0 < m.numStates) {p p' : Expr}
    (hp : Simulates st c m m' entered p entered' p') :
    Follows (selected st c m entered (some p)) (selected .whereOpen c m' entered' (some p')) fun a b => b = a := by
  have hne : st = .everywhere → ∃ s, s ∈ statesOf m.numStates none := fun hst =>
    ⟨0, List.mem_range.mpr (hpos hst)⟩
  intro r r' a ha
  obtain ⟨b, hb, hab⟩ := satisfying_follows h hp (Narrows.all _) hne r r' a ha
  have hlt := (satisfying_real h.solver h.inRange none).spec r a ha
  have hlt' := (satisfying_real h.solver h.inRange' none).spec r' b hb
  rw [h.size] at hlt'
  refine ⟨b, hb, StateSet.ext fun s => ⟨fun hs => ?_, fun hs => ?_⟩⟩
  · exact (hab s (List.mem_range.mpr (hlt' s hs))).mpr hs
  · exact (hab s (List.mem_range.mpr (hlt s hs))).mp hs

theorem selected_follows (h : c.Compares m m') (hpos : st = .everywhere → 0 < m.numStates) {p : Option Expr}
    (hp : ∀ q ∈ p, Simulates st c m m' entered q entered' q) :
    Follows (selected st c m entered p) (selected .whereOpen c m' entered' p) fun a b => b = a := by
  cases p with
  | none => exact selected_none_follows h
  | some p => exact selected_some_follows h hpos (hp p rfl)

theorem selected_real (hc : c.solver = none) (hm : m.LabelsInRange) (p : Option Expr) :
    Delivers (selected st c m entered p) fun a =>
      (∀ s ∈ a, s < m.numStates) ∧ (p = none → a = .full m.numStates) := by
  cases p with
  | none => exact Delivers.pure ⟨fun s hs => mem_full_lt hs, fun _ => rfl⟩
  | some p => exact (satisfying_real hc hm none).mono fun a ha => ⟨ha, fun hp => by cases hp⟩

/-- Filters agree in all states if they select the same states. A filter that passes the vector of its operand on
has to select all states for that. -/
theorem filter_simulates (h : c.Compares m m') {op : FilterOp} {p p' : Option Expr}
    {invisible explained invisible' explained' : Bool} (hkeep : op.keepsVector = true → p = none)
    (hselected : (st = .everywhere → 0 < m.numStates) →
      Follows (selected st c m entered p) (selected .whereOpen c m' entered' p') fun a b => b = a)
    (he : Simulates st c m m' entered e entered' e') :
    Simulates st c m m' entered (.filter op e p invisible explained) entered'
      (.filter op e' p' invisible' explained') := by
  intro wide nar hd hne
  have hpos : st = .everywhere → 0 < m.numStates := fun hst => by
    obtain ⟨s, hs⟩ := hne hst
    exact Nat.lt_of_le_of_lt (Nat.zero_le s) (hd.lt s hs)
  rw [evalWith_filter, evalWith_filter]
  refine (hselected hpos).bind (selected_real h.solver h.inRange p) (selected_real h.solver h.inRange' p') ?_
  rintro states _ ⟨hlt, hall⟩ - rfl
  have hop : (Filter.mk op p' invisible' explained').op = (Filter.mk op p invisible explained).op := rfl
  refine (applyFilter_follows h hop he hlt).mono fun v w hvw => hvw.mono fun s hs => ?_
  have hmem : s ∈ statesOf m.numStates none := List.mem_range.mpr (hd.nar_lt s hs)
  unfold Filter.comparable Filter.selectionOf
  cases hop : op.keepsVector with
  | false => exact hmem
  | true =>
    have hfirst : op ≠ .first := fun hfirst => by
      rw [hfirst] at hop
      cases hop
    rw [if_pos rfl, if_neg hfirst, hall (hkeep hop), statesOf_full h.small]
    exact hmem

end

/-! ## References and constants -/

section

variable {e e' : Expr} {x : Check StateVector}

/-- What both evaluations compute without looking at the domain. -/
theorem Simulates.fixed (hx : Steady x) (he : ∀ domain, evalWith st c m entered e domain = x)
    (he' : ∀ domain, evalWith .whereOpen c m' entered' e' domain = x) :
    Simulates st c m m' entered e entered' e' := by
  intro wide nar _ _
  rw [he, he']
  exact (Follows.refl hx).mono fun v w hvw => by
    rw [hvw]
    exact Matches.refl v

theorem literal_simulates (h : c.Compares m m') (v : Value) :
    Simulates st c m m' entered (.literal v) entered' (.literal v) := by
  refine Simulates.fixed (x := pure (.constant v m.numStates)) (fun _ _ => rfl)
    (fun domain => evalWith_literal st c m entered domain v) fun domain => ?_
  rw [evalWith_literal, h.size]

theorem constant_simulates (h : c.Compares m m') (name : String) (t : ValueType) :
    Simulates st c m m' entered (.constant name t) entered' (.constant name t) := by
  refine Simulates.fixed (constantVector_delivers c m name t).steady
    (fun domain => evalWith_constant st c m entered domain name t) fun domain => ?_
  rw [evalWith_constant]
  unfold constantVector
  rw [h.size]

theorem lookupVector_follows (h : c.Compares m m') (hd : Narrows m.numStates wide nar) (name : String) (t : ValueType)
    {value? value?' : Nat → Option Value} (hvalue : value?' = value?) :
    Follows (lookupVector m name t wide value?) (lookupVector m' name t nar value?') (Matches m.numStates nar) := by
  unfold lookupVector
  rw [h.size, hvalue]
  exact Follows.ofExcept fun out hout => tabulate_follows h.small hd (fun _ _ _ hy => hy) hout

theorem var_simulates (h : c.Compares m m') (name : String) (index : UInt64) (t : ValueType) :
    Simulates st c m m' entered (.var name index t) entered' (.var name index t) := by
  intro wide nar hd _
  rw [evalWith_var, evalWith_var]
  refine lookupVector_follows h hd name t ?_
  obtain ⟨labels, rfl⟩ := h.relabelled
  rfl

theorem observable_simulates (h : c.Compares m m') (name : String) (t : ValueType) :
    Simulates st c m m' entered (.observable name t) entered' (.observable name t) := by
  have hkind : m'.kind = m.kind := by
    obtain ⟨labels, rfl⟩ := h.relabelled
    rfl
  have hvalue : ∀ index, (fun s => m'.observation? s index) = fun s => m.observation? s index := by
    obtain ⟨labels, rfl⟩ := h.relabelled
    exact fun _ => rfl
  intro wide nar hd _
  rw [evalWith_observable, evalWith_observable]
  unfold observableVector
  cases c.definitions.observableIndex? name with
  | none => exact Follows.throw _ _
  | some index =>
    rw [hkind]
    by_cases hobs : m.kind.isPartiallyObservable = true
    · simp only [hobs, if_true]
      exact lookupVector_follows h hd name t (hvalue index)
    · simp only [hobs]
      exact Follows.throw _ _

end

/-! ## Every expression -/

/-- Evaluating an expression over a part of a domain, each operand where it matters, succeeds if evaluating it over
the domain does, with the same type and the same entries in the part. If operands were evaluated everywhere, the
filters that pass the vector of their operand on have to select all states. -/
theorem evalWith_simulates (h : c.Compares m m) (hdef : st = .everywhere → c.definitions.Throughout Expr.KeepsWhole)
    (entered : Entered) (e : Expr) (he : st = .everywhere → e.Throughout Expr.KeepsWhole) :
    Simulates st c m m entered e entered e := by
  -- A reference has fewer definitions left to enter, any other operand is smaller.
  match e with
  | .ite cond t e =>
    exact ite_simulates h rfl
      (evalWith_simulates h hdef entered cond fun hst => (he hst).child (by simp [Expr.children]))
      (evalWith_simulates h hdef entered t fun hst => (he hst).child (by simp [Expr.children]))
      (evalWith_simulates h hdef entered e fun hst => (he hst).child (by simp [Expr.children]))
  | .binary op l r =>
    exact binary_simulates h rfl
      (evalWith_simulates h hdef entered l fun hst => (he hst).child (by simp [Expr.children]))
      (evalWith_simulates h hdef entered r fun hst => (he hst).child (by simp [Expr.children]))
  | .unary op e =>
    exact unary_simulates h rfl
      (evalWith_simulates h hdef entered e fun hst => (he hst).child (by simp [Expr.children]))
  | .call f args =>
    refine call_simulates h rfl (List.forall₂_same.mpr fun a ha => ?_)
    exact evalWith_simulates h hdef entered a fun hst => (he hst).child ha
  | .filter op e p invisible explained =>
    cases hst : decide (st = .everywhere) with
    | false =>
      -- Both computations are the same.
      have hst : st = .whereOpen := by
        cases st with
        | whereOpen => rfl
        | everywhere => cases hst
      rw [hst]
      refine Simulates.fixed ?_ (fun domain => evalWith_filter .whereOpen c m entered domain op e p invisible explained)
        fun domain => evalWith_filter .whereOpen c m entered domain op e p invisible explained
      rw [← evalWith_filter .whereOpen c m entered none]
      exact (evalWith_delivers .whereOpen c m h.solver entered _ none).steady
    | true =>
      have hst : st = .everywhere := of_decide_eq_true hst
      have hoperand := evalWith_simulates h hdef entered e fun hst => (he hst).child (by simp [Expr.children])
      refine filter_simulates h (he hst).self (fun hpos => selected_follows h hpos fun q hq => ?_) hoperand
      exact evalWith_simulates h hdef entered q fun hst =>
        (he hst).child (List.mem_cons_of_mem e (Option.mem_toList.mpr hq))
  | .literal v => exact literal_simulates h v
  | .constant name t => exact constant_simulates h name t
  | .ident name t => exact Simulates.throw fun domain => evalWith_ident st c m entered domain name t
  | .formula name (some d) t =>
    intro wide nar hd hne
    rw [evalWith_expanded, evalWith_expanded]
    exact evalWith_simulates h hdef entered d (fun hst => (he hst).child (by simp [Expr.children])) wide nar hd hne
  | .formula name none t => exact Simulates.throw fun domain => evalWith_unexpanded st c m entered domain name t
  | .var name index t => exact var_simulates h name index t
  | .observable name t => exact observable_simulates h name t
  | .label name =>
    rcases evalWith_label_cases c m entered name with ⟨states, hstates, hl⟩ | hl | hl | ⟨body, hb, hlt, hl⟩
    · exact Simulates.fixed (fun _ _ => rfl) (hl st) (hl .whereOpen)
    · exact Simulates.fixed (builtinLabel_delivers m name).steady (hl st) (hl .whereOpen)
    · exact Simulates.throw (hl st)
    · intro wide nar hd hne
      rw [hl, hl]
      exact evalWith_simulates h hdef (entered.label name) body (fun hst => (hdef hst).label hb) wide nar hd hne
  | .property name t =>
    rcases evalWith_property_cases c m entered name t with ⟨err, hp⟩ | ⟨body, hb, hlt, hp⟩
    · exact Simulates.throw (hp st)
    · intro wide nar hd hne
      rw [hp, hp]
      exact Follows.message
        (evalWith_simulates h hdef (entered.property name) body (fun hst => (hdef hst).property hb) wide nar hd hne)
  | .quant measure query operand =>
    exact Simulates.throw fun domain => evalWith_quant st c m entered domain h.solver measure query operand
  | .path op operands bound => exact Simulates.throw fun domain => evalWith_path st c m entered domain op operands bound
termination_by (c.definitions.remaining entered, sizeOf e)

/-- Where operands are evaluated only where they matter, this holds of every expression. -/
theorem evalWith_follows (h : c.Compares m m) (entered : Entered) (e : Expr) (hd : Narrows m.numStates wide nar) :
    Follows (evalWith .whereOpen c m entered e wide) (evalWith .whereOpen c m entered e nar)
      (Matches m.numStates nar) :=
  evalWith_simulates h (fun hst => by cases hst) entered e (fun hst => by cases hst) wide nar hd
    fun hst => by cases hst

/-! ## Checking -/

/-- Checking an expression is evaluating it from a fresh start. -/
theorem outcome_checkExpression (e : Expr) (domain : Option StateSet) (r : Run) :
    outcome (c.checkExpression m e domain) r =
      outcome (evalWith .whereOpen c m .none e domain) (after (restart c.definitions.parameters) r) :=
  outcome_bind_ok (outcome_restart _ r)

/-- Evaluating operands only where they matter never changes a result: if the evaluation of all operands over the
whole domain succeeds, so does checking the expression over the domain, with the same entries in its states. -/
theorem checkExpression_of_everywhere (c : Checker) (m : Model) (hn : m.numStates < stateLimit) (hm : m.LabelsInRange)
    (hc : c.solver = none) (hdef : c.definitions.Throughout Expr.KeepsWhole) (e : Expr)
    (he : e.Throughout Expr.KeepsWhole) (domain : Option StateSet) (hne : ∃ s, s ∈ statesOf m.numStates domain)
    (hlt : ∀ s ∈ statesOf m.numStates domain, s < m.numStates) (r r' : Run) (v : StateVector)
    (hv : outcome (c.evalWith .everywhere m .none e domain) r = .ok v) :
    ∃ w, outcome (c.checkExpression m e domain) r' = .ok w ∧
      ∀ s ∈ statesOf m.numStates domain, ∃ y, v.valueAt s = .ok y ∧ w.valueAt s = .ok y := by
  have hsim : Simulates .everywhere c m m .none e .none e :=
    evalWith_simulates (Compares.refl hc hn hm) (fun _ => hdef) .none e fun _ => he
  have hplain := plain_of_outcome hc hv
  rw [outcome_checkExpression]
  obtain ⟨w, hw, hmatch⟩ := hsim domain domain (Narrows.refl hlt) (fun _ => hne) r _ v hv
  refine ⟨w, hw, fun s hs => ?_⟩
  obtain ⟨y, hy⟩ := hplain.valueAt (hlt s hs)
  exact ⟨y, hy, by rw [← hmatch.entry s hs, hy]⟩

end Checker

/-- `x = 0 ? 7 : x`, where each branch matters in one of two states. -/
def Expr.pickSeven : Expr :=
  .ite (.binary .eq (.var "x" 0 .int) (.literal (.int 0))) (.literal (.int 7)) (.var "x" 0 .int)

theorem Checker.checkExpression_of_everywhere_pickSeven :
    ∃ w, outcome (bare.checkExpression .twoStates .pickSeven none) .start = .ok w ∧
      ∀ s ∈ statesOf Model.twoStates.numStates none, ∃ y,
        StateVector.valueAt ⟨.ints #[7, 1], none⟩ s = .ok y ∧ w.valueAt s = .ok y := by
  have hv : outcome (bare.evalWith .everywhere .twoStates .none .pickSeven none) .start =
      .ok ⟨.ints #[7, 1], none⟩ := by
    unfold Expr.pickSeven
    rw [evalWith_ite_everywhere, evalWith_strict .everywhere _ _ _ _ (by decide), evalWith_var, evalWith_literal,
      evalWith_literal]
    rfl
  have hkeep : Expr.pickSeven.Throughout Expr.KeepsWhole := by
    simp [Expr.pickSeven, Expr.throughout_iff, Expr.children, Expr.KeepsWhole]
  exact checkExpression_of_everywhere bare .twoStates (by decide) Model.labelsInRange_twoStates rfl
    Definitions.throughout_empty _ hkeep none ⟨0, by decide⟩ (fun s hs => List.mem_range.mp hs) .start .start _ hv

end Statewise
