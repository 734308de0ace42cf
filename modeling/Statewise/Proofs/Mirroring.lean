import Statewise.Proofs.Extraction
import Statewise.Proofs.Reporting

/-!
# The same answers after extraction

Operators on answers leave the value of the last filter behind that was evaluated. Replacing state formulas in an
expression that is an answer by itself changes neither which of its filters are evaluated nor what they report: the
domains are the same where they matter, a filter records what it has reduced whatever its operand has left behind, and
a state formula contains no filter of its own.
-/

namespace Statewise

open Check StateVector

/-! ## Propositions -/

namespace Expr

mutual

theorem filters_of_isProposition {e : Expr} (he : e.isProposition = true) : e.filters = [] := by
  match e with
  | .ite cond t e =>
    simp only [isProposition, Bool.and_eq_true] at he
    simp only [filters, filters_of_isProposition he.1.1, filters_of_isProposition he.1.2,
      filters_of_isProposition he.2, List.append_nil]
  | .binary op l r =>
    simp only [isProposition, Bool.and_eq_true] at he
    simp only [filters, filters_of_isProposition he.1, filters_of_isProposition he.2, List.append_nil]
  | .unary op e => exact filters_of_isProposition (e := e) he
  | .call f args =>
    simp only [isProposition, Bool.and_eq_true] at he
    exact filtersOf_arePropositions he.2
  | .formula name (some d) t => exact filters_of_isProposition (e := d) he
  | .formula name none t => rfl
  | .literal _ | .constant .. | .ident .. | .var .. | .observable .. | .label _ => rfl

theorem filtersOf_arePropositions {es : List Expr} (hes : arePropositions es = true) : filtersOf es = [] := by
  match es with
  | [] => rfl
  | e :: es =>
    simp only [arePropositions, Bool.and_eq_true] at hes
    simp only [filtersOf, filters_of_isProposition hes.1, filtersOf_arePropositions hes.2, List.append_nil]

end

end Expr

/-! ## Computations that leave the same value behind -/

namespace Check

variable {α β γ δ : Type}

/-- If both computations succeed and the answers had the same value before, they have the same value afterwards. -/
def Mirrors (x : Check α) (y : Check β) : Prop :=
  ∀ r r' a b, outcome x r = .ok a → outcome y r' = .ok b → r'.answer.value = r.answer.value →
    (after y r').answer.value = (after x r).answer.value

namespace Mirrors

theorem of_keeps {x : Check α} {y : Check β} (hx : ∀ z, Checker.Keeps (fun answer => answer.value = z) x)
    (hy : ∀ z, Checker.Keeps (fun answer => answer.value = z) y) : Mirrors x y :=
  fun r r' a b ha hb h => (hy _ r' h b hb).trans (hx _ r rfl a ha).symm

theorem pure (a : α) (b : β) : Mirrors (Pure.pure a : Check α) (Pure.pure b) :=
  of_keeps (fun _ => .pure a) fun _ => .pure b

theorem ofEval (x : Except EvalError α) (y : Except EvalError β) : Mirrors (Check.ofEval x) (Check.ofEval y) :=
  of_keeps (fun _ => .ofEval x) fun _ => .ofEval y

/-- Sequences whose first parts yield related results. What is known of the results may be used. -/
theorem bind {x : Check α} {y : Check β} {f : α → Check γ} {g : β → Check δ} {R : α → β → Prop} {P : α → Prop}
    {Q : β → Prop} (hxy : Mirrors x y) (hfollows : Follows x y R) (hx : Delivers x P) (hy : Delivers y Q)
    (hf : ∀ a b, P a → Q b → R a b → Mirrors (f a) (g b)) : Mirrors (x >>= f) (y >>= g) := by
  intro r r' c d hc hd h
  obtain ⟨a, ha, hc⟩ := outcome_bind_eq_ok.mp hc
  obtain ⟨b, hb, hd⟩ := outcome_bind_eq_ok.mp hd
  obtain ⟨b', hb', hR⟩ := hfollows r r' a ha
  rw [hb] at hb'
  cases hb'
  rw [after_bind_ok ha, after_bind_ok hb]
  exact hf a b (hx.spec r a ha) (hy.spec r' b hb) hR _ _ c d hc hd (hxy r r' a b ha hb h)

/-- Sequences for which the results of the first parts do not matter. -/
theorem next {x : Check α} {y : Check β} {f : α → Check γ} {g : β → Check δ} (hxy : Mirrors x y)
    (hf : ∀ a b, Mirrors (f a) (g b)) : Mirrors (x >>= f) (y >>= g) := by
  intro r r' c d hc hd h
  obtain ⟨a, ha, hc⟩ := outcome_bind_eq_ok.mp hc
  obtain ⟨b, hb, hd⟩ := outcome_bind_eq_ok.mp hd
  rw [after_bind_ok ha, after_bind_ok hb]
  exact hf a b _ _ c d hc hd (hxy r r' a b ha hb h)

end Mirrors

end Check

namespace Checker

variable {c : Checker} {m m' : Model} {entered entered' : Entered} {domain : Option StateSet} {f : String → String}

/-! ## Operators on answers -/

/-- Over every domain of real states the two evaluations leave the same value behind. -/
def MirrorsOver (c : Checker) (m m' : Model) (entered : Entered) (e : Expr) (entered' : Entered) (e' : Expr) : Prop :=
  ∀ domain, (∀ s ∈ statesOf m.numStates domain, s < m.numStates) →
    Mirrors (evalWith .whereOpen c m entered e domain) (evalWith .whereOpen c m' entered' e' domain)

/-- Sets of real states that agree on a domain are narrowed to the same set. -/
theorem narrow_congr {a b : StateSet} {n : Nat} (ha : ∀ s ∈ a, s < n) (hb : ∀ s ∈ b, s < n)
    (hab : ∀ s ∈ statesOf n domain, s ∈ a ↔ s ∈ b) : narrow a domain = narrow b domain := by
  refine StateSet.ext fun s => ?_
  rw [mem_narrow_iff ha, mem_narrow_iff hb]
  exact and_congr_left (hab s)

section

variable {e e' l l' r r' cond cond' t t' : Expr}

theorem satisfying_mirrors (he : MirrorsOver c m m' entered e entered' e')
    (hd : ∀ s ∈ statesOf m.numStates domain, s < m.numStates) :
    Mirrors (satisfying .whereOpen c m entered domain e) (satisfying .whereOpen c m' entered' domain e') :=
  (he domain hd).next fun _ _ => .ofEval _ _

theorem evalOver_mirrors (he : MirrorsOver c m m' entered e entered' e') (type type' : ValueType) {states : StateSet}
    (hstates : ∀ s ∈ states, s < m.numStates) :
    Mirrors (evalOver c m entered e type states) (evalOver c m' entered' e' type' states) := by
  unfold evalOver
  cases hempty : states.isEmpty with
  | true =>
    rw [if_pos rfl, if_pos rfl]
    exact .pure _ _
  | false =>
    rw [if_neg Bool.false_ne_true, if_neg Bool.false_ne_true]
    exact he (some states) hstates

theorem narrow_real {a : StateSet} {n : Nat} (ha : ∀ s ∈ a, s < n) : ∀ s ∈ narrow a domain, s < n :=
  fun s hs => ha s ((mem_narrow_iff ha).mp hs).1

/-- The branches are evaluated over the same states. -/
theorem ite_mirrors (h : c.Compares m m') (hsim : Simulates .whereOpen c m m' entered cond entered' cond')
    (hcond : MirrorsOver c m m' entered cond entered' cond') (ht : MirrorsOver c m m' entered t entered' t')
    (he : MirrorsOver c m m' entered e entered' e') :
    MirrorsOver c m m' entered (.ite cond t e) entered' (.ite cond' t' e') := by
  intro domain hd
  rw [evalWith_ite, evalWith_ite]
  refine (satisfying_mirrors hcond hd).bind (satisfying_follows h hsim (Narrows.refl hd) fun hst => by cases hst)
    (satisfying_real h.solver h.inRange domain) (satisfying_real h.solver h.inRange' domain) fun a b ha hb hab => ?_
  rw [h.size] at hb ⊢
  have hcompl : ∀ s ∈ statesOf m.numStates domain, s ∈ a.complement m.numStates ↔ s ∈ b.complement m.numStates :=
    fun s hs => complement_congr (hab s hs)
  rw [narrow_congr ha hb hab, narrow_congr (complement_lt a) (complement_lt b) hcompl]
  refine (evalOver_mirrors ht _ _ (narrow_real hb)).next fun tv tv' => ?_
  exact (evalOver_mirrors he _ _ (narrow_real (complement_lt b))).next fun ev ev' => .ofEval _ _

/-- And so is the right operand of a connective. -/
theorem lazy_mirrors (h : c.Compares m m') {op : BinaryOp} (hop : op.isLazy = true)
    (hsim : Simulates .whereOpen c m m' entered l entered' l') (hl : MirrorsOver c m m' entered l entered' l')
    (hr : MirrorsOver c m m' entered r entered' r') :
    MirrorsOver c m m' entered (.binary op l r) entered' (.binary op l' r') := by
  intro domain hd
  rw [evalWith_lazy c m entered domain hop, evalWith_lazy c m' entered' domain hop]
  refine (satisfying_mirrors hl hd).bind (satisfying_follows h hsim (Narrows.refl hd) fun hst => by cases hst)
    (satisfying_real h.solver h.inRange domain) (satisfying_real h.solver h.inRange' domain) fun a b ha hb hab => ?_
  rw [h.size] at hb ⊢
  have hopen : ∀ s ∈ statesOf m.numStates domain, s ∈ openStates op m.numStates a ↔ s ∈ openStates op m.numStates b :=
    fun s hs => openStates_congr (hab s hs)
  rw [narrow_congr (openStates_lt ha) (openStates_lt hb) hopen]
  refine Mirrors.next ?_ fun right right' => .pure _ _
  exact (evalOver_mirrors hr _ _ (narrow_real (openStates_lt hb))).next fun rv rv' => .ofEval _ _

theorem binary_mirrors (h : c.Compares m m') {op : BinaryOp}
    (hsim : Simulates .whereOpen c m m' entered l entered' l') (hl : MirrorsOver c m m' entered l entered' l')
    (hr : MirrorsOver c m m' entered r entered' r') :
    MirrorsOver c m m' entered (.binary op l r) entered' (.binary op l' r') := by
  by_cases hop : op.isLazy = true
  · exact lazy_mirrors h hop hsim hl hr
  · intro domain hd
    rw [evalWith_strict .whereOpen c m entered domain fun h => hop h.2,
      evalWith_strict .whereOpen c m' entered' domain fun h => hop h.2]
    exact (hl domain hd).next fun lv lv' => (hr domain hd).next fun rv rv' => .ofEval _ _

theorem unary_mirrors {op : UnaryOp} (he : MirrorsOver c m m' entered e entered' e') :
    MirrorsOver c m m' entered (.unary op e) entered' (.unary op e') := by
  intro domain hd
  by_cases hop : op = .parenth
  · rw [hop, evalWith_parenth, evalWith_parenth]
    exact he domain hd
  · rw [evalWith_unary .whereOpen c m entered domain hop, evalWith_unary .whereOpen c m' entered' domain hop]
    exact (he domain hd).next fun v v' => .ofEval _ _

/-- Arguments in their order, each mirrored by its counterpart. -/
abbrev MirrorsAll (c : Checker) (m m' : Model) (entered : Entered) (args : List Expr) (entered' : Entered)
    (args' : List Expr) : Prop :=
  List.Forall₂ (fun a a' => MirrorsOver c m m' entered a entered' a') args args'

theorem combineArgs_mirrors {g : Function} {type type' : ValueType} {args args' : List Expr} {acc acc' : StateVector}
    (hargs : MirrorsAll c m m' entered args entered' args')
    (hd : ∀ s ∈ statesOf m.numStates domain, s < m.numStates) :
    Mirrors (combineArgs .whereOpen c m entered g type acc args domain)
      (combineArgs .whereOpen c m' entered' g type' acc' args' domain) := by
  induction hargs generalizing acc acc' with
  | nil =>
    rw [combineArgs_nil, combineArgs_nil]
    exact .pure _ _
  | cons ha _ ih =>
    rw [combineArgs_cons, combineArgs_cons]
    exact (ha domain hd).next fun v v' => (Mirrors.ofEval _ _).next fun _ _ => ih

theorem call_mirrors {g : Function} {args args' : List Expr} (hmulti : g ≠ .multi)
    (hargs : MirrorsAll c m m' entered args entered' args') :
    MirrorsOver c m m' entered (.call g args) entered' (.call g args') := by
  intro domain hd
  cases haccepts : g.accepts args.length with
  | false =>
    intro r r' a b ha
    rw [evalWith_wrongArity .whereOpen c m entered domain hmulti haccepts] at ha
    cases ha
  | true =>
    rcases Function.accepts_cases haccepts with ⟨hg, a, b, rest, rfl⟩ | ⟨hg, a, rfl⟩ | ⟨hg, a, b, rfl⟩
    · obtain _ | ⟨ha, _ | ⟨hb, hrest⟩⟩ := hargs
      rw [evalWith_extremum .whereOpen c m entered domain hg, evalWith_extremum .whereOpen c m' entered' domain hg]
      exact (ha domain hd).next fun v v' => combineArgs_mirrors (.cons hb hrest) hd
    · obtain _ | ⟨ha, ⟨⟩⟩ := hargs
      rw [evalWith_rounding .whereOpen c m entered domain hg, evalWith_rounding .whereOpen c m' entered' domain hg]
      exact (ha domain hd).next fun v v' => .ofEval _ _
    · obtain _ | ⟨ha, _ | ⟨hb, ⟨⟩⟩⟩ := hargs
      rw [evalWith_dyadic .whereOpen c m entered domain hg, evalWith_dyadic .whereOpen c m' entered' domain hg]
      exact (ha domain hd).next fun v v' => (hb domain hd).next fun w w' => .ofEval _ _

/-- Filters over the same states whose operands simulate each other report the same value. -/
theorem filter_mirrors (h : c.Compares m m') {op : FilterOp} {p p' : Option Expr}
    {invisible explained invisible' explained' : Bool}
    (hselected : Follows (selected .whereOpen c m entered p) (selected .whereOpen c m' entered' p') fun a b => b = a)
    (he : Simulates .whereOpen c m m' entered e entered' e') :
    MirrorsOver c m m' entered (.filter op e p invisible explained) entered' (.filter op e' p' invisible' explained') := by
  intro domain _ r r' v v' hv hv' _
  obtain ⟨states, reduced, r₁, r₂, hstates, hreduced, -, hanswer⟩ := filter_eq_ok hv
  obtain ⟨states', reduced', r₁', r₂', hstates', hreduced', -, hanswer'⟩ := filter_eq_ok hv'
  obtain ⟨_, hsame, rfl⟩ := hselected r₁ r₁' states hstates
  rw [hsame] at hstates'
  cases hstates'
  have hreal := ((selected_real h.solver h.inRange p).spec r₁ _ hstates).1
  have hop : (Filter.mk op p' invisible' explained').op = (Filter.mk op p invisible explained).op := rfl
  obtain ⟨_, hfollows, halike⟩ := reduceOver_follows h hop he hreal r₂ r₂' reduced hreduced
  rw [hfollows] at hreduced'
  cases hreduced'
  rw [hanswer, hanswer']
  exact halike.value

end

/-! ## Extraction from answers -/

/-- What an extraction yields leaves the same value behind as the expression, in every model that carries the labels made
so far. -/
def Mirrored (c : Checker) (m : Model) (entered : Entered) (e : Expr) (p : Expr × Found) : Prop :=
  ∀ m' f, c.Compares m m' → m'.Carries f p.2 → ∀ entered', MirrorsOver c m m' entered e entered' (p.1.renameLabels f)

/-- Extraction from an answer by itself: what it yields can stand for it and leaves the same value behind. -/
structure ExtractsAnswer (c : Checker) (m : Model) (entered : Entered) (e : Expr) : Prop where
  extracts : Extracts c m entered e
  mirrors : ∀ found, Ensures (extractFrom .whereOpen c m entered found e) (Mirrored c m entered e)

theorem ExtractsAnswer.both {e : Expr} (h : ExtractsAnswer c m entered e) (found : Found) :
    Ensures (extractFrom .whereOpen c m entered found e) fun p =>
      Extracted c m entered e found p ∧ Mirrored c m entered e p :=
  fun r p hp => ⟨(h.extracts found).spec r p hp, h.mirrors found r p hp⟩

/-- What stands for a set of states leaves the answer alone. -/
theorem replace_keeps {P : Answer → Prop} {found : Found} {states : StateSet} (hlt : ∀ s ∈ states, s < m.numStates)
    (hcarries : m'.Carries f (found.replace m.numStates states).2) :
    KeepsOver P c m' entered' ((found.replace m.numStates states).1.renameLabels f) := by
  have hliteral : ∀ b, KeepsOver P c m' entered' (.literal (.bool b)) := by
    intro b domain
    rw [evalWith_literal]
    exact .pure _
  unfold Found.replace at hcarries ⊢
  cases hempty : states.isEmpty with
  | true => exact hliteral false
  | false =>
    cases hfull : states.isFull m.numStates with
    | true => exact hliteral true
    | false =>
      rw [hempty, hfull, if_neg Bool.false_ne_true, if_neg Bool.false_ne_true] at hcarries
      intro domain
      show Keeps P (evalWith .whereOpen c m' entered' (.label (f (found.labelFor states).1)) domain)
      rw [evalWith_attached .whereOpen c m' entered' domain (hcarries _ (found.labelFor_spec hlt).1)]
      exact .pure _

section

variable {e l r cond t : Expr}

theorem proposition_mirrored (hself : c.Compares m m) (he : e.type = .bool ∧ e.isProposition = true)
    (hsingle : e.isSingleValued = true) (found : Found) :
    Ensures (extractFrom .whereOpen c m entered found e) (Mirrored c m entered e) := by
  have hfilters : ∀ {P : Answer → Prop}, KeepsOver P c m entered e := by
    refine evalWith_keeps hsingle fun hg => ?_
    rw [Expr.filters_of_isProposition he.2] at hg
    cases hg
  rw [extractFrom_proposition .whereOpen c m entered found he]
  refine Ensures.bind (satisfying_real hself.solver hself.inRange none).spec fun states hlt => Ensures.pure ?_
  intro m' f h hcarries entered' domain _
  exact .of_keeps (fun z => hfilters domain) fun z => replace_keeps hlt hcarries domain

theorem ite_mirrored (hcond : ExtractsAnswer c m entered cond) (ht : ExtractsAnswer c m entered t)
    (he : ExtractsAnswer c m entered e) (found : Found) :
    Ensures (extractFromChildren .whereOpen c m entered found (.ite cond t e)) (Mirrored c m entered (.ite cond t e)) := by
  rw [extractFromChildren_ite]
  refine Ensures.bind (hcond.both found) fun p hp => Ensures.bind (ht.both p.2) fun q hq => ?_
  refine Ensures.bind (he.both q.2) fun z hz => Ensures.pure fun m' f h hcarries entered' => ?_
  have hcarries₂ := hcarries.mono hz.1.grows
  have hcarries₁ := hcarries₂.mono hq.1.grows
  exact ite_mirrors h (hp.1.stands m' f h hcarries₁ entered').forth (hp.2 m' f h hcarries₁ entered')
    (hq.2 m' f h hcarries₂ entered') (hz.2 m' f h hcarries entered')

theorem binary_mirrored {op : BinaryOp} (hl : ExtractsAnswer c m entered l) (hr : ExtractsAnswer c m entered r)
    (found : Found) :
    Ensures (extractFromChildren .whereOpen c m entered found (.binary op l r))
      (Mirrored c m entered (.binary op l r)) := by
  rw [extractFromChildren_binary]
  refine Ensures.bind (hl.both found) fun p hp => Ensures.bind (hr.both p.2) fun q hq => ?_
  refine Ensures.pure fun m' f h hcarries entered' => ?_
  have hcarries₁ := hcarries.mono hq.1.grows
  exact binary_mirrors h (hp.1.stands m' f h hcarries₁ entered').forth (hp.2 m' f h hcarries₁ entered')
    (hq.2 m' f h hcarries entered')

theorem unary_mirrored {op : UnaryOp} (he : ExtractsAnswer c m entered e) (found : Found) :
    Ensures (extractFromChildren .whereOpen c m entered found (.unary op e)) (Mirrored c m entered (.unary op e)) := by
  rw [extractFromChildren_unary]
  refine Ensures.bind (he.mirrors found) fun p hp => Ensures.pure fun m' f h hcarries entered' => ?_
  exact unary_mirrors (hp m' f h hcarries entered')

theorem expanded_mirrored {name : String} {type : ValueType} (he : ExtractsAnswer c m entered e) (found : Found) :
    Ensures (extractFromChildren .whereOpen c m entered found (.formula name (some e) type))
      (Mirrored c m entered (.formula name (some e) type)) := by
  rw [extractFromChildren_expanded]
  refine Ensures.bind (he.mirrors found) fun p hp => Ensures.pure fun m' f h hcarries entered' domain hd => ?_
  show Mirrors _ (evalWith .whereOpen c m' entered' (.formula name (some (p.1.renameLabels f)) type) domain)
  rw [evalWith_expanded, evalWith_expanded]
  exact hp m' f h hcarries entered' domain hd

/-- What an extraction from expressions in a row yields mirrors them one by one. -/
theorem extractFromAll_mirrored {es : List Expr} (hes : ∀ a ∈ es, ExtractsAnswer c m entered a) (found : Found) :
    Ensures (extractFromAll .whereOpen c m entered found es) fun p => ∀ m' f, c.Compares m m' → m'.Carries f p.2 →
      ∀ entered', MirrorsAll c m m' entered es entered' (Expr.renameLabelsL f p.1) := by
  induction es generalizing found with
  | nil =>
    rw [extractFromAll_nil]
    exact Ensures.pure fun _ _ _ _ _ => .nil
  | cons a rest ih =>
    have hrest : ∀ b ∈ rest, ExtractsAnswer c m entered b := fun b hb => hes b (List.mem_cons_of_mem a hb)
    have hgrows := fun found => (extractFromAll_delivers (fun b hb => (hrest b hb).extracts) found).spec
    rw [extractFromAll_cons]
    refine Ensures.bind ((hes a List.mem_cons_self).mirrors found) fun p hp => ?_
    refine Ensures.bind (P := fun q => ExtractedAll c m entered rest p.2 q ∧ _)
      (fun r q hq => ⟨hgrows p.2 r q hq, ih hrest p.2 r q hq⟩) fun q hq => ?_
    refine Ensures.pure fun m' f h hcarries entered' => ?_
    exact .cons (hp m' f h (hcarries.mono hq.1.grows) entered') (hq.2 m' f h hcarries entered')

theorem call_mirrored {g : Function} {args : List Expr} (hmulti : g ≠ .multi)
    (hargs : ∀ a ∈ args, ExtractsAnswer c m entered a) (found : Found) :
    Ensures (extractFromChildren .whereOpen c m entered found (.call g args))
      (Mirrored c m entered (.call g args)) := by
  rw [extractFromChildren_call]
  refine Ensures.bind (extractFromAll_mirrored hargs found) fun p hp => ?_
  exact Ensures.pure fun m' f h hcarries entered' => call_mirrors hmulti (hp m' f h hcarries entered')

/-- A filter is mirrored whatever its operand is. -/
theorem filter_mirrored {op : FilterOp} {p : Option Expr} {invisible explained : Bool} (he : Extracts c m entered e)
    (hp : ∀ q ∈ p, Extracts c m entered q) (found : Found) :
    Ensures (extractFromChildren .whereOpen c m entered found (.filter op e p invisible explained))
      (Mirrored c m entered (.filter op e p invisible explained)) := by
  rw [extractFromChildren_filter]
  refine Ensures.bind (he found).spec fun a ha => Ensures.bind (extractSelector_delivers hp a.2).spec fun q hq => ?_
  refine Ensures.pure fun m' f h hcarries entered' => ?_
  have hstands := ha.stands m' f h (hcarries.mono hq.grows) entered'
  exact filter_mirrors h (hq.stands m' f h hcarries entered').1 hstands.forth

/-- Where no subexpressions are, nothing is replaced and nothing is left behind. -/
theorem leaf_mirrored (hleaf : e.children = []) (hsame : ∀ f, e.renameLabels f = e)
    (hkeeps : ∀ {P : Answer → Prop} m entered, KeepsOver P c m entered e) (found : Found) :
    Ensures (extractFromChildren .whereOpen c m entered found e) (Mirrored c m entered e) := by
  rw [extractFromChildren_leaf .whereOpen c m entered found hleaf]
  refine Ensures.pure fun m' f h _ entered' domain _ => ?_
  rw [hsame f]
  exact .of_keeps (fun z => hkeeps m entered domain) fun z => hkeeps m' entered' domain

theorem mirrored_of_children (he : ¬(e.type = .bool ∧ e.isProposition = true)) (hp : ∀ name t, e ≠ .property name t)
    (hchildren : ∀ found, Ensures (extractFromChildren .whereOpen c m entered found e) (Mirrored c m entered e))
    (found : Found) : Ensures (extractFrom .whereOpen c m entered found e) (Mirrored c m entered e) := by
  rw [extractFrom_children .whereOpen c m entered found he hp]
  exact hchildren found

end

/-- Extraction from an answer by itself keeps the value that its evaluation leaves behind, if filters keep whole vectors
only and references to properties declare their types. -/
theorem extractFrom_answer (hself : c.Compares m m)
    (hdef : c.definitions.Throughout c.definitions.Replaceable) (entered : Entered) (e : Expr)
    (he : e.Throughout c.definitions.Replaceable) (hsingle : e.isSingleValued = true) :
    ExtractsAnswer c m entered e := by
  refine ⟨extractFrom_extracts hself hdef entered e he, ?_⟩
  by_cases hprop : e.type = .bool ∧ e.isProposition = true
  · exact proposition_mirrored hself hprop hsingle
  match e with
  | .ite cond t e =>
    simp only [Expr.isSingleValued, Bool.and_eq_true] at hsingle
    exact mirrored_of_children hprop (by simp) (ite_mirrored
      (extractFrom_answer hself hdef entered cond (he.child (by simp [Expr.children])) hsingle.1.1)
      (extractFrom_answer hself hdef entered t (he.child (by simp [Expr.children])) hsingle.1.2)
      (extractFrom_answer hself hdef entered e (he.child (by simp [Expr.children])) hsingle.2))
  | .binary op l r =>
    simp only [Expr.isSingleValued, Bool.and_eq_true] at hsingle
    exact mirrored_of_children hprop (by simp) (binary_mirrored
      (extractFrom_answer hself hdef entered l (he.child (by simp [Expr.children])) hsingle.1)
      (extractFrom_answer hself hdef entered r (he.child (by simp [Expr.children])) hsingle.2))
  | .unary op e =>
    have hsingle : e.isSingleValued = true := hsingle
    exact mirrored_of_children hprop (by simp) (unary_mirrored
      (extractFrom_answer hself hdef entered e (he.child (by simp [Expr.children])) hsingle))
  | .call g args =>
    simp only [Expr.isSingleValued, Bool.and_eq_true] at hsingle
    refine mirrored_of_children hprop (by simp) (call_mirrored (by simpa using hsingle.1) fun a ha => ?_)
    exact extractFrom_answer hself hdef entered a (he.child ha) (Expr.areSingleValued_iff.mp hsingle.2 a ha)
  | .formula name (some d) t =>
    have hsingle : d.isSingleValued = true := hsingle
    exact mirrored_of_children hprop (by simp) (expanded_mirrored
      (extractFrom_answer hself hdef entered d (he.child (by simp [Expr.children])) hsingle))
  | .filter op e p invisible explained =>
    refine mirrored_of_children hprop (by simp) (filter_mirrored
      (extractFrom_extracts hself hdef entered e (he.child (by simp [Expr.children]))) fun q hq => ?_)
    have hq : p = some q := hq
    exact extractFrom_extracts hself hdef entered q (he.child (by simp [Expr.children, hq]))
  | .literal v =>
    refine mirrored_of_children hprop (by simp) (leaf_mirrored rfl (fun _ => rfl) fun m entered domain => ?_)
    rw [evalWith_literal]
    exact .pure _
  | .constant name t =>
    refine mirrored_of_children hprop (by simp) (leaf_mirrored rfl (fun _ => rfl) fun m entered domain => ?_)
    rw [evalWith_constant]
    exact constantVector_keeps name t
termination_by sizeOf e

end Checker

end Statewise
