import Statewise.Proofs.Domain
import Statewise.Proofs.HintUse
import Statewise.Proofs.Within

/-!
# Hints are about the states of a request

A request that carries a hint is about the state of the hint only, unless the hint of a filter is still
there where other states matter: in the selector of a filter inside its operand, after such a filter has left
its own hint behind, or where the definition of a label is evaluated over all states. `Checker.hintUse`
computes from an expression whether any of this can happen.
-/

namespace Statewise

open Check

/-! ## The use of the hint by an expression -/

namespace Checker

/-- Whether the label of the initial states has no meaning of its own that could make it hold elsewhere. -/
def hasPlainInit (c : Checker) (m : Model) : Bool :=
  match m.labelStates? Expr.initName with
  | some states => states.size ≤ 1
  | none => (c.definitions.label? Expr.initName).isNone

/-- The use of the hint by a filter, given that by its operand. -/
def filterUse (c : Checker) (m : Model) (op : FilterOp) (selector : Option Expr) (operand : HintUse) : HintUse :=
  let isOnlyInit := Expr.selectsInit selector && m.numInitial == 1
  match op with
  | .state => HintUse.replace.seq operand.fitted
  | .first => if isOnlyInit then HintUse.replace.seq operand.fitted else HintUse.drop.seq operand
  | .forAll =>
    if isOnlyInit then HintUse.replace.seq (if c.hasPlainInit m then operand.fitted else operand)
    else HintUse.drop.seq operand
  | _ => HintUse.drop.seq operand

mutual

/-- The use of the hint by an expression. -/
def hintUse (c : Checker) (m : Model) (entered : Entered) (e : Expr) : HintUse :=
  match e with
  | .ite cond t e =>
    (hintUse c m entered cond).seq ((hintUse c m entered t).optional.seq (hintUse c m entered e).optional)
  | .binary op l r =>
    (hintUse c m entered l).seq
      (if op.isLazy then (hintUse c m entered r).optional else hintUse c m entered r)
  | .unary _ e => hintUse c m entered e
  | .call f args =>
    if f = .multi then .idle
    else if f.accepts args.length then .all (args.map fun a => hintUse c m entered a)
    else .failure
  | .formula _ (some d) _ => hintUse c m entered d
  | .label name =>
    match m.labelStates? name with
    | some _ => .idle
    | none =>
      match hd : c.definitions.label? name with
      | none => .idle
      | some body =>
        if hn : entered.labels.contains name then .failure
        else
          have := Definitions.remaining_label_lt hd (by simpa using hn)
          hintUse c m (entered.label name) body
  | .property name _ =>
    match hd : c.definitions.property? name with
    | none => .failure
    | some body =>
      if hn : entered.properties.contains name then .failure
      else
        have := Definitions.remaining_property_lt hd (by simpa using hn)
        hintUse c m (entered.property name) body
  | .filter op e none _ _ => c.filterUse m op none (hintUse c m entered e)
  | .filter op e (some p) _ _ =>
    (hintUse c m entered p).everywhere.seq (c.filterUse m op (some p) (hintUse c m entered e))
  | .quant _ _ e => if c.solver.isNone then .failure else (extractUse c m entered e).seq .request
  | .literal _ | .constant .. | .var .. | .observable .. => .idle
  | .ident .. | .formula _ none _ | .path .. => .failure
termination_by (c.definitions.remaining entered, sizeOf e, 0)

/-- The use of the hint while state formulas are replaced: these are evaluated over all states. -/
def extractUse (c : Checker) (m : Model) (entered : Entered) (e : Expr) : HintUse :=
  match e with
  | .property name _ =>
    match hd : c.definitions.property? name with
    | none => .failure
    | some body =>
      if hn : entered.properties.contains name then .failure
      else
        have := Definitions.remaining_property_lt hd (by simpa using hn)
        extractUse c m (entered.property name) body
  | e =>
    if e.type = .bool ∧ e.isProposition then (hintUse c m entered e).everywhere
    else .all (e.children.attach.map fun a => extractUse c m entered a.val)
termination_by (c.definitions.remaining entered, sizeOf e, 1)
decreasing_by
  · simp_wf
    exact Prod.Lex.left _ _ (by assumption)
  · exact Prod.Lex.right _ (Prod.Lex.right _ (by omega))
  · exact Prod.Lex.right _ (Prod.Lex.left _ _ (Expr.sizeOf_lt_of_mem_children a.property))

end

end Checker

/-! ## Soundness -/

namespace Checker

variable {c : Checker} {m : Model} {entered : Entered} {domain : Option StateSet}

/-- An expression has a use of the hint over every domain. -/
def HasUse (c : Checker) (m : Model) (entered : Entered) (e : Expr) (u : HintUse) : Prop :=
  ∀ domain, Uses (evalWith .whereOpen c m entered e domain) domain u

theorem satisfying_uses {e : Expr} {u : HintUse} (he : HasUse c m entered e u) :
    Uses (satisfying .whereOpen c m entered domain e) domain u :=
  (he domain).then_calm fun _ => Calm.ofEval _

theorem evalOver_uses {e : Expr} {u : HintUse} {t : ValueType} (states : StateSet) (he : HasUse c m entered e u) :
    Uses (evalOver c m entered e t (narrow states domain)) domain u.optional := by
  unfold evalOver
  exact Uses.optional (Calm.pure _) ((he _).narrow states)

theorem satisfyingOver_uses {e : Expr} {u : HintUse} (states : StateSet) (he : HasUse c m entered e u) :
    Uses (satisfyingOver c m entered e (narrow states domain)) domain u.optional :=
  (evalOver_uses states he).then_calm fun _ => Calm.ofEval _

theorem ite_hasUse {cond t e : Expr} {u v w : HintUse} (hcond : HasUse c m entered cond u)
    (ht : HasUse c m entered t v) (he : HasUse c m entered e w) :
    HasUse c m entered (.ite cond t e) (u.seq (v.optional.seq w.optional)) := by
  intro domain
  rw [evalWith_ite]
  refine (satisfying_uses hcond).bind fun holds _ => (evalOver_uses _ ht).bind fun tv _ => ?_
  exact (evalOver_uses _ he).then_calm fun ev => Calm.ofEval _

theorem binary_hasUse {op : BinaryOp} {l r : Expr} {u w : HintUse} (hl : HasUse c m entered l u)
    (hr : HasUse c m entered r w) :
    HasUse c m entered (.binary op l r) (u.seq (if op.isLazy then w.optional else w)) := by
  intro domain
  cases hop : op.isLazy with
  | true =>
    rw [evalWith_lazy c m entered _ hop, if_pos rfl]
    exact (satisfying_uses hl).bind fun left _ => (satisfyingOver_uses _ hr).then_calm fun right => Calm.pure _
  | false =>
    have hstrict : ¬(Strategy.whereOpen = .whereOpen ∧ op.isLazy = true) := by simp [hop]
    rw [evalWith_strict .whereOpen c m entered _ hstrict, if_neg Bool.false_ne_true]
    exact (hl domain).bind fun lv _ => (hr domain).then_calm fun rv => Calm.ofEval _

theorem unary_hasUse {op : UnaryOp} {e : Expr} {u : HintUse} (he : HasUse c m entered e u) :
    HasUse c m entered (.unary op e) u := by
  intro domain
  by_cases hop : op = .parenth
  · rw [hop, evalWith_parenth]
    exact he domain
  · rw [evalWith_unary .whereOpen c m entered _ hop]
    exact (he domain).then_calm fun v => Calm.ofEval _

theorem combineArgs_uses {f : Function} {t : ValueType} {args : List Expr} {use : Expr → HintUse}
    (hargs : ∀ a ∈ args, HasUse c m entered a (use a)) (acc : StateVector) :
    Uses (combineArgs .whereOpen c m entered f t acc args domain) domain (.all (args.map use)) := by
  induction args generalizing acc with
  | nil =>
    rw [combineArgs_nil]
    exact (Calm.pure acc).uses domain
  | cons a rest ih =>
    rw [combineArgs_cons]
    refine (hargs a List.mem_cons_self domain).bind fun v _ => Uses.after_calm (Calm.ofEval _) fun acc' => ?_
    exact ih (fun b hb => hargs b (List.mem_cons_of_mem a hb)) acc'

theorem call_hasUse {f : Function} {args : List Expr} {use : Expr → HintUse} (hf : f.accepts args.length = true)
    (hargs : ∀ a ∈ args, HasUse c m entered a (use a)) :
    HasUse c m entered (.call f args) (.all (args.map use)) := by
  intro domain
  rcases Function.accepts_cases hf with ⟨hkind, a, b, rest, rfl⟩ | ⟨hkind, a, rfl⟩ | ⟨hkind, a, b, rfl⟩
  · rw [evalWith_extremum .whereOpen c m entered _ hkind]
    refine (hargs a List.mem_cons_self domain).bind fun v _ => ?_
    exact combineArgs_uses (fun d hd => hargs d (List.mem_cons_of_mem a hd)) v
  · rw [evalWith_rounding .whereOpen c m entered _ hkind]
    exact (hargs a List.mem_cons_self domain).bind fun v _ => (Calm.ofEval _).uses domain
  · rw [evalWith_dyadic .whereOpen c m entered _ hkind]
    refine (hargs a List.mem_cons_self domain).bind fun v _ => ?_
    exact (hargs b (by simp) domain).bind fun w _ => (Calm.ofEval _).uses domain

theorem calm_askMulti (args : List Expr) : Calm (askMulti c m args domain) := by
  unfold askMulti
  split
  · exact Calm.throw _
  · exact Calm.bind (Calm.ask fun _ h => Call.noConfusion h) fun _ => Calm.ofExcept _

theorem calm_lookupVector (name : String) (t : ValueType) (value? : Nat → Option Value) :
    Calm (lookupVector m name t domain value?) := Calm.ofExcept _

theorem calm_observableVector (name : String) (t : ValueType) : Calm (observableVector c m name t domain) := by
  unfold observableVector
  split
  · exact Calm.throw _
  · exact Calm.ite (calm_lookupVector _ _ _) (Calm.throw _)

theorem calm_constantVector (name : String) (t : ValueType) : Calm (constantVector c m name t) := by
  unfold constantVector
  split
  · exact Calm.throw _
  · split
    · exact Calm.throw _
    · exact Calm.pure _

theorem calm_builtinLabel (name : String) : Calm (builtinLabel m name) := by
  unfold builtinLabel
  exact Calm.ite (Calm.pure _) (Calm.ite (Calm.pure _) (Calm.throw _))

/-! ### Quantities -/

theorem calm_buildRewards (measure : Measure) : Calm (buildRewards c m measure) := by
  unfold buildRewards
  split
  · exact Calm.pure _
  · exact Calm.pure _
  · split
    · exact Calm.throw _
    · refine Calm.bind (Calm.bind (Calm.ask fun _ h => Call.noConfusion h) fun _ => Calm.pure _) fun _ => ?_
      exact Calm.bind (Calm.ofExcept _) fun rewards => Calm.ite (Calm.throw _) (Calm.pure _)

/-- A sound request is noted, and nothing else is asked. -/
theorem askQuant_uses {solver : Solver} {q : Request} (hq : q.HintSound) :
    Uses (askQuant solver q) domain .idle := by
  unfold askQuant
  refine Uses.then_calm ?_ fun before => ?_
  · intro r hr _
    refine ⟨fun q' hq' => ?_, fun _ _ => Or.inr rfl⟩
    rcases List.mem_cons.mp hq' with h | h
    · cases h
      exact hq
    · exact hr q' h
  · exact Calm.bind (Calm.ofExcept _) fun values => Calm.ite (Calm.throw _) (Calm.pure _)

/-- A request with the hint that is there. -/
theorem ask_uses {solver : Solver} {q : Option Hint → Request} (hhint : ∀ h, (q h).hint = h)
    (hdomain : ∀ h, (q h).domain = domain) :
    Uses (do askQuant solver (q (← get).hint)) domain .request := by
  intro r hr hneed
  have hsound : (q r.hint).HintSound := by
    unfold Request.HintSound
    rw [hhint, hdomain]
    exact hneed
  have hasked : Uses (askQuant solver (q r.hint)) domain .idle := askQuant_uses hsound
  exact hasked r hr trivial

theorem quant_hasUse {measure : Measure} {query : Query} {operand : Expr} {solver : Solver} {u : HintUse}
    (hc : c.solver = some solver)
    (hoperand : ∀ domain, Uses (extractFrom .whereOpen c m entered [] operand) domain u) :
    HasUse c m entered (.quant measure query operand) (u.seq .request) := by
  intro domain
  rw [evalWith_quant_asked .whereOpen c m entered _ hc]
  refine Uses.after_calm (calm_buildRewards _) fun rewards => (hoperand domain).bind fun ⟨e, labels⟩ _ => ?_
  exact ask_uses (q := fun h => ⟨m, measure, query, e, labels, rewards, domain, h⟩) (fun _ => rfl) fun _ => rfl

/-! ### Filters -/

/-- The operand of a filter is evaluated under the hint that the filter sets. What this means for the use of
the hint is `k`, followed by what the operand still needs. -/
theorem applyFilter_uses {f : Filter} {e : Expr} {states : StateSet} {k u w : HintUse}
    (he : HasUse c m entered e u) (hfate : w.fate = u.fate)
    (hallows : ∀ s h, f.CanSelect m states → s = f.selectionOf m states → k.fate.Allows h (f.hint s))
    (hmet : ∀ s h, f.CanSelect m states → s = f.selectionOf m states → (w.need.before k.fate).Met domain h →
      u.need.Met (some s.states) (f.hint s)) :
    Uses (applyFilter .whereOpen c m entered f e states) domain (k.seq w) := by
  unfold applyFilter
  intro r hr hmeets
  obtain ⟨-, hw⟩ := HintNeed.Met.of_join hmeets
  obtain ⟨hcalls, hhint⟩ := f.select_setsHint m states r
  have hsound : (after (f.select m states) r).HintsSound := fun q hq => hr q (hcalls ▸ hq)
  -- Selecting asks nothing; only if it succeeds does the operand see the new hint.
  cases hselect : outcome (f.select m states) r with
  | error err =>
    rw [after_bind_error hselect, outcome_bind_error hselect]
    exact ⟨hsound, fun _ hb => by cases hb⟩
  | ok s =>
    obtain ⟨hs, hcan⟩ := (f.select_delivers m states).spec r s hselect
    rw [after_bind_ok hselect, outcome_bind_ok hselect]
    have hrest : Uses (do
        let v ← evalWith .whereOpen c m entered e (some s.states)
        f.record c.settings c.definitions.parameters (← f.reduce c.settings m s v)) (some s.states) u :=
      (he (some s.states)).then_calm fun v =>
        .of_tells ((f.reduce_tells m c.settings s v).bind fun _ => f.record_tells _ _ _)
    have hset := hhint s hselect
    obtain ⟨hsound', hfate'⟩ := hrest _ hsound (hset ▸ hmet s r.hint hcan hs hw)
    refine ⟨hsound', fun a ha => ?_⟩
    have hlast := hfate' a ha
    rw [hset] at hlast
    show (k.fate.next w.fate).Allows _ _
    rw [hfate]
    exact (hallows s r.hint hcan hs).next hlast

section

variable {f : Filter} {e : Expr} {states : StateSet} {u : HintUse}

theorem applyFilter_drops (he : HasUse c m entered e u)
    (hhint : ∀ s, s = f.selectionOf m states → f.hint s = none) :
    Uses (applyFilter .whereOpen c m entered f e states) domain (HintUse.drop.seq u) := by
  refine applyFilter_uses he rfl (fun s h _ hs => hhint s hs) fun s h _ hs hmet => ?_
  rw [hhint s hs]
  refine HintNeed.met_none fun himpossible => ?_
  rw [himpossible] at hmet
  exact hmet

theorem applyFilter_fits (he : HasUse c m entered e u)
    (hstates : f.CanSelect m states → ∀ a ∈ (f.selectionOf m states).states,
      ∀ b ∈ (f.selectionOf m states).states, a = b) :
    Uses (applyFilter .whereOpen c m entered f e states) domain (HintUse.replace.seq u.fitted) := by
  refine applyFilter_uses he rfl (fun _ _ _ _ => trivial) fun s h hcan hs hmet => ?_
  refine HintNeed.Met.of_fitted (Filter.fitsDomain_hint (hs ▸ hstates hcan)) ?_
  rw [show u.need.fitted = .nothing from HintNeed.Met.eq_nothing hmet]
  trivial

theorem applyFilter_strays (he : HasUse c m entered e u) :
    Uses (applyFilter .whereOpen c m entered f e states) domain (HintUse.replace.seq u) := by
  refine applyFilter_uses he rfl (fun _ _ _ _ => trivial) fun s h hcan hs hmet => ?_
  rw [HintNeed.Met.eq_nothing hmet]
  trivial

/-- The states that satisfy the label of the initial states, if it has its plain meaning and there is one
initial state. -/
theorem selected_init (hplain : c.hasPlainInit m = true) (hone : m.numInitial = 1) {r : Run}
    (h : outcome (selected .whereOpen c m entered (some (.label Expr.initName))) r = .ok states) :
    ∀ a ∈ states, ∀ b ∈ states, a = b := by
  obtain ⟨v, hv, hstates⟩ := outcome_bind_eq_ok.mp h
  rw [outcome_ofEval_eq_ok] at hstates
  unfold hasPlainInit at hplain
  cases hm : m.labelStates? Expr.initName with
  | some attached =>
    rw [hm] at hplain
    rw [evalWith_attached .whereOpen c m entered _ hm] at hv
    cases hv
    cases hstates
    exact StateSet.eq_of_size_le_one (by simpa using hplain)
  | none =>
    rw [hm] at hplain
    have hlabel : c.definitions.label? Expr.initName = none := Option.isNone_iff_eq_none.mp hplain
    rw [evalWith_builtin .whereOpen c m entered _ hm hlabel] at hv
    unfold builtinLabel at hv
    rw [if_neg (by decide), if_pos rfl] at hv
    cases hv
    cases hstates
    have hinitial : ∀ a ∈ StateSet.ofList ((List.range m.numStates).filter m.isInitial), a ∈ m.initial := by
      intro a ha
      obtain ⟨s, hs, rfl⟩ := StateSet.mem_ofList.mp ha
      exact StateSet.contains_iff.mp (List.mem_filter.mp hs).2
    exact fun a ha b hb => StateSet.eq_of_size_le_one (Nat.le_of_eq hone) a (hinitial a ha) b (hinitial b hb)

end

theorem selectsInit_eq {p : Option Expr} (h : Expr.selectsInit p = true) : p = some (.label Expr.initName) := by
  cases p with
  | none => cases h
  | some p =>
    cases p with
    | label name => rw [show name = Expr.initName by simpa [Expr.selectsInit, Expr.isInitLabel] using h]
    | _ => cases h

theorem filter_hasUse {op : FilterOp} {e : Expr} {p : Option Expr} {invisible explained : Bool} {u w : HintUse}
    (hp : ∀ domain, Uses (selected .whereOpen c m entered p) domain w) (he : HasUse c m entered e u) :
    HasUse c m entered (.filter op e p invisible explained) (w.seq (c.filterUse m op p u)) := by
  intro domain
  rw [evalWith_filter]
  refine (hp domain).bind fun states ⟨r, hstates⟩ => ?_
  have hdrops : op ≠ .state → (op = .forAll ∨ op = .first → (Expr.selectsInit p && m.numInitial == 1) = false) →
      Uses (applyFilter .whereOpen c m entered ⟨op, p, invisible, explained⟩ e states) domain
        (HintUse.drop.seq u) := fun hstate hinit =>
    applyFilter_drops he fun s hs => Filter.hint_eq_none hstate fun h => hs ▸ hinit h
  unfold filterUse
  split
  -- A state filter fails unless there is one state; the first state is one in any case.
  · exact applyFilter_fits he fun hcan => StateSet.eq_of_size_le_one (Nat.le_of_eq (hcan.2 rfl))
  · cases hinit : Expr.selectsInit p && m.numInitial == 1 with
    | true =>
      rw [if_pos rfl]
      exact applyFilter_fits he fun _ => StateSet.eq_of_size_le_one (List.length_take_le 1 states.toList)
    | false =>
      rw [if_neg Bool.false_ne_true]
      exact hdrops (by decide) fun _ => hinit
  · cases hinit : Expr.selectsInit p && m.numInitial == 1 with
    | true =>
      rw [if_pos rfl]
      obtain ⟨hselects, hone⟩ := Bool.and_eq_true_iff.mp hinit
      -- The label may have been given another meaning than the one initial state.
      cases hplain : c.hasPlainInit m with
      | true =>
        rw [if_pos rfl]
        rw [selectsInit_eq hselects] at hstates
        exact applyFilter_fits he fun _ => selected_init hplain (eq_of_beq hone) hstates
      | false =>
        rw [if_neg Bool.false_ne_true]
        exact applyFilter_strays he
    | false =>
      rw [if_neg Bool.false_ne_true]
      exact hdrops (by decide) fun _ => hinit
  · next hstate hfirst hforAll =>
    exact hdrops hstate fun h => absurd h (not_or.mpr ⟨hforAll, hfirst⟩)

/-! ### Extraction -/

theorem extractFromAll_uses {es : List Expr} {use : Expr → HintUse}
    (hes : ∀ e ∈ es, ∀ found, Uses (extractFrom .whereOpen c m entered found e) domain (use e)) (found : Found) :
    Uses (extractFromAll .whereOpen c m entered found es) domain (.all (es.map use)) := by
  induction es generalizing found with
  | nil =>
    rw [extractFromAll_nil]
    exact (Calm.pure _).uses domain
  | cons e rest ih =>
    rw [extractFromAll_cons]
    refine (hes e List.mem_cons_self found).bind fun ⟨e', found₁⟩ _ => Uses.then_calm ?_ fun _ => Calm.pure _
    exact ih (fun a ha => hes a (List.mem_cons_of_mem e ha)) found₁

theorem extractFromChildren_uses {e : Expr} {use : Expr → HintUse}
    (he : ∀ a ∈ e.children, ∀ found, Uses (extractFrom .whereOpen c m entered found a) domain (use a))
    (found : Found) :
    Uses (extractFromChildren .whereOpen c m entered found e) domain (.all (e.children.map use)) := by
  rw [extractFromChildren_eq]
  exact (extractFromAll_uses he found).then_calm fun _ => Calm.pure _

/-! ### Every expression -/

theorem label_hasUse {name : String}
    (hbody : ∀ body, c.definitions.label? name = some body → entered.labels.contains name = false →
      HasUse c m (entered.label name) body (c.hintUse m (entered.label name) body)) :
    HasUse c m entered (.label name) (c.hintUse m entered (.label name)) := by
  intro domain
  rw [hintUse]
  split
  · next states hm =>
    rw [evalWith_attached .whereOpen c m entered _ hm]
    exact (Calm.pure _).uses domain
  · next hm =>
    split
    · next hd =>
      rw [evalWith_builtin .whereOpen c m entered _ hm hd]
      exact (calm_builtinLabel name).uses domain
    · next body hd =>
      split
      · next hn =>
        rw [evalWith_cyclicLabel .whereOpen c m entered _ hm hd hn]
        exact Uses.throw _ domain
      · next hn =>
        have hn : entered.labels.contains name = false := by simpa using hn
        rw [evalWith_definedLabel .whereOpen c m entered _ hm hd hn]
        exact hbody body hd hn domain

theorem property_hasUse {name : String} {t : ValueType}
    (hbody : ∀ body, c.definitions.property? name = some body → entered.properties.contains name = false →
      HasUse c m (entered.property name) body (c.hintUse m (entered.property name) body)) :
    HasUse c m entered (.property name t) (c.hintUse m entered (.property name t)) := by
  intro domain
  rw [hintUse]
  split
  · next hd =>
    rw [evalWith_unknownProperty .whereOpen c m entered _ t hd]
    exact Uses.throw _ domain
  · next body hd =>
    split
    · next hn =>
      rw [evalWith_cyclicProperty .whereOpen c m entered _ t hd hn]
      exact Uses.throw _ domain
    · next hn =>
      have hn : entered.properties.contains name = false := by simpa using hn
      rw [evalWith_definedProperty .whereOpen c m entered _ t hd hn]
      exact Uses.after_calm (Calm.message _) fun _ => hbody body hd hn domain

theorem extractProperty_uses {name : String} {t : ValueType} (found : Found)
    (hbody : ∀ body, c.definitions.property? name = some body → entered.properties.contains name = false →
      Uses (extractFrom .whereOpen c m (entered.property name) found body) domain
        (c.extractUse m (entered.property name) body)) :
    Uses (extractFrom .whereOpen c m entered found (.property name t)) domain
      (c.extractUse m entered (.property name t)) := by
  rw [extractUse]
  split
  · next hd =>
    rw [extractFrom_unknownProperty .whereOpen c m entered found t hd]
    exact Uses.throw _ domain
  · next body hd =>
    split
    · next hn =>
      rw [extractFrom_cyclicProperty .whereOpen c m entered found t hd hn]
      exact Uses.throw _ domain
    · next hn =>
      have hn : entered.properties.contains name = false := by simpa using hn
      rw [extractFrom_definedProperty .whereOpen c m entered found t hd hn]
      exact hbody body hd hn

theorem call_use {f : Function} {args : List Expr}
    (hargs : ∀ a ∈ args, HasUse c m entered a (c.hintUse m entered a)) :
    HasUse c m entered (.call f args) (c.hintUse m entered (.call f args)) := by
  rw [hintUse]
  by_cases hmulti : f = .multi
  · intro domain
    rw [hmulti, evalWith_multi, if_pos rfl]
    exact (calm_askMulti args).uses domain
  · rw [if_neg hmulti]
    cases haccepts : f.accepts args.length with
    | true =>
      rw [if_pos rfl]
      exact call_hasUse haccepts hargs
    | false =>
      intro domain
      rw [evalWith_wrongArity .whereOpen c m entered _ hmulti haccepts, if_neg Bool.false_ne_true]
      exact Uses.throw _ domain

theorem extractUse_proposition {e : Expr} (he : e.type = .bool ∧ e.isProposition = true) :
    c.extractUse m entered e = (c.hintUse m entered e).everywhere := by
  cases e with
  | property name t => exact absurd he.2 Bool.false_ne_true
  | _ =>
    rw [extractUse, if_pos he]
    exact fun _ _ h => Expr.noConfusion h

theorem extractUse_children {e : Expr} (he : ¬(e.type = .bool ∧ e.isProposition = true))
    (hp : ∀ name t, e ≠ .property name t) :
    c.extractUse m entered e = .all (e.children.map fun a => c.extractUse m entered a) := by
  rw [extractUse, if_neg he, List.attach_map_val]
  exact hp

mutual

/-- The hint is used as the analysis says. -/
theorem evalWith_hasUse (c : Checker) (m : Model) (entered : Entered) (e : Expr) :
    HasUse c m entered e (c.hintUse m entered e) := by
  -- The recursion is that of the analysis: definitions left to enter, size, and evaluation before extraction.
  match e with
  | .ite cond t e =>
    rw [hintUse]
    exact ite_hasUse (evalWith_hasUse c m entered cond) (evalWith_hasUse c m entered t)
      (evalWith_hasUse c m entered e)
  | .binary op l r =>
    rw [hintUse]
    exact binary_hasUse (evalWith_hasUse c m entered l) (evalWith_hasUse c m entered r)
  | .unary op e =>
    rw [hintUse]
    exact unary_hasUse (evalWith_hasUse c m entered e)
  | .call f args => exact call_use fun a ha => evalWith_hasUse c m entered a
  | .formula name (some d) t =>
    rw [hintUse]
    intro domain
    rw [evalWith_expanded]
    exact evalWith_hasUse c m entered d domain
  | .label name =>
    refine label_hasUse fun body hd hn => ?_
    have hlt := Definitions.remaining_label_lt hd hn
    exact evalWith_hasUse c m (entered.label name) body
  | .property name t =>
    refine property_hasUse fun body hd hn => ?_
    have hlt := Definitions.remaining_property_lt hd hn
    exact evalWith_hasUse c m (entered.property name) body
  | .filter op e none invisible explained =>
    rw [hintUse, ← HintUse.idle_seq (c.filterUse m op none _)]
    exact filter_hasUse (fun domain => (Calm.pure _).uses domain) (evalWith_hasUse c m entered e)
  | .filter op e (some p) invisible explained =>
    rw [hintUse]
    have hp := evalWith_hasUse c m entered p
    exact filter_hasUse (fun domain => (satisfying_uses hp).everywhere domain) (evalWith_hasUse c m entered e)
  | .quant measure query operand =>
    rw [hintUse]
    cases hc : c.solver with
    | none =>
      intro domain
      rw [evalWith_quant .whereOpen c m entered _ hc]
      exact Uses.throw _ domain
    | some solver => exact quant_hasUse hc fun domain => extractFrom_uses c m entered operand domain []
  | .literal v =>
    intro domain
    rw [hintUse, evalWith_literal]
    exact (Calm.pure _).uses domain
  | .constant name t =>
    intro domain
    rw [hintUse, evalWith_constant]
    exact (calm_constantVector name t).uses domain
  | .var name index t =>
    intro domain
    rw [hintUse, evalWith_var]
    exact (calm_lookupVector name t _).uses domain
  | .observable name t =>
    intro domain
    rw [hintUse, evalWith_observable]
    exact (calm_observableVector name t).uses domain
  | .ident name t =>
    intro domain
    rw [hintUse, evalWith_ident]
    exact Uses.throw _ domain
  | .formula name none t =>
    intro domain
    rw [hintUse, evalWith_unexpanded]
    exact Uses.throw _ domain
  | .path op operands bound =>
    intro domain
    rw [hintUse, evalWith_path]
    exact Uses.throw _ domain
termination_by (c.definitions.remaining entered, sizeOf e, 0)

theorem extractFrom_uses (c : Checker) (m : Model) (entered : Entered) (e : Expr) (domain : Option StateSet)
    (found : Found) : Uses (extractFrom .whereOpen c m entered found e) domain (c.extractUse m entered e) := by
  -- A proposition is evaluated over all states, whatever the domain of the request will be.
  by_cases hprop : e.type = .bool ∧ e.isProposition = true
  · rw [extractUse_proposition hprop, extractFrom_proposition .whereOpen c m entered found hprop]
    have he : Uses (satisfying .whereOpen c m entered none e) none (c.hintUse m entered e) :=
      satisfying_uses (evalWith_hasUse c m entered e)
    exact (he.then_calm fun _ => Calm.pure _).everywhere domain
  · by_cases hreference : ∃ name t, e = .property name t
    · obtain ⟨name, t, rfl⟩ := hreference
      refine extractProperty_uses found fun body hd hn => ?_
      have hlt := Definitions.remaining_property_lt hd hn
      exact extractFrom_uses c m (entered.property name) body domain found
    · have hother : ∀ name t, e ≠ .property name t := fun name t h => hreference ⟨name, t, h⟩
      rw [extractUse_children hprop hother, extractFrom_children .whereOpen c m entered found hprop hother]
      exact extractFromChildren_uses (fun a ha found => extractFrom_uses c m entered a domain found) found
termination_by (c.definitions.remaining entered, sizeOf e, 1)
decreasing_by
  · exact Prod.Lex.right _ (Prod.Lex.right _ (by omega))
  · exact Prod.Lex.left _ _ (by assumption)
  · exact Prod.Lex.right _ (Prod.Lex.left _ _ (Expr.sizeOf_lt_of_mem_children (by assumption)))

end

/-! ## Checks -/

/-- A computation from a fresh start makes sound requests only, if anything can be known about the hint. -/
theorem restart_hintsSound {α : Type} {x : Check α} {u : HintUse} {r : Run} (parameters : Option String)
    (hx : Uses x domain u) (hu : u.need ≠ .impossible) (hr : r.HintsSound) :
    (after (do Check.restart parameters; x) r).HintsSound :=
  (((Uses.restart parameters).bind fun _ _ => hx) r hr (HintUse.drop_seq_met hu)).1

theorem minimised_hintsSound {e : Expr} {r : Run}
    (hu : c.settings.minimise = true → (c.extractUse m .none e).need ≠ .impossible) (hr : r.HintsSound) :
    (after (c.minimised m e) r).HintsSound := by
  unfold minimised
  cases hminimise : c.settings.minimise with
  | false => exact hr
  | true =>
    rw [Bool.not_true, if_neg Bool.false_ne_true]
    split
    · exact ((Calm.bind (Calm.message _) fun _ => Calm.pure _).uses none r hr trivial).1
    · have hextract : Uses (c.extract m e) none (HintUse.drop.seq (c.extractUse m .none e)) :=
        (Uses.restart none).bind fun _ _ => extractFrom_uses c m .none e none []
      refine ((hextract.then_calm fun ⟨e', labels⟩ => ?_) r hr (HintUse.drop_seq_met (hu hminimise))).1
      refine Calm.bind (Calm.bind (Calm.ask fun _ h => Call.noConfusion h) fun _ => Calm.pure _) fun _ => ?_
      exact Calm.bind (Calm.ofExcept _) fun m' => Calm.bind (Calm.message _) fun _ => Calm.pure _

/-- The labels are evaluated one after the other, each under what the one before has left behind. -/
theorem mapM_uses {use : String → HintUse} {names : List String}
    (h : ∀ name, Uses (do Check.ofEval (← c.eval m .none (.label name) none).satisfaction) none (use name)) :
    Uses (names.mapM fun name => do Check.ofEval (← c.eval m .none (.label name) none).satisfaction) none
      (.all (names.map use)) := by
  induction names with
  | nil => exact (Calm.pure _).uses none
  | cons name rest ih =>
    rw [List.mapM_cons]
    exact (h name).bind fun a _ => ih.then_calm fun _ => Calm.pure _

/-- Every request that carries a hint is about the state of the hint only, if the analysis of what is evaluated
finds nothing impossible: of the expression, and before minimisation also of the extraction from it. The analysis is
conservative, and goes through operands in the order in which they are evaluated. -/
theorem requests_hintSound (c : Checker) (m : Model) (r : Run) (hr : r.HintsSound) :
    (∀ e, (c.settings.minimise = true → (c.extractUse m .none (c.prepared m e)).need ≠ .impossible) →
      (∀ m' e', outcome (c.minimised m (c.prepared m e)) r = .ok (m', e') →
        (c.hintUse m' .none e').need ≠ .impossible) →
      (after (c.check m e) r).HintsSound) ∧
    (∀ e domain, (c.hintUse m .none e).need ≠ .impossible →
      (after (c.checkExpression m e domain) r).HintsSound) ∧
    (∀ names : List String,
      (HintUse.all (names.map fun name => c.hintUse m .none (.label name))).need ≠ .impossible →
      (after (c.checkLabels m names) r).HintsSound) := by
  refine ⟨fun e hextract heval => ?_, fun e domain hu => ?_, fun names hu => ?_⟩
  · have hminimised := minimised_hintsSound hextract hr
    unfold check
    cases h : outcome (c.minimised m (c.prepared m e)) r with
    | error err =>
      rw [after_bind_error h]
      exact hminimised
    | ok p =>
      obtain ⟨m', e'⟩ := p
      rw [after_bind_ok h]
      have hrest : Uses (do
          let values ← c.eval m' .none e' none
          let run ← get
          Check.message (run.answer.line e'.resultName)
          return (⟨values, run.answer, run.hint⟩ : Outcome)) none (c.hintUse m' .none e') :=
        (evalWith_hasUse c m' .none e' none).then_calm fun values r => ⟨rfl, fun _ h => h⟩
      exact restart_hintsSound _ hrest (heval m' e' h) hminimised
  · exact restart_hintsSound _ (evalWith_hasUse c m .none e domain) hu hr
  · refine restart_hintsSound none (mapM_uses fun name => ?_) hu hr
    exact (evalWith_hasUse c m .none (.label name) none).then_calm fun _ => Calm.ofEval _

/-! ### Hints that are there too long -/

/-- A checker with definitions of labels, whose solver answers that every quantity keeps its bound. -/
def withSolver (labels : List Definition) : Checker :=
  ⟨{ Definitions.empty with labels }, {},
    some ⟨fun _ q => .ok (.ofSet (.full q.model.numStates) q.model.numStates), none⟩, none, none⟩

/-- It is certain to happen at some time. -/
def certain (e : Expr) : Expr := .quant .probability (.bound .ge 1) (.path .eventually [e] none)

/-- The value in the initial state. -/
def inInit (e : Expr) : Expr := .filter .state e (some (.label Expr.initName)) false true

section

variable (labels : List Definition) (entered : Entered) (domain : Option StateSet)

theorem evalWith_truth :
    evalWith .whereOpen (withSolver labels) .twoStates entered .truth domain =
      return .constant (.bool true) 2 := evalWith_literal ..

theorem evalWith_init (h : (withSolver labels).definitions.label? Expr.initName = none) :
    evalWith .whereOpen (withSolver labels) .twoStates entered (.label Expr.initName) domain =
      return .ofSet (.singleton 0) 2 := by
  rw [evalWith_builtin _ _ _ _ _ rfl h]
  rfl

theorem extractFrom_eventually {e : Expr} (he : e.type = .bool ∧ e.isProposition = true) (found : Found) :
    extractFrom .whereOpen (withSolver labels) .twoStates entered found (.path .eventually [e] none) = (do
      let holds ← satisfying .whereOpen (withSolver labels) .twoStates entered none e
      let (e, found) := found.replace 2 holds
      return (.path .eventually [e] none, found)) := by
  rw [extractFrom_children _ _ _ _ _ (by simp [Expr.isProposition]) (by simp), extractFromChildren_path,
    extractFromAll_cons, extractFrom_proposition _ _ _ _ _ he]
  simp only [extractFromAll_nil, bind_assoc, pure_bind]
  rfl

theorem evalWith_certain {e : Expr} (he : e.type = .bool ∧ e.isProposition = true) :
    evalWith .whereOpen (withSolver labels) .twoStates entered (certain e) domain = (do
      let holds ← satisfying .whereOpen (withSolver labels) .twoStates entered none e
      let (e, found) := Found.replace [] 2 holds
      discard (Check.ask (.quant ⟨.twoStates, .probability, .bound .ge 1, .path .eventually [e] none, found, none,
        domain, (← get).hint⟩))
      return .ofSet (.full 2) 2) := by
  unfold certain
  rw [evalWith_quant_asked _ _ _ _ _ (show (withSolver labels).solver = some _ from rfl),
    extractFrom_eventually labels entered he]
  simp only [bind_assoc, pure_bind]
  rfl

end

theorem evalWith_certainly (labels : List Definition) (entered : Entered) (domain : Option StateSet) :
    evalWith .whereOpen (withSolver labels) .twoStates entered (certain .truth) domain = (do
      discard (Check.ask (.quant ⟨.twoStates, .probability, .bound .ge 1, .path .eventually [.truth] none, [], none,
        domain, (← get).hint⟩))
      return .ofSet (.full 2) 2) := by
  rw [evalWith_certain labels entered domain ⟨rfl, rfl⟩]
  unfold satisfying
  rw [evalWith_truth]
  rfl

theorem not_hintsSound {r : Run} {q : Request} (hq : .quant q ∈ r.calls) (h : ¬q.HintSound) : ¬r.HintsSound :=
  fun hr => h (hr q hq)

/-- A request over all states, or over both states of a model, is not about one of them. -/
theorem not_hintSound {q : Request} (h : q.hint.isSome = true) (hd : q.domain = none ∨ q.domain = some (.full 2)) :
    ¬q.HintSound := by
  intro hsound
  obtain ⟨p, hp⟩ := Option.isSome_iff_exists.mp h
  obtain ⟨d, hdomain, hall⟩ := hsound p hp
  rcases hd with hd | hd
  · rw [hd] at hdomain
    cases hdomain
  · rw [hd] at hdomain
    cases hdomain
    have hzero := hall 0 (by decide)
    have hone := hall 1 (by decide)
    omega

/-- The selector of a filter inside a filter. -/
def quantityInSelector : Expr := inInit (.filter .thereIs .truth (some (certain .truth)) false true)

theorem unsound_quantityInSelector :
    ¬(after ((withSolver []).checkExpression .twoStates quantityInSelector none) .start).HintsSound := by
  unfold checkExpression eval quantityInSelector inInit
  simp only [evalWith_filter, selected, satisfying, applyFilter, evalWith_init [] _ _ rfl, evalWith_certainly,
    evalWith_truth]
  exact not_hintsSound List.mem_cons_self (not_hintSound rfl (Or.inl rfl))

/-- An operand after a filter inside a filter. -/
def quantityAfterFilter : Expr :=
  .filter .thereIs (.binary .and (inInit .truth) (certain .truth)) none false true

theorem unsound_quantityAfterFilter :
    ¬(after ((withSolver []).checkExpression .twoStates quantityAfterFilter none) .start).HintsSound := by
  unfold checkExpression eval quantityAfterFilter inInit
  simp only [evalWith_filter, selected, satisfying, satisfyingOver, evalOver, applyFilter,
    evalWith_lazy _ _ _ _ (show BinaryOp.and.isLazy = true from rfl), evalWith_init [] _ _ rfl,
    evalWith_certainly, evalWith_truth]
  exact not_hintsSound List.mem_cons_self (not_hintSound rfl (Or.inr rfl))

/-- A label whose definition is a quantity. -/
def sure : List Definition := [⟨"sure", certain .truth⟩]

/-- The operand of a quantity with such a label. -/
def quantityInLabel : Expr := inInit (certain (.label "sure"))

theorem unsound_quantityInLabel :
    ¬(after ((withSolver sure).checkExpression .twoStates quantityInLabel none) .start).HintsSound := by
  have hsure : ∀ domain, evalWith .whereOpen (withSolver sure) .twoStates .none (.label "sure") domain =
      evalWith .whereOpen (withSolver sure) .twoStates (Entered.none.label "sure") (certain .truth) domain :=
    fun domain => evalWith_definedLabel _ _ _ _ _ rfl rfl rfl
  unfold checkExpression eval quantityInLabel inInit
  simp only [evalWith_filter, selected, satisfying, applyFilter, evalWith_init sure _ _ rfl,
    evalWith_certain sure _ _ (show (Expr.label "sure").type = .bool ∧ (Expr.label "sure").isProposition = true from
      ⟨rfl, rfl⟩), hsure, evalWith_certainly]
  exact not_hintsSound (List.mem_cons_of_mem _ List.mem_cons_self) (not_hintSound rfl (Or.inl rfl))

/-- A label of the initial states that is defined to hold everywhere. -/
def initEverywhere : List Definition := [⟨Expr.initName, .truth⟩]

theorem unsound_initEverywhere :
    ¬(after ((withSolver initEverywhere).checkExpression .twoStates
      (.filter .forAll (certain .truth) (some (.label Expr.initName)) false true) none) .start).HintsSound := by
  have hinit : ∀ domain, evalWith .whereOpen (withSolver initEverywhere) .twoStates .none (.label Expr.initName)
      domain = return .constant (.bool true) 2 := by
    intro domain
    rw [evalWith_definedLabel _ _ _ _ _ rfl rfl rfl]
    exact evalWith_truth ..
  unfold checkExpression eval
  simp only [evalWith_filter, selected, satisfying, applyFilter, hinit, evalWith_certainly]
  exact not_hintsSound List.mem_cons_self (not_hintSound rfl (Or.inr rfl))

/-- Requests with hints that are not about them: in the selector of a filter inside a filter, after such a
filter, in the definition of a label, and where a definition makes the initial states many. -/
theorem checkExpression_unsoundHints :
    ¬(after ((withSolver []).checkExpression .twoStates quantityInSelector none) .start).HintsSound ∧
    ¬(after ((withSolver []).checkExpression .twoStates quantityAfterFilter none) .start).HintsSound ∧
    ¬(after ((withSolver sure).checkExpression .twoStates quantityInLabel none) .start).HintsSound ∧
    ¬(after ((withSolver initEverywhere).checkExpression .twoStates
      (.filter .forAll (certain .truth) (some (.label Expr.initName)) false true) none) .start).HintsSound :=
  ⟨unsound_quantityInSelector, unsound_quantityAfterFilter, unsound_quantityInLabel, unsound_initEverywhere⟩

theorem hintUse_init : (withSolver []).hintUse .twoStates .none (.label Expr.initName) = .idle := by
  rw [hintUse]
  rfl

theorem hintUse_inInit : (withSolver []).hintUse .twoStates .none (inInit (certain .truth)) = .replace := by
  have htruth : (withSolver []).extractUse .twoStates .none .truth = .idle := by
    rw [extractUse_proposition ⟨rfl, rfl⟩, Expr.truth, hintUse]
    rfl
  have hpath : (withSolver []).extractUse .twoStates .none (.path .eventually [.truth] none) = .idle := by
    rw [extractUse_children (by simp [Expr.isProposition]) (by simp)]
    show HintUse.all [(withSolver []).extractUse .twoStates .none .truth] = .idle
    rw [htruth]
    rfl
  unfold inInit certain
  rw [hintUse, hintUse_init, hintUse, hpath]
  rfl

/-- A quantity in the initial state is asked for with the hint, and soundly. -/
theorem requests_hintSound_inInit :
    (after ((withSolver []).check .twoStates (inInit (certain .truth))) .start).HintsSound ∧
    (after ((withSolver []).checkExpression .twoStates (inInit (certain .truth)) none) .start).HintsSound ∧
    (after ((withSolver []).checkLabels .twoStates [Expr.initName]) .start).HintsSound := by
  have hstart : Run.start.HintsSound := fun q hq => by cases hq
  have huse : ((withSolver []).hintUse .twoStates .none (inInit (certain .truth))).need ≠ .impossible := by
    rw [hintUse_inInit]
    decide
  obtain ⟨hcheck, hexpression, hlabels⟩ := requests_hintSound (withSolver []) .twoStates .start hstart
  refine ⟨hcheck _ (fun h => by cases h) (fun m' e' h => ?_), hexpression _ none huse, hlabels _ ?_⟩
  · cases h
    exact huse
  · show (HintUse.all [(withSolver []).hintUse .twoStates .none (.label Expr.initName)]).need ≠ .impossible
    rw [hintUse_init]
    decide

end Checker

end Statewise
