import Statewise.Proofs.Domain
import Statewise.Proofs.Stacks
import Mathlib.Logic.Relation

/-!
# Cyclic references

A reference is called cyclic only if it is.

Definitions refer to the properties that their bodies mention, and to the labels in them that the model does not
have. A name is refused when it is met while it is being expanded, and then the path of references from its
definition to the place where it was met is a cycle. So whenever an evaluation or a rewrite says that a reference is
cyclic, the expression leads to it and it lies on a cycle; a definition that is used many times side by side is
never refused. What a collaborator answers is passed on as it is, also if it is such an error.
-/

namespace Statewise

open Check

/-! ## References -/

/-- A property or a label, by name. -/
structure Reference where
  sort : ReferenceSort
  name : String
deriving DecidableEq

/-- The reference that an error calls cyclic. -/
def CheckError.reference? : CheckError → Option Reference
  | .cyclicReference sort name => some ⟨sort, name⟩
  | _ => none

/-- A property occurs in the expression, or a label that is not attached to the model. -/
inductive Expr.Mentions (m : Model) (e : Expr) : Reference → Prop where
  | property {name : String} {t : ValueType} (h : (Expr.property name t).Within e) : Mentions m e ⟨.property, name⟩
  | label {name : String} (h : (Expr.label name).Within e) (hm : m.labelStates? name = none) :
    Mentions m e ⟨.label, name⟩

theorem Expr.Mentions.child {m : Model} {e a : Expr} {x : Reference} (h : a.Mentions m x) (ha : a ∈ e.children) :
    e.Mentions m x := by
  cases h with
  | property h => exact .property (.step ha h)
  | label h hm => exact .label (.step ha h) hm

namespace Definitions

variable (d : Definitions) (m : Model)

/-- The body of the definition that a reference is to. -/
def body? (x : Reference) : Option Expr :=
  match x.sort with
  | .property => d.property? x.name
  | .label => d.label? x.name

/-- The definition of the first reference mentions the second. -/
def Refers (x y : Reference) : Prop := ∃ body, d.body? x = some body ∧ body.Mentions m y

/-- The references lead from the expression to this one. -/
def Reaches (e : Expr) (x : Reference) : Prop := ∃ y, e.Mentions m y ∧ Relation.ReflTransGen (d.Refers m) y x

/-- The references lead from this one back to it. -/
def IsCyclic (x : Reference) : Prop := Relation.TransGen (d.Refers m) x x

variable {d m}

theorem Reaches.child {e a : Expr} {x : Reference} (h : d.Reaches m a x) (ha : a ∈ e.children) : d.Reaches m e x := by
  obtain ⟨y, hy, hyx⟩ := h
  exact ⟨y, hy.child ha, hyx⟩

theorem Reaches.of_mentions {e : Expr} {x : Reference} (h : e.Mentions m x) : d.Reaches m e x := ⟨x, h, .refl⟩

/-- From a definition the references lead to everything that its body leads to. -/
theorem Reaches.transGen {body : Expr} {x y : Reference} (h : d.Reaches m body y) (hx : d.body? x = some body) :
    Relation.TransGen (d.Refers m) x y := by
  obtain ⟨z, hz, hzy⟩ := h
  exact Relation.TransGen.head' ⟨body, hx, hz⟩ hzy

end Definitions

theorem Entered.mem_names_push {e : Entered} {x y : Reference} (h : y.name ∈ (e.push x.sort x.name).names y.sort) :
    y = x ∨ y.name ∈ e.names y.sort := by
  obtain ⟨s, n⟩ := x
  obtain ⟨s', n'⟩ := y
  cases s <;> cases s' <;> simp_all [push, names, property, label]

/-! ## Errors -/

/-- The last question that was asked, at the end of the run, is one that a collaborator answers with this error. -/
inductive Checker.Answers (c : Checker) (m : Model) (err : CheckError) (r : Run) : Prop where
  | quant {solver : Solver} {before : List Call} {q : Request} (h : c.solver = some solver)
    (hlast : r.calls = .quant q :: before) (herr : solver.quant before q = .error err) : Answers c m err r
  | multi {solver : Solver} {before : List Call} {args : List Expr} {domain : Option StateSet}
    {answer : List Call → Model → List Expr → Option StateSet → Except CheckError StateVector}
    (h : c.solver = some solver) (hanswer : solver.multi = some answer)
    (hlast : r.calls = .multi args domain :: before) (herr : answer before m args domain = .error err) :
    Answers c m err r
  | rewards {source : RewardSource} {before : List Call} {index : UInt64} {allowNegative expected : Bool}
    (h : c.rewards = some source) (hlast : r.calls = .rewards index allowNegative expected :: before)
    (herr : source m index allowNegative expected = .error err) : Answers c m err r

/-- The collaborators know nothing of definitions: none of their errors calls a reference cyclic. -/
structure Checker.CollaboratorsBlameNone (c : Checker) : Prop where
  quant : ∀ solver ∈ c.solver, ∀ before request sort name,
    solver.quant before request ≠ .error (.cyclicReference sort name)
  multi : ∀ answer ∈ c.solver.bind (·.multi), ∀ before m args domain sort name,
    answer before m args domain ≠ .error (.cyclicReference sort name)
  rewards : ∀ source ∈ c.rewards, ∀ m index allowNegative expected sort name,
    source m index allowNegative expected ≠ .error (.cyclicReference sort name)

theorem Checker.CollaboratorsBlameNone.not_answers {c : Checker} (h : c.CollaboratorsBlameNone) {m : Model}
    {sort : ReferenceSort} {name : String} {r : Run} : ¬c.Answers m (.cyclicReference sort name) r := by
  intro hanswers
  cases hanswers with
  | quant hsolver _ herr => exact h.quant _ hsolver _ _ _ _ herr
  | multi hsolver hanswer _ herr => exact h.multi _ (by rw [hsolver]; exact hanswer) _ _ _ _ _ _ herr
  | rewards hsource _ herr => exact h.rewards _ hsource _ _ _ _ _ _ herr

/-- If the error calls a reference cyclic, then the expression leads to the reference, which is being expanded or on a
cycle, unless the error is the answer of a collaborator. -/
def Checker.Justifies (c : Checker) (m : Model) (entered : Entered) (e : Expr) (err : CheckError) (r : Run) : Prop :=
  ∀ x, err.reference? = some x →
    (c.definitions.Reaches m e x ∧ (x.name ∈ entered.names x.sort ∨ c.definitions.IsCyclic m x)) ∨
      c.Answers m err r

namespace Checker.Justifies

variable {c : Checker} {m : Model} {entered : Entered} {e : Expr} {err : CheckError} {r : Run}

theorem child {a : Expr} (h : c.Justifies m entered a err r) (ha : a ∈ e.children) :
    c.Justifies m entered e err r := by
  intro x hx
  rcases h x hx with ⟨hreach, hwhere⟩ | hanswers
  · exact Or.inl ⟨hreach.child ha, hwhere⟩
  · exact Or.inr hanswers

/-- A name that is being expanded is refused where it is mentioned. -/
theorem refused {x : Reference} (hmentions : e.Mentions m x) (hin : x.name ∈ entered.names x.sort) :
    c.Justifies m entered e (.cyclicReference x.sort x.name) r := by
  intro y hy
  cases hy
  exact Or.inl ⟨.of_mentions hmentions, Or.inl hin⟩

/-- What is justified in the body of a definition, with its name entered, is justified where it is mentioned: if the
reference is to this very definition, the path through the body is a cycle. -/
theorem body {x : Reference} {body : Expr} (h : c.Justifies m (entered.push x.sort x.name) body err r)
    (hmentions : e.Mentions m x) (hbody : c.definitions.body? x = some body) : c.Justifies m entered e err r := by
  intro y hy
  rcases h y hy with ⟨hreach, hwhere⟩ | hanswers
  · have hpath : Relation.TransGen (c.definitions.Refers m) x y := hreach.transGen hbody
    refine Or.inl ⟨⟨x, hmentions, hpath.to_reflTransGen⟩, ?_⟩
    rcases hwhere with hin | hcyclic
    · rcases Entered.mem_names_push hin with rfl | hin
      · exact Or.inr hpath
      · exact Or.inl hin
    · exact Or.inr hcyclic
  · exact Or.inr hanswers

end Checker.Justifies

/-! ## Failing -/

namespace Check

variable {α β : Type} {E : CheckError → Run → Prop}

/-- Whenever the computation fails, the error and the run that is left behind are related like this. -/
def Fails (E : CheckError → Run → Prop) (x : Check α) : Prop :=
  ∀ r err, outcome x r = .error err → E err (after x r)

namespace Fails

theorem pure (a : α) : Fails E (Pure.pure a : Check α) := fun _ _ h => by cases h

theorem throw {err : CheckError} (h : ∀ r, E err r) : Fails E (MonadExcept.throw err : Check α) := by
  intro r err' herr
  cases herr
  exact h _

theorem ofExcept {x : Except CheckError α} (h : ∀ err r, x = .error err → E err r) : Fails E (Check.ofExcept x) := by
  intro r err herr
  rw [outcome_ofExcept] at herr
  exact h err _ herr

theorem bind {x : Check α} {f : α → Check β} (hx : Fails E x) (hf : ∀ a, Fails E (f a)) : Fails E (x >>= f) := by
  intro r err herr
  cases h : outcome x r with
  | error err' =>
    rw [outcome_bind_error h] at herr
    rw [after_bind_error h]
    cases herr
    exact hx r _ h
  | ok a =>
    rw [outcome_bind_ok h] at herr
    rw [after_bind_ok h]
    exact hf a _ err herr

theorem ite {x y : Check α} {p : Prop} [Decidable p] (hx : Fails E x) (hy : Fails E y) :
    Fails E (if p then x else y) := by
  by_cases h : p
  · rw [if_pos h]
    exact hx
  · rw [if_neg h]
    exact hy

theorem mono {E' : CheckError → Run → Prop} {x : Check α} (hx : Fails E x) (h : ∀ err r, E err r → E' err r) :
    Fails E' x := fun r err herr => h err _ (hx r err herr)

/-- A question, which is the last one when its answer is an error. -/
theorem answered {call : Call} {answer : List Call → Except CheckError α}
    (h : ∀ before err r, r.calls = call :: before → answer before = .error err → E err r) :
    Fails E (do let before ← Check.ask call; Check.ofExcept (answer before)) := by
  intro r err herr
  have hask : outcome (Check.ask call) r = .ok r.calls := rfl
  rw [outcome_bind_ok hask, outcome_ofExcept] at herr
  refine h r.calls err _ ?_ herr
  rw [after_bind_ok hask, after_ofExcept]
  rfl

theorem answered_bind {call : Call} {answer : List Call → Except CheckError α} {f : α → Check β}
    (h : ∀ before err r, r.calls = call :: before → answer before = .error err → E err r)
    (hf : ∀ a, Fails E (f a)) :
    Fails E (do let before ← Check.ask call; let a ← Check.ofExcept (answer before); f a) := by
  rw [← bind_assoc]
  exact (answered h).bind hf

end Fails

end Check

/-- The relation has every run for the errors that call no reference cyclic, and for those that the last question
was answered with. -/
structure Checker.Admits (c : Checker) (m : Model) (E : CheckError → Run → Prop) : Prop where
  other : ∀ err r, err.reference? = none → E err r
  answer : ∀ err r, c.Answers m err r → E err r

theorem Checker.admits_justifies (c : Checker) (m : Model) (entered : Entered) (e : Expr) :
    c.Admits m (c.Justifies m entered e) := by
  constructor
  · intro err r herr x hx
    rw [herr] at hx
    cases hx
  · exact fun err r herr x _ => Or.inr herr

namespace Checker

section

variable {c : Checker} {m : Model} {entered : Entered} {domain : Option StateSet}
  {E : CheckError → Run → Prop}

/-! ### Steps without recursion -/

theorem Admits.throw {α : Type} (hE : c.Admits m E) {err : CheckError} (h : err.reference? = none) :
    Fails E (throw err : Check α) := Fails.throw fun r => hE.other err r h

theorem Admits.tells {α : Type} {x : Check α} (hE : c.Admits m E) (hx : Tells x) : Fails E x := by
  intro r err herr
  obtain ⟨v, rfl⟩ := hx.fails r err herr
  exact hE.other _ _ rfl

theorem Admits.ofEval {α : Type} (hE : c.Admits m E) (x : Except EvalError α) : Fails E (Check.ofEval x) :=
  hE.tells (Tells.ofEval x)

theorem lookupVector_fails (hE : c.Admits m E) (name : String) (t : ValueType) (value? : Nat → Option Value) :
    Fails E (lookupVector m name t domain value?) := by
  refine Fails.ofExcept fun err r herr => ?_
  rcases StateVector.tabulate_error herr with ⟨v, rfl⟩ | ⟨s, hs⟩
  · exact hE.other _ _ rfl
  · cases hvalue : value? s with
    | none =>
      rw [hvalue] at hs
      cases hs
      exact hE.other _ _ rfl
    | some v =>
      rw [hvalue] at hs
      cases hs

theorem builtinLabel_fails (hE : c.Admits m E) (name : String) : Fails E (builtinLabel m name) := by
  unfold builtinLabel
  exact Fails.ite (Fails.pure _) (Fails.ite (Fails.pure _) (hE.throw rfl))

theorem constantVector_fails (hE : c.Admits m E) (name : String) (t : ValueType) :
    Fails E (constantVector c m name t) := by
  unfold constantVector
  split
  · exact hE.throw rfl
  · split
    · exact hE.throw rfl
    · exact Fails.pure _

theorem observableVector_fails (hE : c.Admits m E) (name : String) (t : ValueType) :
    Fails E (observableVector c m name t domain) := by
  unfold observableVector
  split
  · exact hE.throw rfl
  · exact Fails.ite (lookupVector_fails hE _ _ _) (hE.throw rfl)

theorem askMulti_fails (hE : c.Admits m E) (args : List Expr) : Fails E (askMulti c m args domain) := by
  unfold askMulti
  cases hmulti : c.solver.bind (·.multi) with
  | none => exact hE.throw rfl
  | some answer =>
    obtain ⟨solver, hsolver, hanswer⟩ := Option.bind_eq_some_iff.mp hmulti
    exact Fails.answered fun before err r hlast herr => hE.answer err r (.multi hsolver hanswer hlast herr)

theorem buildRewards_fails (hE : c.Admits m E) (measure : Measure) : Fails E (buildRewards c m measure) := by
  unfold buildRewards
  cases measure with
  | probability => exact Fails.pure _
  | steadyState => exact Fails.pure _
  | reward index =>
    cases hsource : c.rewards with
    | none => exact hE.throw rfl
    | some source =>
      refine Fails.answered_bind (fun before err r hlast herr => hE.answer err r (.rewards hsource hlast herr))
        fun rewards => ?_
      exact Fails.ite (hE.throw rfl) (Fails.pure _)

theorem askQuant_fails (hE : c.Admits m E) {solver : Solver} (hsolver : c.solver = some solver) (q : Request) :
    Fails E (askQuant solver q) := by
  unfold askQuant
  refine Fails.answered_bind (fun before err r hlast herr => hE.answer err r (.quant hsolver hlast herr))
    fun values => ?_
  exact Fails.ite (hE.throw rfl) (Fails.pure _)

theorem select_fails (hE : c.Admits m E) (f : Filter) (states : StateSet) : Fails E (f.select m states) := by
  have hrest : ∀ s : Selection, Fails E (do
      if f.op = .state ∧ s.states.size ≠ 1 then throw (.filterCardinality f.selectorText s.states.size)
      Check.setHint (f.hint s)
      return s) := fun s => Fails.ite (hE.throw rfl) fun _ _ h => by cases h
  unfold Filter.select
  refine Fails.ite (hE.throw rfl) (Fails.ite ?_ (hrest _))
  exact (hE.tells (Tells.message _)).bind fun _ => hrest _

/-! ### Evaluation -/

/-- Whatever the domain, the evaluation of the expression fails with errors of this kind only. -/
def EvalFails (E : CheckError → Run → Prop) (c : Checker) (m : Model) (entered : Entered) (e : Expr) : Prop :=
  ∀ domain, Fails E (evalWith .whereOpen c m entered e domain)

theorem satisfying_fails (hE : c.Admits m E) {e : Expr} (he : EvalFails E c m entered e) :
    Fails E (satisfying .whereOpen c m entered domain e) := (he domain).bind fun _ => hE.ofEval _

theorem evalOver_fails {e : Expr} (he : EvalFails E c m entered e) (t : ValueType) (states : StateSet) :
    Fails E (evalOver c m entered e t states) := Fails.ite (Fails.pure _) (he _)

theorem ite_fails (hE : c.Admits m E) {cond t e : Expr} (hcond : EvalFails E c m entered cond)
    (ht : EvalFails E c m entered t) (he : EvalFails E c m entered e) :
    EvalFails E c m entered (.ite cond t e) := by
  intro domain
  rw [evalWith_ite]
  refine (satisfying_fails hE hcond).bind fun holds => (evalOver_fails ht _ _).bind fun tv => ?_
  exact (evalOver_fails he _ _).bind fun ev => hE.ofEval _

theorem binary_fails (hE : c.Admits m E) {op : BinaryOp} {l r : Expr} (hl : EvalFails E c m entered l)
    (hr : EvalFails E c m entered r) : EvalFails E c m entered (.binary op l r) := by
  intro domain
  by_cases hop : op.isLazy = true
  · rw [evalWith_lazy c m entered domain hop]
    refine (satisfying_fails hE hl).bind fun left => Fails.bind ?_ fun right => Fails.pure _
    exact (evalOver_fails hr _ _).bind fun rv => hE.ofEval _
  · rw [evalWith_strict .whereOpen c m entered domain fun h => hop h.2]
    exact (hl _).bind fun lv => (hr _).bind fun rv => hE.ofEval _

theorem unary_fails (hE : c.Admits m E) {op : UnaryOp} {e : Expr} (he : EvalFails E c m entered e) :
    EvalFails E c m entered (.unary op e) := by
  intro domain
  by_cases hop : op = .parenth
  · rw [hop, evalWith_parenth]
    exact he domain
  · rw [evalWith_unary .whereOpen c m entered domain hop]
    exact (he _).bind fun v => hE.ofEval _

theorem combineArgs_fails (hE : c.Admits m E) {f : Function} {t : ValueType} {args : List Expr}
    (hargs : ∀ a ∈ args, EvalFails E c m entered a) (acc : StateVector) :
    Fails E (combineArgs .whereOpen c m entered f t acc args domain) := by
  induction args generalizing acc with
  | nil =>
    rw [combineArgs_nil]
    exact Fails.pure _
  | cons a rest ih =>
    rw [combineArgs_cons]
    refine (hargs a List.mem_cons_self _).bind fun v => (hE.ofEval _).bind fun acc' => ?_
    exact ih (fun b hb => hargs b (List.mem_cons_of_mem a hb)) acc'

theorem call_fails (hE : c.Admits m E) {f : Function} {args : List Expr}
    (hargs : ∀ a ∈ args, EvalFails E c m entered a) : EvalFails E c m entered (.call f args) := by
  intro domain
  by_cases hmulti : f = .multi
  · rw [hmulti, evalWith_multi]
    exact askMulti_fails hE args
  · cases haccepts : f.accepts args.length with
    | false =>
      rw [evalWith_wrongArity .whereOpen c m entered domain hmulti haccepts]
      exact hE.throw rfl
    | true =>
      rcases Function.accepts_cases haccepts with ⟨hf, a, b, rest, rfl⟩ | ⟨hf, a, rfl⟩ | ⟨hf, a, b, rfl⟩
      · rw [evalWith_extremum .whereOpen c m entered domain hf]
        refine (hargs a List.mem_cons_self _).bind fun first => ?_
        exact combineArgs_fails hE (fun d hd => hargs d (List.mem_cons_of_mem a hd)) first
      · rw [evalWith_rounding .whereOpen c m entered domain hf]
        exact (hargs a List.mem_cons_self _).bind fun v => hE.ofEval _
      · rw [evalWith_dyadic .whereOpen c m entered domain hf]
        refine (hargs a List.mem_cons_self _).bind fun v => ?_
        exact (hargs b (by simp) _).bind fun w => hE.ofEval _

theorem filter_fails (hE : c.Admits m E) {op : FilterOp} {e : Expr} {p : Option Expr} {invisible explained : Bool}
    (he : EvalFails E c m entered e) (hp : ∀ a ∈ p, EvalFails E c m entered a) :
    EvalFails E c m entered (.filter op e p invisible explained) := by
  intro domain
  rw [evalWith_filter]
  refine Fails.bind ?_ fun states => ?_
  · cases p with
    | none => exact Fails.pure _
    | some p => exact satisfying_fails hE (hp p rfl)
  · unfold applyFilter
    refine (select_fails hE _ states).bind fun selection => (he _).bind fun v => ?_
    exact hE.tells ((Filter.reduce_tells _ _ _ _ _).bind fun reduced => Filter.record_tells _ _ _ _)

theorem quant_fails (hE : c.Admits m E) {measure : Measure} {query : Query} {e : Expr}
    (he : ∀ found, Fails E (extractFrom .whereOpen c m entered found e)) :
    EvalFails E c m entered (.quant measure query e) := by
  intro domain
  cases hsolver : c.solver with
  | none =>
    rw [evalWith_quant .whereOpen c m entered _ hsolver]
    exact hE.throw rfl
  | some solver =>
    rw [evalWith_quant_asked .whereOpen c m entered _ hsolver]
    refine (buildRewards_fails hE measure).bind fun rewards => (he []).bind fun _ => ?_
    exact Fails.bind (fun _ _ h => by cases h) fun run => askQuant_fails hE hsolver _

/-! ### Extraction -/

theorem extractFromAll_fails {es : List Expr}
    (hes : ∀ e ∈ es, ∀ found, Fails E (extractFrom .whereOpen c m entered found e)) (found : Found) :
    Fails E (extractFromAll .whereOpen c m entered found es) := by
  induction es generalizing found with
  | nil =>
    rw [extractFromAll_nil]
    exact Fails.pure _
  | cons e rest ih =>
    rw [extractFromAll_cons]
    refine (hes e List.mem_cons_self found).bind fun ⟨e', found₁⟩ => ?_
    exact (ih (fun a ha => hes a (List.mem_cons_of_mem e ha)) found₁).bind fun _ => Fails.pure _

theorem extractFromChildren_fails {e : Expr}
    (he : ∀ a ∈ e.children, ∀ found, Fails E (extractFrom .whereOpen c m entered found a)) (found : Found) :
    Fails E (extractFromChildren .whereOpen c m entered found e) := by
  rw [extractFromChildren_eq]
  exact (extractFromAll_fails he found).bind fun _ => Fails.pure _

end

/-! ## Every expression -/

variable {c : Checker} {m : Model} {entered : Entered}

/-- Evaluating and rewriting the expression fail with justified errors only. -/
structure OnlyJustified (c : Checker) (m : Model) (entered : Entered) (e : Expr) : Prop where
  eval : EvalFails (c.Justifies m entered e) c m entered e
  extract : ∀ found, Fails (c.Justifies m entered e) (extractFrom .whereOpen c m entered found e)

theorem label_justified {name : String}
    (hbody : ∀ body, c.definitions.label? name = some body → entered.labels.contains name = false →
      OnlyJustified c m (entered.label name) body) :
    EvalFails (c.Justifies m entered (.label name)) c m entered (.label name) := by
  intro domain
  have hE := c.admits_justifies m entered (.label name)
  cases hm : m.labelStates? name with
  | some states =>
    rw [evalWith_attached .whereOpen c m entered _ hm]
    exact Fails.pure _
  | none =>
    have hmentions : (Expr.label name).Mentions m ⟨.label, name⟩ := .label (.refl _) hm
    cases hd : c.definitions.label? name with
    | none =>
      rw [evalWith_builtin .whereOpen c m entered _ hm hd]
      exact builtinLabel_fails hE name
    | some body =>
      cases hn : entered.labels.contains name with
      | true =>
        rw [evalWith_cyclicLabel .whereOpen c m entered _ hm hd hn]
        exact Fails.throw fun r => .refused hmentions (List.contains_iff_mem.mp hn)
      | false =>
        rw [evalWith_definedLabel .whereOpen c m entered _ hm hd hn]
        exact ((hbody body hd hn).eval domain).mono fun err r h => h.body hmentions hd

theorem property_justified {name : String} {t : ValueType}
    (hbody : ∀ body, c.definitions.property? name = some body → entered.properties.contains name = false →
      OnlyJustified c m (entered.property name) body) :
    OnlyJustified c m entered (.property name t) := by
  have hE := c.admits_justifies m entered (.property name t)
  have hmentions : (Expr.property name t).Mentions m ⟨.property, name⟩ := .property (.refl _)
  cases hd : c.definitions.property? name with
  | none =>
    constructor
    · intro domain
      rw [evalWith_unknownProperty .whereOpen c m entered _ t hd]
      exact hE.throw rfl
    · intro found
      rw [extractFrom_unknownProperty .whereOpen c m entered found t hd]
      exact hE.throw rfl
  | some body =>
    cases hn : entered.properties.contains name with
    | true =>
      have hrefused : ∀ r, c.Justifies m entered (.property name t) (.cyclicReference .property name) r :=
        fun r => .refused hmentions (List.contains_iff_mem.mp hn)
      constructor
      · intro domain
        rw [evalWith_cyclicProperty .whereOpen c m entered _ t hd hn]
        exact Fails.throw hrefused
      · intro found
        rw [extractFrom_cyclicProperty .whereOpen c m entered found t hd hn]
        exact Fails.throw hrefused
    | false =>
      have hbody := hbody body hd hn
      constructor
      · intro domain
        rw [evalWith_definedProperty .whereOpen c m entered _ t hd hn]
        refine (hE.tells (Tells.message _)).bind fun _ => ?_
        exact (hbody.eval domain).mono fun err r h => h.body hmentions hd
      · intro found
        rw [extractFrom_definedProperty .whereOpen c m entered found t hd hn]
        exact (hbody.extract found).mono fun err r h => h.body hmentions hd

/-- Every error of an evaluation or of a rewrite is justified. -/
theorem onlyJustified (c : Checker) (m : Model) (entered : Entered) (e : Expr) : OnlyJustified c m entered e := by
  refine c.definitions.expansion_induction (P := OnlyJustified c m) (fun entered e ih => ?_) entered e
  have hE := c.admits_justifies m entered e
  have heval : ∀ a ∈ e.children, EvalFails (c.Justifies m entered e) c m entered a := fun a ha domain =>
    ((ih _ (Definitions.mem_successors_of_child ha)).eval domain).mono fun err r h => h.child ha
  have hextract : ∀ a ∈ e.children, ∀ found,
      Fails (c.Justifies m entered e) (extractFrom .whereOpen c m entered found a) := fun a ha found =>
    ((ih _ (Definitions.mem_successors_of_child ha)).extract found).mono fun err r h => h.child ha
  -- References to properties are the only expressions that the rewrite treats differently.
  by_cases hreference : ∃ name t, e = .property name t
  · obtain ⟨name, t, rfl⟩ := hreference
    exact property_justified fun body hd hn => ih _ (Definitions.mem_successors_of_property hd hn)
  have hself : EvalFails (c.Justifies m entered e) c m entered e := by
    cases e with
    | ite cond t e =>
      exact ite_fails hE (heval cond (by simp [Expr.children])) (heval t (by simp [Expr.children]))
        (heval e (by simp [Expr.children]))
    | binary op l r =>
      exact binary_fails hE (heval l (by simp [Expr.children])) (heval r (by simp [Expr.children]))
    | unary op e => exact unary_fails hE (heval e List.mem_cons_self)
    | call f args => exact call_fails hE heval
    | literal v =>
      intro domain
      rw [evalWith_literal]
      exact Fails.pure _
    | constant name t =>
      intro domain
      rw [evalWith_constant]
      exact constantVector_fails hE name t
    | ident name t =>
      intro domain
      rw [evalWith_ident]
      exact hE.throw rfl
    | formula name d t =>
      intro domain
      cases d with
      | none =>
        rw [evalWith_unexpanded]
        exact hE.throw rfl
      | some d =>
        rw [evalWith_expanded]
        exact heval d List.mem_cons_self domain
    | var name index t =>
      intro domain
      rw [evalWith_var]
      exact lookupVector_fails hE name t _
    | observable name t =>
      intro domain
      rw [evalWith_observable]
      exact observableVector_fails hE name t
    | label name => exact label_justified fun body hd hn => ih _ (Definitions.mem_successors_of_label hd hn)
    | property name t => exact absurd ⟨name, t, rfl⟩ hreference
    | filter op e p invisible explained =>
      refine filter_fails hE (heval e List.mem_cons_self) fun a ha => heval a ?_
      exact List.mem_cons_of_mem e (Option.mem_toList.mpr ha)
    | quant measure query e => exact quant_fails hE (hextract e List.mem_cons_self)
    | path op operands bound =>
      intro domain
      rw [evalWith_path]
      exact hE.throw rfl
  refine ⟨hself, fun found => ?_⟩
  by_cases hprop : e.type = .bool ∧ e.isProposition = true
  · rw [extractFrom_proposition .whereOpen c m entered found hprop]
    exact (satisfying_fails hE hself).bind fun holds => Fails.pure _
  · have hother : ∀ name t, e ≠ .property name t := fun name t h => hreference ⟨name, t, h⟩
    rw [extractFrom_children .whereOpen c m entered found hprop hother]
    exact extractFromChildren_fails hextract found

/-- If the computation says that a reference is cyclic, then the expression leads to this reference, and the references
lead from there back to it; or else the last question was answered with this error. -/
def BlamesCycles {α : Type} (c : Checker) (m : Model) (e : Expr) (x : Check α) : Prop :=
  ∀ r sort name, outcome x r = .error (.cyclicReference sort name) →
    (c.definitions.Reaches m e ⟨sort, name⟩ ∧ c.definitions.IsCyclic m ⟨sort, name⟩) ∨
      c.Answers m (.cyclicReference sort name) (after x r)

theorem blamesCycles {α : Type} {e : Expr} {x : Check α} (hx : Fails (c.Justifies m .none e) x) :
    c.BlamesCycles m e x := by
  intro r sort name herr
  rcases hx r _ herr ⟨sort, name⟩ rfl with ⟨hreach, hin | hcyclic⟩ | hanswers
  -- Nothing is being expanded at the start.
  · cases sort <;> cases hin
  · exact Or.inl ⟨hreach, hcyclic⟩
  · exact Or.inr hanswers

theorem BlamesCycles.cyclic {α : Type} {e : Expr} {x : Check α} (hx : c.BlamesCycles m e x)
    (hc : c.CollaboratorsBlameNone) {r : Run} {sort : ReferenceSort} {name : String}
    (h : outcome x r = .error (.cyclicReference sort name)) :
    c.definitions.Reaches m e ⟨sort, name⟩ ∧ c.definitions.IsCyclic m ⟨sort, name⟩ :=
  (hx r sort name h).resolve_right hc.not_answers

/-- Evaluating and rewriting an expression, and finding the states of a label, come to an end on any definitions: from
some depth of calls on, which depends neither on the domain nor on the run, the calls come back with a result or
an error, and the stacks of names are as they were. And no reference is called cyclic that is not on a cycle, except by
a collaborator; if none of these ever does so, then every cycle that is reported is one to which the expression leads. -/
theorem expansion_terminates (c : Checker) (m : Model) :
    (∀ entered e, ∃ depth, ∀ n ≥ depth,
      (∀ domain r, (c.calls m n).eval e domain (entered, r) =
        some (outcome (c.eval m entered e domain) r, (entered, after (c.eval m entered e domain) r))) ∧
      ∀ found r, (c.calls m n).rewrite found e (entered, r) =
        some (outcome (c.extractFrom .whereOpen m entered found e) r,
          (entered, after (c.extractFrom .whereOpen m entered found e) r))) ∧
    (∀ entered name, ∃ depth, ∀ n ≥ depth, ∀ domain r, (c.calls m n).checkLabel c m name domain (entered, r) =
      some (outcome (c.eval m entered (.label name) domain) r,
        (entered, after (c.eval m entered (.label name) domain) r))) ∧
    (∀ e domain, c.BlamesCycles m e (c.eval m .none e domain)) ∧
    (∀ e found, c.BlamesCycles m e (c.extractFrom .whereOpen m .none found e)) ∧
    (c.CollaboratorsBlameNone → ∀ e r sort name,
      ((∃ domain, outcome (c.eval m .none e domain) r = .error (.cyclicReference sort name)) ∨
        ∃ found, outcome (c.extractFrom .whereOpen m .none found e) r = .error (.cyclicReference sort name)) →
      c.definitions.Reaches m e ⟨sort, name⟩ ∧ c.definitions.IsCyclic m ⟨sort, name⟩) := by
  have heval : ∀ e domain, c.BlamesCycles m e (c.eval m .none e domain) :=
    fun e domain => blamesCycles ((onlyJustified c m .none e).eval domain)
  have hextract : ∀ e found, c.BlamesCycles m e (c.extractFrom .whereOpen m .none found e) :=
    fun e found => blamesCycles ((onlyJustified c m .none e).extract found)
  refine ⟨fun entered e => ?_, checkLabel_eventually c m, heval, hextract, fun hc e r sort name h => ?_⟩
  · obtain ⟨depth, hdepth⟩ := calls_faithful c m entered e
    exact ⟨depth, fun n hn => ⟨(hdepth n hn).eval, (hdepth n hn).rewrite⟩⟩
  · rcases h with ⟨domain, h⟩ | ⟨found, h⟩
    · exact (heval e domain).cyclic hc h
    · exact (hextract e found).cyclic hc h

/-! ### A label that refers to itself -/

/-- The label `loop` holds where `x > 0` or the label itself does. -/
def looping : Checker :=
  { bare with definitions := { Definitions.empty with labels := [⟨"loop",
    .binary .or (.binary .gt (.var "x" 0 .int) (.literal (.int 0))) (.label "loop")⟩] } }

/-- In the second state the left operand decides, in the first one the label is met again. -/
theorem eval_loop :
    looping.eval .twoStates .none (.label "loop") none .start = (.error (.cyclicReference .label "loop"), .start) := by
  let entered : Entered := ⟨[], ["loop"]⟩
  have hpositive : satisfying .whereOpen looping .twoStates entered none
      (.binary .gt (.var "x" 0 .int) (.literal (.int 0))) .start = (.ok (.singleton 1), .start) := by
    unfold satisfying
    rw [evalWith_strict .whereOpen _ _ _ _ (by decide), evalWith_var, evalWith_literal]
    rfl
  have hagain : satisfyingOver looping .twoStates entered (.label "loop") (.singleton 0) .start =
      (.error (.cyclicReference .label "loop"), .start) := by
    unfold satisfyingOver evalOver
    rw [evalWith_cyclicLabel .whereOpen looping .twoStates entered _ rfl rfl rfl]
    rfl
  unfold eval
  rw [evalWith_definedLabel .whereOpen looping .twoStates .none none rfl rfl rfl]
  show evalWith .whereOpen looping .twoStates entered _ none .start = _
  rw [evalWith_lazy looping .twoStates entered none rfl, run_bind_ok (congrArg Prod.fst hpositive),
    show after _ _ = Run.start from congrArg Prod.snd hpositive]
  exact (run_bind_error (congrArg Prod.fst hagain)).trans
    (congrArg (Prod.mk _) (congrArg Prod.snd hagain))

/-- The label is refused, with nothing left on the stacks, and it is on a cycle: there is no collaborator that could
have said so. -/
theorem expansion_terminates_loop :
    (∃ depth, ∀ n ≥ depth, (looping.calls .twoStates n).eval (.label "loop") none (.none, .start) =
      some (.error (.cyclicReference .label "loop"), (.none, .start))) ∧
      looping.definitions.IsCyclic .twoStates ⟨.label, "loop"⟩ := by
  obtain ⟨hreturns, -, -, -, hcyclic⟩ := expansion_terminates looping .twoStates
  constructor
  · obtain ⟨depth, hdepth⟩ := hreturns .none (.label "loop")
    refine ⟨depth, fun n hn => ?_⟩
    rw [(hdepth n hn).1 none .start]
    unfold outcome after
    rw [eval_loop]
  · have hnone : looping.CollaboratorsBlameNone := ⟨nofun, nofun, nofun⟩
    have herror : outcome (looping.eval .twoStates .none (.label "loop") none) .start =
        .error (.cyclicReference .label "loop") := congrArg Prod.fst eval_loop
    exact (hcyclic hnone (.label "loop") .start .label "loop" (.inl ⟨none, herror⟩)).2

end Checker

end Statewise
