import Statewise.Proofs.Composing
import Statewise.Proofs.Generated
import Statewise.Proofs.Hints

/-!
# What collaborators are asked

Every request that goes to the solver is about a quantity that the evaluation comes to, from however deep, and has the
operand and the labels that one extraction from the operand of this quantity has yielded (`WellAsked`). What goes to the
minimiser are the labels of an extraction from the expression that is checked (`WellChecked`). In a request every label
of the operand is a label of the request, and means there what it was made for, also if the model has a label of that
name.
-/

namespace Statewise

open Check

/-! ## Questions -/

namespace Check

variable {α β : Type} {G : Call → Prop}

/-- All questions that the computation asks are of a kind. -/
def Asks (G : Call → Prop) (x : Check α) : Prop := ∀ r, ∀ q ∈ (after x r).calls, q ∈ r.calls ∨ G q

namespace Asks

/-- A computation that asks nothing. -/
theorem silent {x : Check α} (h : ∀ r, (after x r).calls = r.calls) : Asks G x := by
  intro r q hq
  rw [h r] at hq
  exact Or.inl hq

theorem pure (a : α) : Asks G (Pure.pure a : Check α) := silent fun _ => rfl

theorem throw (e : CheckError) : Asks G (MonadExcept.throw e : Check α) := silent fun _ => rfl

theorem tells {x : Check α} (hx : Tells x) : Asks G x := silent hx.calls

theorem ofEval (x : Except EvalError α) : Asks G (Check.ofEval x) := tells (Tells.ofEval x)

theorem ofExcept (x : Except CheckError α) : Asks G (Check.ofExcept x) := silent fun r => by rw [after_ofExcept]

theorem ofModel (x : Except ModelError α) : Asks G (Check.ofModel x) := by
  cases x with
  | ok a => exact pure a
  | error e => exact throw _

theorem ask {q : Call} (hq : G q) : Asks G (Check.ask q) := by
  intro r p hp
  rcases List.mem_cons.mp hp with rfl | hp
  · exact Or.inr hq
  · exact Or.inl hp

/-- One computation after the other; the second one gets something that the first one can yield. -/
theorem bind {x : Check α} {f : α → Check β} (hx : Asks G x)
    (hf : ∀ a, (∃ r r', x r = (.ok a, r')) → Asks G (f a)) : Asks G (x >>= f) := by
  intro r q hq
  cases h : outcome x r with
  | error e =>
    rw [after_bind_error h] at hq
    exact hx r q hq
  | ok a =>
    rw [after_bind_ok h] at hq
    rcases hf a ⟨r, after x r, Prod.ext h rfl⟩ _ q hq with hq | hq
    · exact hx r q hq
    · exact Or.inr hq

theorem next {x : Check α} {f : α → Check β} (hx : Asks G x) (hf : ∀ a, Asks G (f a)) : Asks G (x >>= f) :=
  hx.bind fun a _ => hf a

theorem ite {x y : Check α} {p : Prop} [Decidable p] (hx : Asks G x) (hy : Asks G y) :
    Asks G (if p then x else y) := by
  by_cases h : p
  · rw [if_pos h]
    exact hx
  · rw [if_neg h]
    exact hy

theorem mono {G' : Call → Prop} {x : Check α} (hx : Asks G x) (h : ∀ q, G q → G' q) : Asks G' x :=
  fun r q hq => (hx r q hq).imp_right (h q)

theorem mapM {xs : List α} {f : α → Check β} (h : ∀ x ∈ xs, Asks G (f x)) : Asks G (xs.mapM f) := by
  induction xs with
  | nil => exact pure []
  | cons x xs ih =>
    rw [List.mapM_cons]
    refine (h x List.mem_cons_self).next fun y => ?_
    exact (ih fun z hz => h z (List.mem_cons_of_mem x hz)).next fun ys => pure _

end Asks

end Check

namespace Checker

variable {c : Checker} {m : Model} {entered : Entered} {domain : Option StateSet} {G : Call → Prop}

/-- A kind of questions to which all questions belong that are not about quantities, apart from minimisations. -/
structure Poses (G : Call → Prop) : Prop where
  multi : ∀ args domain, G (.multi args domain)
  rewards : ∀ index allowNegative expected, G (.rewards index allowNegative expected)

/-! ## Evaluation -/

/-- Whatever the domain, evaluating the expression asks questions of the kind only. -/
def EvalAsks (G : Call → Prop) (c : Checker) (m : Model) (entered : Entered) (e : Expr) : Prop :=
  ∀ domain, Asks G (evalWith .whereOpen c m entered e domain)

/-- And so does rewriting it, whatever labels there are already. -/
def ExtractAsks (G : Call → Prop) (c : Checker) (m : Model) (entered : Entered) (e : Expr) : Prop :=
  ∀ found, Asks G (extractFrom .whereOpen c m entered found e)

theorem Poses.composes (hG : Poses G) (c : Checker) (m : Model) : c.Composes m fun _ x => Asks G x where
  throw := Asks.throw
  tells := Asks.tells
  bind := Asks.bind
  multi args domain := Asks.ask (hG.multi args domain)
  rewards index allowNegative expected := Asks.ask (hG.rewards index allowNegative expected)

/-- Evaluating and rewriting an expression ask questions of the kind only, if the requests for the quantities are of it
that they may come to. -/
theorem eval_extract_ask (hG : Poses G) {e : Expr} (hrequests : RequestsBy (fun _ x => Asks G x) c m entered e) :
    EvalAsks G c m entered e ∧ ExtractAsks G c m entered e := by
  have hselects : SelectsBy (fun _ x => Asks G x) c m entered e := fun _ _ _ _ _ _ _ states _ =>
    Asks.silent fun r => (Filter.select_setsHint _ m states r).1
  exact (hG.composes c m).whole entered e hselects hrequests

end Checker

/-! ## Requests -/

/-- The label of a list whose names are all different is found under its name. -/
theorem Found.lookup_of_mem {found : Found} (h : (found.map Prod.fst).Nodup) {name : String} {states : StateSet}
    (hmem : (name, states) ∈ found) : found.lookup name = some states := by
  induction found with
  | nil => cases hmem
  | cons p rest ih =>
    obtain ⟨name', states'⟩ := p
    rw [List.map_cons, List.nodup_cons] at h
    rcases List.mem_cons.mp hmem with heq | hrest
    · cases heq
      simp
    · have hne : name ≠ name' := fun heq => h.1 (List.mem_map.mpr ⟨(name, states), hrest, heq⟩)
      rw [List.lookup_cons, beq_false_of_ne hne]
      exact ih h.2 hrest

/-- Every label in the operand of the request is one of its own, and the request says that it holds in the states for
which it was made, whatever labels the model has. -/
def Request.Resolves (q : Request) : Prop :=
  ∀ name, (Expr.label name).Within q.operand → ∃ states, (name, states) ∈ q.labels ∧ q.labelStates? name = some states

namespace Checker

variable {c : Checker} {m : Model} {entered : Entered}

theorem WellExtracted.resolves {e e' : Expr} {labels : Found} {r r' : Run}
    (h : WellExtracted c m entered e r e' labels r') (measure : Measure) (query : Query) (rewards : Option Rewards)
    (domain : Option StateSet) (hint : Option Hint) :
    Request.Resolves ⟨m, measure, query, e', labels, rewards, domain, hint⟩ := by
  intro name hname
  obtain ⟨states, hmem⟩ := h.closed _ hname
  refine ⟨states, hmem, ?_⟩
  unfold Request.labelStates?
  rw [Found.lookup_of_mem h.numbered.nodup hmem]

/-- The question belongs to an evaluation or a rewriting of the expression on the model. It is a request for a quantity
that this may come to, with what one extraction from the operand of the quantity has yielded; or it is about something
else, which is not a minimisation. -/
def WellAsked (c : Checker) (m : Model) (entered : Entered) (e : Expr) : Call → Prop
  | .quant q => q.model = m ∧
    (∃ entered' operand r r',
      c.definitions.ComesTo (entered, e) (entered', .quant q.measure q.query operand) ∧
        WellExtracted c m entered' operand r q.operand q.labels r') ∧
    q.Resolves
  | .minimise _ => False
  | .multi .. | .rewards .. => True

theorem poses_wellAsked (c : Checker) (m : Model) (entered : Entered) (e : Expr) : Poses (c.WellAsked m entered e) :=
  ⟨fun _ _ => trivial, fun _ _ _ => trivial⟩

theorem requestsBy_wellAsked (c : Checker) (m : Model) (entered : Entered) (e : Expr) :
    RequestsBy (fun _ x => Asks (c.WellAsked m entered e) x) c m entered e := by
  intro entered' measure query operand hto e' labels ⟨r, r', hextract⟩ rewards domain hint
  have hwell : WellExtracted c m entered' operand r e' labels r' := wellExtracted hextract
  exact Asks.ask ⟨rfl, ⟨entered', operand, r, r', hto, hwell⟩, hwell.resolves measure query rewards domain hint⟩

theorem eval_extract_wellAsked (c : Checker) (m : Model) (entered : Entered) (e : Expr) :
    EvalAsks (c.WellAsked m entered e) c m entered e ∧ ExtractAsks (c.WellAsked m entered e) c m entered e :=
  eval_extract_ask (poses_wellAsked c m entered e) (requestsBy_wellAsked c m entered e)

/-! ## Calls of the checker -/

theorem restart_asks {G : Call → Prop} (parameters : Option String) : Asks G (Check.restart parameters) :=
  Asks.silent fun _ => rfl

theorem eval_asks (c : Checker) (m : Model) (entered : Entered) (e : Expr) (domain : Option StateSet) :
    Asks (c.WellAsked m entered e) (c.eval m entered e domain) := (eval_extract_wellAsked c m entered e).1 domain

theorem extract_asks (c : Checker) (m : Model) (e : Expr) : Asks (c.WellAsked m .none e) (c.extract m e) :=
  (restart_asks none).next fun _ => (eval_extract_wellAsked c m .none e).2 []

theorem checkExpression_asks (c : Checker) (m : Model) (e : Expr) (domain : Option StateSet) :
    Asks (c.WellAsked m .none e) (c.checkExpression m e domain) :=
  (restart_asks _).next fun _ => eval_asks c m .none e domain

theorem checkLabels_asks (c : Checker) (m : Model) (names : List String) :
    Asks (fun q => ∃ name ∈ names, c.WellAsked m .none (.label name) q) (c.checkLabels m names) := by
  refine (restart_asks none).next fun _ => Asks.mapM fun name hname => ?_
  refine Asks.next ?_ fun v => Asks.ofEval _
  exact (eval_asks c m .none (.label name) none).mono fun q hq => ⟨name, hname, hq⟩

theorem registerFormulas_asks (c : Checker) (m : Model) (e : Expr) :
    Asks (c.WellAsked m .none e) (c.registerFormulas m e) :=
  (extract_asks c m e).next fun (_, _) => (Asks.ofModel _).next fun (_, _) => Asks.pure _

/-- An extraction as users ask for it starts afresh. -/
theorem extract_wellExtracted {e e' : Expr} {labels : Found} {r r' : Run}
    (h : c.extract m e r = (.ok (e', labels), r')) :
    WellExtracted c m .none e (after (Check.restart none) r) e' labels r' := by
  obtain ⟨u, r₁, hrestart, h⟩ := run_bind_eq_ok h
  cases hrestart
  exact wellExtracted h

/-- The question belongs to a check of the expression. It is asked on the way to what is checked in place of the
expression or about that; or it hands the labels that were extracted from the expression to the minimiser. -/
def WellChecked (c : Checker) (m : Model) (e : Expr) (q : Call) : Prop :=
  c.WellAsked m .none e q ∨
  (∃ m' e' r r', c.minimised m e r = (.ok (m', e'), r') ∧ c.WellAsked m' .none e' q) ∨
  ∃ labels r e' r', q = .minimise labels ∧ WellExtracted c m .none e r e' labels r'

theorem minimised_asks (c : Checker) (m : Model) (e : Expr) : Asks (c.WellChecked m e) (c.minimised m e) := by
  unfold minimised
  refine Asks.ite (Asks.pure _) ?_
  split
  · exact (Asks.tells (Tells.message _)).next fun _ => Asks.pure _
  · refine ((extract_asks c m e).mono fun q => Or.inl).bind fun (e', labels) ⟨r, r', hextract⟩ => ?_
    have hlabels : c.WellChecked m e (.minimise labels) :=
      .inr (.inr ⟨labels, _, e', r', rfl, extract_wellExtracted hextract⟩)
    have hdiscard : Asks (c.WellChecked m e) (discard (Check.ask (.minimise labels))) :=
      (Asks.ask hlabels).next fun _ => Asks.pure _
    refine hdiscard.next fun _ => (Asks.ofExcept _).next fun m' => ?_
    exact (Asks.tells (Tells.message _)).next fun _ => Asks.pure _

theorem check_asks (c : Checker) (m : Model) (e : Expr) : Asks (c.WellChecked m (c.prepared m e)) (c.check m e) := by
  refine (minimised_asks c m _).bind fun (m', e') ⟨r, r', hminimised⟩ => (restart_asks _).next fun _ => ?_
  have heval : Asks (c.WellChecked m (c.prepared m e)) (c.eval m' .none e' none) :=
    (eval_asks c m' .none e' none).mono fun q hq => .inr (.inl ⟨m', e', r, r', hminimised, hq⟩)
  refine heval.next fun values => Asks.next (Asks.silent fun _ => rfl) fun run => ?_
  exact (Asks.tells (Tells.message _)).next fun _ => Asks.pure _

/-- What is checked in place of an expression on a minimised model has been extracted from it, and the minimiser has got
the labels of the extraction. -/
theorem minimised_wellExtracted {minimiser : Minimiser} (hsettings : c.settings.minimise = true)
    (hminimiser : c.minimiser = some minimiser) {m' : Model} {e e' : Expr} {r r' : Run}
    (h : c.minimised m e r = (.ok (m', e'), r')) :
    ∃ labels r₁, WellExtracted c m .none e (after (Check.restart none) r) e' labels r₁ ∧ minimiser m labels = .ok m' := by
  unfold minimised at h
  rw [hsettings, hminimiser] at h
  obtain ⟨⟨e₁, labels⟩, r₁, hextract, h⟩ := run_bind_eq_ok h
  obtain ⟨_, r₂, -, h⟩ := run_bind_eq_ok h
  obtain ⟨m₁, r₃, hm, h⟩ := run_bind_eq_ok h
  obtain ⟨_, r₄, -, h⟩ := run_bind_eq_ok h
  cases h
  refine ⟨labels, r₁, extract_wellExtracted hextract, ?_⟩
  rw [← outcome_ofExcept (minimiser m labels) r₂]
  exact congrArg Prod.fst hm

/-- What extraction yields is closed, without duplicates and without trivial labels, whoever asks for it: users, the
evaluation of a quantity or the minimisation. And whatever is asked of the checker, every request that goes to its
solver is for a quantity that the evaluation comes to, has what such an extraction from the operand of this quantity has
yielded, and resolves the labels of its operand to the sets that they were made for. -/
theorem extraction_closed (c : Checker) (m : Model) (e : Expr) :
    (∀ entered r e' labels r', c.extractFrom .whereOpen m entered [] e r = (.ok (e', labels), r') →
      WellExtracted c m entered e r e' labels r') ∧
    (∀ r e' labels r', c.extract m e r = (.ok (e', labels), r') →
      WellExtracted c m .none e (after (Check.restart none) r) e' labels r') ∧
    (∀ minimiser, c.settings.minimise = true → c.minimiser = some minimiser →
      ∀ r m' e' r', c.minimised m e r = (.ok (m', e'), r') →
        ∃ labels r₁, WellExtracted c m .none e (after (Check.restart none) r) e' labels r₁ ∧
          minimiser m labels = .ok m') ∧
    Asks (c.WellChecked m (c.prepared m e)) (c.check m e) ∧
    (∀ domain, Asks (c.WellAsked m .none e) (c.checkExpression m e domain)) ∧
    Asks (c.WellAsked m .none e) (c.extract m e) ∧ Asks (c.WellAsked m .none e) (c.registerFormulas m e) ∧
    ∀ names, Asks (fun q => ∃ name ∈ names, c.WellAsked m .none (.label name) q) (c.checkLabels m names) :=
  ⟨fun _ _ _ _ _ h => wellExtracted h, fun _ _ _ _ h => extract_wellExtracted h,
    fun _ hsettings hminimiser _ _ _ _ h => minimised_wellExtracted hsettings hminimiser h, check_asks c m e,
    checkExpression_asks c m e, extract_asks c m e, registerFormulas_asks c m e, checkLabels_asks c m⟩

/-! ### A label that the model has, too -/

/-- A checker with a solver that always says yes and a minimiser that leaves the model as it is. -/
def collaborating : Checker :=
  { withSolver [] with settings := { minimise := true }, minimiser := some fun m _ => .ok m }

end Checker

/-- `F x = 1` -/
def Expr.reachesOne : Expr := .path .eventually [.binary .eq (.var "x" 0 .int) (.literal (.int 1))] none

/-- `F "L0"` -/
def Expr.reachesLabel : Expr := .path .eventually [.label "L0"] none

namespace Checker

theorem extractFrom_reachesOne (entered : Entered) :
    collaborating.extractFrom .whereOpen .twoStatesNumbered entered [] .reachesOne =
      return (.reachesLabel, [("L0", .singleton 1)]) := by
  have hpath : ¬(Expr.reachesOne.type = .bool ∧ Expr.reachesOne.isProposition = true) :=
    fun h => Bool.false_ne_true h.2
  have hone : satisfying .whereOpen collaborating .twoStatesNumbered entered none
      (.binary .eq (.var "x" 0 .int) (.literal (.int 1))) = return .singleton 1 := by
    unfold satisfying
    rw [evalWith_strict .whereOpen _ _ _ _ (by decide), evalWith_var, evalWith_literal]
    rfl
  unfold Expr.reachesOne at hpath ⊢
  rw [extractFrom_children _ _ _ _ _ hpath (by simp), extractFromChildren_path, extractFromAll_cons,
    extractFrom_proposition _ _ _ _ _ ⟨rfl, rfl⟩, hone]
  simp only [extractFromAll_nil, pure_bind]
  rfl

/-- The request for `P>=1 [ F x=1 ]` has a label of the name that the model has given to the other state. -/
theorem mem_calls_reachesOne :
    Call.quant ⟨.twoStatesNumbered, .probability, .bound .ge 1, .reachesLabel, [("L0", .singleton 1)], none, none,
        none⟩ ∈
      (after (collaborating.checkExpression .twoStatesNumbered (.quant .probability (.bound .ge 1) .reachesOne) none)
        .start).calls := by
  unfold checkExpression eval
  rw [evalWith_quant_asked _ _ _ _ _ (show collaborating.solver = some _ from rfl), extractFrom_reachesOne]
  exact List.mem_cons_self

theorem extraction_closed_reachesOne :
    WellExtracted collaborating .twoStatesNumbered ⟨["p"], []⟩ .reachesOne .start .reachesLabel
        [("L0", .singleton 1)] .start ∧
      (∃ r', WellExtracted collaborating .twoStatesNumbered .none .reachesOne (after (Check.restart none) .start)
        .reachesLabel [("L0", .singleton 1)] r') ∧
      (∃ labels r₁, WellExtracted collaborating .twoStatesNumbered .none .reachesOne
        (after (Check.restart none) .start) .reachesLabel labels r₁) ∧
      (∃ entered' operand r r', collaborating.definitions.ComesTo
          (.none, .quant .probability (.bound .ge 1) .reachesOne) (entered', .quant .probability (.bound .ge 1) operand) ∧
        WellExtracted collaborating .twoStatesNumbered entered' operand r .reachesLabel [("L0", .singleton 1)] r') ∧
      Request.labelStates? ⟨.twoStatesNumbered, .probability, .bound .ge 1, .reachesLabel, [("L0", .singleton 1)], none,
        none, none⟩ "L0" = some (.singleton 1) ∧
      Model.twoStatesNumbered.labelStates? "L0" = some (.singleton 0) := by
  obtain ⟨hfrom, hextract, hminimised, -⟩ := extraction_closed collaborating .twoStatesNumbered .reachesOne
  obtain ⟨-, -, -, -, hasks, -⟩ :=
    extraction_closed collaborating .twoStatesNumbered (.quant .probability (.bound .ge 1) .reachesOne)
  obtain ⟨-, hprepared, hresolves⟩ :=
    (hasks none .start _ mem_calls_reachesOne).resolve_left (List.not_mem_nil)
  refine ⟨?_, ?_, ?_, hprepared, ?_, rfl⟩
  · exact hfrom ⟨["p"], []⟩ .start _ _ _ (by rw [extractFrom_reachesOne]; rfl)
  · refine ⟨_, hextract .start _ _ (after (Check.restart none) .start) ?_⟩
    unfold extract
    rw [extractFrom_reachesOne]
    rfl
  · have h : ∃ r', collaborating.minimised .twoStatesNumbered .reachesOne .start =
        (.ok (.twoStatesNumbered, .reachesLabel), r') := by
      unfold minimised extract
      rw [extractFrom_reachesOne]
      exact ⟨_, rfl⟩
    obtain ⟨r', h⟩ := h
    obtain ⟨labels, r₁, hwell, -⟩ := hminimised _ rfl rfl .start _ _ r' h
    exact ⟨labels, r₁, hwell⟩
  · obtain ⟨states, hmem, hstates⟩ := hresolves "L0" (.step List.mem_cons_self (.refl _))
    cases List.mem_singleton.mp hmem
    exact hstates

end Checker

end Statewise
