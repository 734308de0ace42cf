import Statewise.Proofs.Fullness
import Statewise.Proofs.Narrowing
import Mathlib

/-!
# Extracted state formulas

Replacing the maximal state formulas of an expression by labels of the model preserves its meaning. A formula
is evaluated over all states and its set is attached, while the expression itself evaluates it over narrowed
domains only: the two agree because a narrower evaluation follows a wider one. References to properties are
expanded on the way, so they have to declare the type of what they stand for.
-/

namespace Statewise

open Check StateVector

/-- References to properties declare the type of the property. -/
def Definitions.Declares (d : Definitions) : Expr → Prop
  | .property name t => ∀ body, d.property? name = some body → t = body.type
  | _ => True

/-- Where filters keep whole vectors only and references declare their types, parts can be replaced by what means the
same. -/
abbrev Definitions.Replaceable (d : Definitions) (a : Expr) : Prop := a.KeepsWhole ∧ d.Declares a

/-! ## Labels that are made -/

namespace Found

variable {n : Nat} {found found' : Found}

/-- The labels are `L0`, `L1`, … in this order. -/
def Numbered (found : Found) : Prop :=
  found.map Prod.fst = (List.range found.length).map fun i => "L" ++ toString i

theorem Numbered.nodup (h : found.Numbered) : (found.map Prod.fst).Nodup := by
  unfold Numbered at h
  rw [h]
  refine List.Nodup.map (fun i j hij => ?_) List.nodup_range
  simp only [toString] at hij
  exact Nat.repr_injective ((String.append_right_inj "L").mp hij)

/-- More labels than before: old ones stay, new ones are numbered and hold in real states. -/
structure Extends (n : Nat) (found found' : Found) : Prop where
  sub : ∀ p ∈ found, p ∈ found'
  numbered : found.Numbered → found'.Numbered
  lt : (∀ p ∈ found, ∀ s ∈ p.2, s < n) → ∀ p ∈ found', ∀ s ∈ p.2, s < n

theorem Extends.refl (n : Nat) (found : Found) : Extends n found found :=
  ⟨fun _ hp => hp, fun h => h, fun h => h⟩

theorem Extends.trans {found'' : Found} (h : Extends n found found') (h' : Extends n found' found'') :
    Extends n found found'' :=
  ⟨fun p hp => h'.sub p (h.sub p hp), fun hnum => h'.numbered (h.numbered hnum), fun hlt => h'.lt (h.lt hlt)⟩

/-- A set has a label already, or gets the next one. -/
theorem labelFor_cases (found : Found) (states : StateSet) :
    (∃ name, (name, states) ∈ found ∧ found.labelFor states = (name, found)) ∨
      (states ∉ found.map Prod.snd ∧
        found.labelFor states =
          ("L" ++ toString found.length, found ++ [("L" ++ toString found.length, states)])) := by
  unfold labelFor
  cases hfind : found.find? (·.2 == states) with
  | some p =>
    obtain ⟨name, states'⟩ := p
    have hsame : states' = states := by simpa using List.find?_some hfind
    have hmem : (name, states') ∈ found := List.mem_of_find?_eq_some hfind
    rw [hsame] at hmem
    exact Or.inl ⟨name, hmem, rfl⟩
  | none =>
    refine Or.inr ⟨fun hmem => ?_, rfl⟩
    obtain ⟨p, hp, rfl⟩ := List.mem_map.mp hmem
    have hne := List.find?_eq_none.mp hfind p hp
    simp at hne

theorem Numbered.append (h : found.Numbered) (states : StateSet) :
    Numbered (found ++ [("L" ++ toString found.length, states)]) := by
  unfold Numbered at h ⊢
  simp only [List.map_append, List.length_append, List.length_singleton, List.range_succ, h]
  rfl

/-- A set gets a label that stands for it. -/
theorem labelFor_spec (found : Found) {states : StateSet} (hlt : ∀ s ∈ states, s < n) :
    ((found.labelFor states).1, states) ∈ (found.labelFor states).2 ∧
      Extends n found (found.labelFor states).2 := by
  rcases found.labelFor_cases states with ⟨name, hmem, h⟩ | ⟨-, h⟩ <;> rw [h]
  · exact ⟨hmem, Extends.refl n found⟩
  · refine ⟨by simp, fun p hp => List.mem_append_left _ hp, fun hnum => hnum.append states, fun hfound p hp => ?_⟩
    rcases List.mem_append.mp hp with hp | hp
    · exact hfound p hp
    · rw [List.mem_singleton.mp hp]
      exact hlt

end Found

/-- The model carries the labels of a list, under other names. -/
def Model.Carries (m : Model) (f : String → String) (found : Found) : Prop :=
  ∀ p ∈ found, m.labelStates? (f p.1) = some p.2

theorem Model.Carries.mono {m : Model} {f : String → String} {found found' : Found} {n : Nat}
    (h : m.Carries f found') (hext : Found.Extends n found found') : m.Carries f found :=
  fun p hp => h p (hext.sub p hp)

/-! ## Types -/

namespace Expr

variable (f : String → String)

mutual

theorem type_renameLabels (e : Expr) : (e.renameLabels f).type = e.type := by
  match e with
  | .ite c t e => simp only [renameLabels, type, type_renameLabels t, type_renameLabels e]
  | .binary op l r => simp only [renameLabels, type, type_renameLabels l, type_renameLabels r]
  | .unary op e => simp only [renameLabels, type, type_renameLabels e]
  | .call g args => simp only [renameLabels, type, types_renameLabels args]
  | .formula name d t => simp only [renameLabels, type, typeD_renameLabels d t]
  | .filter op e p i x => simp only [renameLabels, type, type_renameLabels e]
  | .literal _ | .constant .. | .ident .. | .var .. | .observable .. | .label _ | .property .. | .quant .. | .path .. => rfl

theorem types_renameLabels (es : List Expr) : types (renameLabelsL f es) = types es := by
  match es with
  | [] => rfl
  | e :: es => simp only [renameLabelsL, types, type_renameLabels e, types_renameLabels es]

theorem typeD_renameLabels (d : Option Expr) (t : ValueType) : typeD (renameLabelsD f d) t = typeD d t := by
  match d with
  | none => rfl
  | some e => simp only [renameLabelsD, typeD, type_renameLabels e]

end

end Expr

namespace Checker

variable {c : Checker} {m m' : Model} {entered entered' : Entered} {f : String → String}

/-! ## Expressions that can stand for each other -/

/-- Each of the two evaluations follows the other over narrower domains, hence over one domain both succeed or
none, with the same entries. -/
structure Interchangeable (c : Checker) (m m' : Model) (entered : Entered) (e : Expr) (entered' : Entered)
    (e' : Expr) : Prop where
  forth : Simulates .whereOpen c m m' entered e entered' e'
  back : Simulates .whereOpen c m' m entered' e' entered e

/-- An evaluation that always succeeds, with the entries that a set has. -/
def ShowsSet (c : Checker) (m : Model) (entered : Entered) (e : Expr) (states : StateSet) : Prop :=
  ∀ domain, (∀ s ∈ statesOf m.numStates domain, s < m.numStates) → ∀ r, ∃ v,
    outcome (evalWith .whereOpen c m entered e domain) r = .ok v ∧
      Matches m.numStates domain v (ofSet states m.numStates)

/-- Expressions that show the same set can stand for each other. -/
theorem interchangeable_of_showsSet (h : c.Compares m m') {e e' : Expr} {states : StateSet}
    (he : ShowsSet c m entered e states) (he' : ShowsSet c m' entered' e' states) :
    Interchangeable c m m' entered e entered' e' := by
  unfold ShowsSet at he'
  rw [h.size] at he'
  constructor
  · intro wide nar hd _ r r' v hv
    obtain ⟨v₁, hv₁, hmatch⟩ := he wide hd.lt r
    obtain ⟨w, hw, hmatch'⟩ := he' nar hd.nar_lt r'
    rw [hv] at hv₁
    cases hv₁
    exact ⟨w, hw, (hmatch.mono hd.sub).trans hmatch'.symm⟩
  · intro wide nar hd _ r r' v hv
    rw [h.size] at hd
    obtain ⟨v₁, hv₁, hmatch⟩ := he' wide hd.lt r
    obtain ⟨w, hw, hmatch'⟩ := he nar hd.nar_lt r'
    rw [hv] at hv₁
    cases hv₁
    rw [h.size]
    exact ⟨w, hw, (hmatch.mono hd.sub).trans hmatch'.symm⟩

/-- A formula that was evaluated over all states shows the set that was found, whatever the domain. -/
theorem showsSet_of_satisfying (h : c.Compares m m') {e : Expr} {states : StateSet} {r : Run}
    (hs : outcome (satisfying .whereOpen c m entered none e) r = .ok states) : ShowsSet c m entered e states := by
  obtain ⟨v, hv, hsat⟩ := outcome_bind_eq_ok.mp hs
  rw [outcome_ofEval_eq_ok] at hsat
  have hself : c.Compares m m := Compares.refl h.solver h.small h.inRange
  have hplain := plain_of_outcome h.solver hv
  intro domain hlt r'
  obtain ⟨w, hw, hmatch⟩ := evalWith_follows hself entered e (Narrows.of_lt hlt) r r' v hv
  refine ⟨w, hw, hmatch.symm.trans ⟨type_of_satisfaction hsat, fun s hs => ?_⟩⟩
  rw [valueAt_of_satisfaction hsat (hplain.1 ▸ hlt s hs), valueAt_ofSet (hlt s hs)]

/-- What stands for a set shows it: a truth value if the set is trivial, else a label that the model carries. -/
theorem showsSet_replace (h : c.Compares m m') {found : Found} {states : StateSet}
    (hlt : ∀ s ∈ states, s < m.numStates) (hcarries : m'.Carries f (found.replace m.numStates states).2)
    (entered' : Entered) :
    ShowsSet c m' entered' ((found.replace m.numStates states).1.renameLabels f) states := by
  have hconstant : ∀ b : Bool, (∀ s < m.numStates, (s ∈ states ↔ b = true)) → ∀ domain,
      (∀ s ∈ statesOf m.numStates domain, s < m.numStates) →
      Matches m.numStates domain (.constant (.bool b) m.numStates) (ofSet states m.numStates) := by
    intro b hb domain hd
    refine matches_ofSet h.small hd fun s hs => ?_
    rw [hb s (hd s hs)]
    cases b with
    | true =>
      have hfull : s ∈ StateSet.full m.numStates := (StateSet.mem_full_of_lt h.small).mpr (hd s hs)
      simpa using hfull
    | false => simp
  intro domain hd r
  rw [h.size] at hd ⊢
  unfold Found.replace at hcarries ⊢
  cases hempty : states.isEmpty with
  | true =>
    have hnone := StateSet.isEmpty_iff.mp hempty
    refine ⟨.constant (.bool false) m.numStates, ?_, hconstant false (fun s _ => by simp [hnone s]) domain hd⟩
    rw [if_pos rfl]
    show outcome (evalWith .whereOpen c m' entered' (.literal (.bool false)) domain) r = _
    rw [evalWith_literal, h.size]
    rfl
  | false =>
    cases hfull : states.isFull m.numStates with
    | true =>
      have hall := fun s (hs : s < m.numStates) => StateSet.mem_of_isFull hfull hlt hs
      refine ⟨.constant (.bool true) m.numStates, ?_, hconstant true (fun s hs => by simp [hall s hs]) domain hd⟩
      rw [if_neg Bool.false_ne_true, if_pos rfl]
      show outcome (evalWith .whereOpen c m' entered' (.literal (.bool true)) domain) r = _
      rw [evalWith_literal, h.size]
      rfl
    | false =>
      rw [hempty, hfull, if_neg Bool.false_ne_true, if_neg Bool.false_ne_true] at hcarries
      have hlabel := hcarries _ (found.labelFor_spec hlt).1
      refine ⟨ofSet states m.numStates, ?_, Matches.refl _⟩
      rw [if_neg Bool.false_ne_true, if_neg Bool.false_ne_true]
      show outcome (evalWith .whereOpen c m' entered' (.label (f (found.labelFor states).1)) domain) r = _
      rw [evalWith_attached .whereOpen c m' entered' domain hlabel, h.size]
      rfl

theorem replace_extends {found : Found} {states : StateSet} {n : Nat} (hlt : ∀ s ∈ states, s < n) :
    Found.Extends n found (found.replace n states).2 := by
  unfold Found.replace
  split
  · exact Found.Extends.refl n found
  · split
    · exact Found.Extends.refl n found
    · exact (found.labelFor_spec hlt).2

theorem type_replace (found : Found) (n : Nat) (states : StateSet) : (found.replace n states).1.type = .bool := by
  unfold Found.replace
  split
  · rfl
  · split
    · rfl
    · rfl

/-! ## What extraction yields -/

/-- What an extraction yields for an expression: an expression of the same type that can stand for it in every
model that carries the labels made so far, whatever they are called there. -/
structure Extracted (c : Checker) (m : Model) (entered : Entered) (e : Expr) (found : Found)
    (p : Expr × Found) : Prop where
  type : p.1.type = e.type
  grows : Found.Extends m.numStates found p.2
  stands : ∀ m' f, c.Compares m m' → m'.Carries f p.2 → ∀ entered',
    Interchangeable c m m' entered e entered' (p.1.renameLabels f)

/-- Extraction from an expression, whatever labels there are already. -/
def Extracts (c : Checker) (m : Model) (entered : Entered) (e : Expr) : Prop :=
  ∀ found, Delivers (extractFrom .whereOpen c m entered found e) (Extracted c m entered e found)

/-- The same for expressions in a row. -/
structure ExtractedAll (c : Checker) (m : Model) (entered : Entered) (es : List Expr) (found : Found)
    (p : List Expr × Found) : Prop where
  types : Expr.types p.1 = Expr.types es
  grows : Found.Extends m.numStates found p.2
  stands : ∀ m' f, c.Compares m m' → m'.Carries f p.2 → ∀ entered',
    List.Forall₂ (fun e e' => Interchangeable c m m' entered e entered' e') es (Expr.renameLabelsL f p.1)

/-- And for a selector: it selects the same states. -/
structure ExtractedSelector (c : Checker) (m : Model) (entered : Entered) (p : Option Expr) (found : Found)
    (q : Option Expr × Found) : Prop where
  none_iff : p = none ↔ q.1 = none
  grows : Found.Extends m.numStates found q.2
  stands : ∀ m' f, c.Compares m m' → m'.Carries f q.2 → ∀ entered',
    Follows (selected .whereOpen c m entered p) (selected .whereOpen c m' entered' (Expr.renameLabelsD f q.1))
        (fun a b => b = a) ∧
      Follows (selected .whereOpen c m' entered' (Expr.renameLabelsD f q.1)) (selected .whereOpen c m entered p)
        fun a b => b = a

/-! ## Extraction from each kind of expression -/

/-- Extraction from the direct subexpressions. -/
def ExtractsChildren (c : Checker) (m : Model) (entered : Entered) (e : Expr) : Prop :=
  ∀ found, Delivers (extractFromChildren .whereOpen c m entered found e) (Extracted c m entered e found)

/-- A state formula is replaced by what shows its set. -/
theorem proposition_extracts (hself : c.Compares m m) {e : Expr} (he : e.type = .bool ∧ e.isProposition = true) :
    Extracts c m entered e := by
  intro found
  rw [extractFrom_proposition .whereOpen c m entered found he]
  have hreal : Delivers (satisfying .whereOpen c m entered none e) fun a => ∀ s ∈ a, s < m.numStates :=
    satisfying_real hself.solver hself.inRange none
  have hsets : Delivers (satisfying .whereOpen c m entered none e) fun states =>
      (∀ s ∈ states, s < m.numStates) ∧ ShowsSet c m entered e states :=
    ⟨hreal.steady, fun r states hs => ⟨hreal.spec r states hs, showsSet_of_satisfying hself hs⟩⟩
  refine Delivers.bind hsets fun states hstates => Delivers.pure ?_
  obtain ⟨hlt, hshows⟩ := hstates
  refine ⟨(type_replace found _ states).trans he.1.symm, replace_extends hlt, fun m' f h hcarries entered' => ?_⟩
  exact interchangeable_of_showsSet h hshows (showsSet_replace h hlt hcarries entered')

/-- An expression without subexpressions and labels stays as it is. -/
theorem leaf_extracts {e : Expr} (hleaf : e.children = []) (hsame : ∀ f, e.renameLabels f = e)
    (hstands : ∀ m' entered', c.Compares m m' → Interchangeable c m m' entered e entered' e) :
    ExtractsChildren c m entered e := by
  intro found
  rw [extractFromChildren_leaf .whereOpen c m entered found hleaf]
  refine Delivers.pure ⟨rfl, Found.Extends.refl _ found, fun m' f h _ entered' => ?_⟩
  rw [hsame f]
  exact hstands m' entered' h

/-- What always fails can be replaced by what always fails. -/
theorem interchangeable_throw {e e' : Expr} {err err' : CheckError}
    (he : ∀ domain, evalWith .whereOpen c m entered e domain = throw err)
    (he' : ∀ domain, evalWith .whereOpen c m' entered' e' domain = throw err') :
    Interchangeable c m m' entered e entered' e' := ⟨Simulates.throw he, Simulates.throw he'⟩

section

variable {e l r cond t : Expr}

theorem ite_extracts (hcond : Extracts c m entered cond) (ht : Extracts c m entered t)
    (he : Extracts c m entered e) : ExtractsChildren c m entered (.ite cond t e) := by
  intro found
  rw [extractFromChildren_ite]
  refine Delivers.bind (hcond found) fun p hp => Delivers.bind (ht p.2) fun q hq => ?_
  refine Delivers.bind (he q.2) fun z hz => Delivers.pure ?_
  refine ⟨?_, (hp.grows.trans hq.grows).trans hz.grows, fun m' f h hcarries entered' => ?_⟩
  · show q.1.type.choice z.1.type = t.type.choice e.type
    rw [hq.type, hz.type]
  · have htype : (q.1.renameLabels f).type.choice (z.1.renameLabels f).type = t.type.choice e.type := by
      rw [Expr.type_renameLabels, Expr.type_renameLabels, hq.type, hz.type]
    have hcond := hp.stands m' f h (hcarries.mono (hq.grows.trans hz.grows)) entered'
    have ht := hq.stands m' f h (hcarries.mono hz.grows) entered'
    have he := hz.stands m' f h hcarries entered'
    exact ⟨ite_simulates h htype hcond.forth ht.forth he.forth,
      ite_simulates h.symm htype.symm hcond.back ht.back he.back⟩

theorem binary_extracts {op : BinaryOp} (hl : Extracts c m entered l) (hr : Extracts c m entered r) :
    ExtractsChildren c m entered (.binary op l r) := by
  intro found
  rw [extractFromChildren_binary]
  refine Delivers.bind (hl found) fun p hp => Delivers.bind (hr p.2) fun q hq => Delivers.pure ?_
  refine ⟨?_, hp.grows.trans hq.grows, fun m' f h hcarries entered' => ?_⟩
  · show op.resultType p.1.type q.1.type = op.resultType l.type r.type
    rw [hp.type, hq.type]
  · have htype : op.resultType (p.1.renameLabels f).type (q.1.renameLabels f).type =
        op.resultType l.type r.type := by
      rw [Expr.type_renameLabels, Expr.type_renameLabels, hp.type, hq.type]
    have hl := hp.stands m' f h (hcarries.mono hq.grows) entered'
    have hr := hq.stands m' f h hcarries entered'
    exact ⟨binary_simulates h htype hl.forth hr.forth, binary_simulates h.symm htype.symm hl.back hr.back⟩

theorem unary_extracts {op : UnaryOp} (he : Extracts c m entered e) :
    ExtractsChildren c m entered (.unary op e) := by
  intro found
  rw [extractFromChildren_unary]
  refine Delivers.bind (he found) fun p hp => Delivers.pure ?_
  refine ⟨?_, hp.grows, fun m' f h hcarries entered' => ?_⟩
  · show op.resultType p.1.type = op.resultType e.type
    rw [hp.type]
  · have htype : (p.1.renameLabels f).type = e.type := (Expr.type_renameLabels f p.1).trans hp.type
    have he := hp.stands m' f h hcarries entered'
    exact ⟨unary_simulates h htype he.forth, unary_simulates h.symm htype.symm he.back⟩

theorem expanded_extracts {name : String} {t : ValueType} (he : Extracts c m entered e) :
    ExtractsChildren c m entered (.formula name (some e) t) := by
  intro found
  rw [extractFromChildren_expanded]
  refine Delivers.bind (he found) fun p hp => Delivers.pure ?_
  refine ⟨hp.type, hp.grows, fun m' f h hcarries entered' => ?_⟩
  have he := hp.stands m' f h hcarries entered'
  constructor
  · intro wide nar hd hne
    show Follows _ (evalWith .whereOpen c m' entered' (.formula name (some (p.1.renameLabels f)) t) nar) _
    rw [evalWith_expanded, evalWith_expanded]
    exact he.forth wide nar hd hne
  · intro wide nar hd hne
    show Follows (evalWith .whereOpen c m' entered' (.formula name (some (p.1.renameLabels f)) t) wide) _ _
    rw [evalWith_expanded, evalWith_expanded]
    exact he.back wide nar hd hne

/-- The operand of a quantity is rewritten, but without a solver there are no quantities. -/
theorem quant_extracts (hself : c.Compares m m) {measure : Measure} {query : Query} (he : Extracts c m entered e) :
    ExtractsChildren c m entered (.quant measure query e) := by
  intro found
  rw [extractFromChildren_quant]
  refine Delivers.bind (he found) fun p hp => Delivers.pure ⟨rfl, hp.grows, fun m' f h hcarries entered' => ?_⟩
  exact interchangeable_throw
    (fun domain => evalWith_quant .whereOpen c m entered domain hself.solver measure query e)
    fun domain => evalWith_quant .whereOpen c m' entered' domain h.solver measure query (p.1.renameLabels f)

theorem extractFromAll_delivers {es : List Expr} (hes : ∀ e ∈ es, Extracts c m entered e) (found : Found) :
    Delivers (extractFromAll .whereOpen c m entered found es) (ExtractedAll c m entered es found) := by
  induction es generalizing found with
  | nil =>
    rw [extractFromAll_nil]
    exact Delivers.pure ⟨rfl, Found.Extends.refl _ found, fun _ _ _ _ _ => .nil⟩
  | cons e rest ih =>
    rw [extractFromAll_cons]
    refine Delivers.bind (hes e List.mem_cons_self found) fun p hp => ?_
    refine Delivers.bind (ih (fun a ha => hes a (List.mem_cons_of_mem e ha)) p.2) fun q hq => Delivers.pure ?_
    refine ⟨?_, hp.grows.trans hq.grows, fun m' f h hcarries entered' => ?_⟩
    · show p.1.type :: Expr.types q.1 = e.type :: Expr.types rest
      rw [hp.type, hq.types]
    · exact .cons (hp.stands m' f h (hcarries.mono hq.grows) entered') (hq.stands m' f h hcarries entered')

theorem call_extracts {g : Function} {args : List Expr} (hargs : ∀ a ∈ args, Extracts c m entered a) :
    ExtractsChildren c m entered (.call g args) := by
  intro found
  rw [extractFromChildren_call]
  refine Delivers.bind (extractFromAll_delivers hargs found) fun p hp => Delivers.pure ?_
  refine ⟨?_, hp.grows, fun m' f h hcarries entered' => ?_⟩
  · show g.resultType (Expr.types p.1) = g.resultType (Expr.types args)
    rw [hp.types]
  · have htypes : Expr.types (Expr.renameLabelsL f p.1) = Expr.types args :=
      (Expr.types_renameLabels f p.1).trans hp.types
    have hall := hp.stands m' f h hcarries entered'
    exact ⟨call_simulates h htypes (hall.imp fun _ _ ha => ha.forth),
      call_simulates h.symm htypes.symm (hall.flip.imp fun _ _ ha => ha.back)⟩

theorem path_extracts {op : PathOp} {operands : List Expr} {bound : Option UInt64}
    (hoperands : ∀ a ∈ operands, Extracts c m entered a) :
    ExtractsChildren c m entered (.path op operands bound) := by
  intro found
  rw [extractFromChildren_path]
  refine Delivers.bind (extractFromAll_delivers hoperands found) fun p hp => Delivers.pure ?_
  refine ⟨rfl, hp.grows, fun m' f h hcarries entered' => ?_⟩
  exact interchangeable_throw (fun domain => evalWith_path .whereOpen c m entered domain op operands bound)
    fun domain => evalWith_path .whereOpen c m' entered' domain op (Expr.renameLabelsL f p.1) bound

theorem extractSelector_delivers {p : Option Expr} (hp : ∀ e ∈ p, Extracts c m entered e) (found : Found) :
    Delivers (extractSelector .whereOpen c m entered found p) (ExtractedSelector c m entered p found) := by
  cases p with
  | none =>
    refine Delivers.pure ⟨by simp, Found.Extends.refl _ found, fun m' f h _ entered' => ?_⟩
    exact ⟨selected_none_follows h, selected_none_follows h.symm⟩
  | some p =>
    refine Delivers.bind (hp p rfl found) fun q hq => Delivers.pure ?_
    refine ⟨by simp, hq.grows, fun m' f h hcarries entered' => ?_⟩
    have hstands := hq.stands m' f h hcarries entered'
    exact ⟨selected_some_follows h (fun hst => by cases hst) hstands.forth,
      selected_some_follows h.symm (fun hst => by cases hst) hstands.back⟩

theorem filter_extracts {op : FilterOp} {p : Option Expr} {invisible explained : Bool}
    (hkeep : op.keepsVector = true → p = none) (he : Extracts c m entered e)
    (hp : ∀ e ∈ p, Extracts c m entered e) :
    ExtractsChildren c m entered (.filter op e p invisible explained) := by
  intro found
  rw [extractFromChildren_filter]
  refine Delivers.bind (he found) fun a ha => Delivers.bind (extractSelector_delivers hp a.2) fun q hq => ?_
  refine Delivers.pure ⟨?_, ha.grows.trans hq.grows, fun m' f h hcarries entered' => ?_⟩
  · show op.resultType a.1.type = op.resultType e.type
    rw [ha.type]
  · have he := ha.stands m' f h (hcarries.mono hq.grows) entered'
    obtain ⟨hforth, hback⟩ := hq.stands m' f h hcarries entered'
    have hkeep' : op.keepsVector = true → Expr.renameLabelsD f q.1 = none := by
      intro hop
      rw [hq.none_iff.mp (hkeep hop)]
      rfl
    exact ⟨filter_simulates h hkeep (fun _ => hforth) he.forth,
      filter_simulates h.symm hkeep' (fun _ => hback) he.back⟩

/-- A reference is replaced by what its definition is replaced by. -/
theorem property_extracts {name : String} {ty : ValueType} {body : Expr}
    (hd : c.definitions.property? name = some body) (hn : entered.properties.contains name = false)
    (htype : ty = body.type) (hbody : Extracts c m (entered.property name) body) :
    Extracts c m entered (.property name ty) := by
  intro found
  rw [extractFrom_definedProperty .whereOpen c m entered found ty hd hn]
  refine (hbody found).mono fun p hp => ⟨hp.type.trans htype.symm, hp.grows, fun m' f h hcarries entered' => ?_⟩
  have hstands := hp.stands m' f h hcarries entered'
  constructor
  · intro wide nar hd' hne r r' v hv
    rw [evalWith_definedProperty .whereOpen c m entered wide ty hd hn,
      outcome_bind_ok (outcome_message _ r)] at hv
    exact hstands.forth wide nar hd' hne _ r' v hv
  · intro wide nar hd' hne r r' v hv
    rw [evalWith_definedProperty .whereOpen c m entered nar ty hd hn, outcome_bind_ok (outcome_message _ r')]
    exact hstands.back wide nar hd' hne r _ v hv

end

/-! ## Extraction from every expression -/

theorem extracts_of_children {e : Expr} (he : ¬(e.type = .bool ∧ e.isProposition = true))
    (hp : ∀ name t, e ≠ .property name t) (hchildren : ExtractsChildren c m entered e) : Extracts c m entered e := by
  intro found
  rw [extractFrom_children .whereOpen c m entered found he hp]
  exact hchildren found

/-- What extraction yields can stand for the expression, if filters keep whole vectors only and references to
properties declare their types. -/
theorem extractFrom_extracts (hself : c.Compares m m)
    (hdef : c.definitions.Throughout c.definitions.Replaceable) (entered : Entered) (e : Expr)
    (he : e.Throughout c.definitions.Replaceable) : Extracts c m entered e := by
  by_cases hprop : e.type = .bool ∧ e.isProposition = true
  · exact proposition_extracts hself hprop
  -- A reference has fewer definitions left to enter, any other operand is smaller.
  match e with
  | .property name t =>
    cases hd : c.definitions.property? name with
    | none =>
      intro found
      rw [extractFrom_unknownProperty .whereOpen c m entered found t hd]
      exact Delivers.throw _
    | some body =>
      cases hn : entered.properties.contains name with
      | true =>
        intro found
        rw [extractFrom_cyclicProperty .whereOpen c m entered found t hd hn]
        exact Delivers.throw _
      | false =>
        have := Definitions.remaining_property_lt hd hn
        exact property_extracts hd hn (he.self.2 body hd)
          (extractFrom_extracts hself hdef (entered.property name) body (hdef.property hd))
  | .ite cond t e =>
    exact extracts_of_children hprop (by simp) (ite_extracts
      (extractFrom_extracts hself hdef entered cond (he.child (by simp [Expr.children])))
      (extractFrom_extracts hself hdef entered t (he.child (by simp [Expr.children])))
      (extractFrom_extracts hself hdef entered e (he.child (by simp [Expr.children]))))
  | .binary op l r =>
    exact extracts_of_children hprop (by simp) (binary_extracts
      (extractFrom_extracts hself hdef entered l (he.child (by simp [Expr.children])))
      (extractFrom_extracts hself hdef entered r (he.child (by simp [Expr.children]))))
  | .unary op e =>
    exact extracts_of_children hprop (by simp) (unary_extracts
      (extractFrom_extracts hself hdef entered e (he.child (by simp [Expr.children]))))
  | .call g args =>
    exact extracts_of_children hprop (by simp)
      (call_extracts fun a ha => extractFrom_extracts hself hdef entered a (he.child ha))
  | .formula name (some d) t =>
    exact extracts_of_children hprop (by simp) (expanded_extracts
      (extractFrom_extracts hself hdef entered d (he.child (by simp [Expr.children]))))
  | .filter op e p invisible explained =>
    refine extracts_of_children hprop (by simp) (filter_extracts he.self.1
      (extractFrom_extracts hself hdef entered e (he.child (by simp [Expr.children]))) fun q hq => ?_)
    have hq : p = some q := hq
    exact extractFrom_extracts hself hdef entered q (he.child (by simp [Expr.children, hq]))
  | .quant measure query e =>
    exact extracts_of_children hprop (by simp) (quant_extracts hself
      (extractFrom_extracts hself hdef entered e (he.child (by simp [Expr.children]))))
  | .path op operands bound =>
    exact extracts_of_children hprop (by simp)
      (path_extracts fun a ha => extractFrom_extracts hself hdef entered a (he.child ha))
  | .literal v =>
    refine extracts_of_children hprop (by simp) (leaf_extracts rfl (fun _ => rfl) fun m' entered' h => ?_)
    exact ⟨literal_simulates h v, literal_simulates h.symm v⟩
  | .constant name t =>
    refine extracts_of_children hprop (by simp) (leaf_extracts rfl (fun _ => rfl) fun m' entered' h => ?_)
    exact ⟨constant_simulates h name t, constant_simulates h.symm name t⟩
  | .var name index t =>
    refine extracts_of_children hprop (by simp) (leaf_extracts rfl (fun _ => rfl) fun m' entered' h => ?_)
    exact ⟨var_simulates h name index t, var_simulates h.symm name index t⟩
  | .observable name t =>
    refine extracts_of_children hprop (by simp) (leaf_extracts rfl (fun _ => rfl) fun m' entered' h => ?_)
    exact ⟨observable_simulates h name t, observable_simulates h.symm name t⟩
  | .ident name t =>
    refine extracts_of_children hprop (by simp) (leaf_extracts rfl (fun _ => rfl) fun m' entered' h => ?_)
    exact interchangeable_throw (fun domain => evalWith_ident .whereOpen c m entered domain name t)
      fun domain => evalWith_ident .whereOpen c m' entered' domain name t
  | .formula name none t =>
    refine extracts_of_children hprop (by simp) (leaf_extracts rfl (fun _ => rfl) fun m' entered' h => ?_)
    exact interchangeable_throw (fun domain => evalWith_unexpanded .whereOpen c m entered domain name t)
      fun domain => evalWith_unexpanded .whereOpen c m' entered' domain name t
  | .label name => exact absurd ⟨rfl, rfl⟩ hprop
termination_by (c.definitions.remaining entered, sizeOf e)

/-! ## Attaching the labels -/

theorem labelStates?_insert (name n : String) (states : StateSet) :
    Model.labelStates? { m with labels := m.labels.insert name states } n =
      if n = name then some states else m.labelStates? n := NameMap.get?_insert m.labels name n states

theorem addLabel_eq_ok {name : String} {states : StateSet} (h : m.addLabel name states = .ok m') :
    m.labelStates? name = none ∧ m' = { m with labels := m.labels.insert name states } := by
  unfold Model.addLabel at h
  by_cases hlabel : m.hasLabel name = true
  · rw [if_pos hlabel] at h
    cases h
  · rw [if_neg hlabel] at h
    cases h
    exact ⟨by simpa [Model.hasLabel, NameMap.contains, Model.labelStates?] using hlabel, rfl⟩

/-- A model with more labels: it differs from the old one in these labels only, and none of its labels is lost. -/
structure Gains (m : Model) (named : Found) (m' : Model) : Prop where
  relabelled : ∃ labels, m' = { m with labels }
  keeps : ∀ name states, m.labelStates? name = some states → m'.labelStates? name = some states
  inRange : (∀ p ∈ named, ∀ s ∈ p.2, s < m.numStates) → m.LabelsInRange → m'.LabelsInRange
  carries : m'.Carries id named

theorem Gains.refl (m : Model) : Gains m [] m :=
  ⟨⟨m.labels, rfl⟩, fun _ _ hs => hs, fun _ hm => hm, fun _ hp => absurd hp List.not_mem_nil⟩

theorem Gains.cons {p : String × StateSet} {named : Found} {m₁ : Model} (h : Gains m [p] m₁)
    (hrest : Gains m₁ named m') : Gains m (p :: named) m' := by
  obtain ⟨labels, rfl⟩ := h.relabelled
  obtain ⟨labels', rfl⟩ := hrest.relabelled
  refine ⟨⟨labels', rfl⟩, fun n S hS => hrest.keeps n S (h.keeps n S hS), fun hlt hm => ?_, fun q hq => ?_⟩
  · refine hrest.inRange (fun q hq => hlt q (List.mem_cons_of_mem p hq)) (h.inRange (fun q hq => ?_) hm)
    exact hlt q (List.mem_cons.mpr (Or.inl (List.mem_singleton.mp hq)))
  · rcases List.mem_cons.mp hq with rfl | hq
    · exact hrest.keeps _ _ (h.carries q List.mem_cons_self)
    · exact hrest.carries q hq

/-- A label is attached under a free name, so none is lost. -/
theorem addLabel_gains {name : String} {states : StateSet} (h : m.addLabel name states = .ok m') :
    Gains m [(name, states)] m' := by
  obtain ⟨hfree, rfl⟩ := addLabel_eq_ok h
  refine ⟨⟨_, rfl⟩, fun n S hS => ?_, fun hlt hm n S hS => ?_, fun p hp => ?_⟩
  · rw [labelStates?_insert, if_neg fun hn => by rw [hn, hfree] at hS; cases hS]
    exact hS
  · rw [labelStates?_insert] at hS
    split at hS
    · cases hS
      exact hlt (name, states) List.mem_cons_self
    · exact hm n S hS
  · rw [List.mem_singleton.mp hp, labelStates?_insert]
    exact if_pos rfl

/-- A model with labels attached under new names. -/
structure Attached (m : Model) (found : Found) (renames : List (String × String)) (m' : Model) : Prop where
  relabelled : ∃ labels, m' = { m with labels }
  keeps : ∀ name states, m.labelStates? name = some states → m'.labelStates? name = some states
  inRange : (∀ p ∈ found, ∀ s ∈ p.2, s < m.numStates) → m.LabelsInRange → m'.LabelsInRange
  finds : (found.map Prod.fst).Nodup → ∀ p ∈ found, ∃ name,
    renames.lookup p.1 = some name ∧ m'.labelStates? name = some p.2

theorem attachLabels_spec {defined : List String} {found : Found} {renames : List (String × String)}
    (h : attachLabels m defined found = .ok (renames, m')) : Attached m found renames m' := by
  induction found generalizing m renames with
  | nil =>
    cases h
    exact ⟨⟨m'.labels, rfl⟩, fun _ _ hs => hs, fun _ hm => hm, fun _ p hp => absurd hp List.not_mem_nil⟩
  | cons q rest ih =>
    obtain ⟨placeholder, states⟩ := q
    obtain ⟨⟨name, m₁⟩, hadd, h⟩ := Yields.bind_eq_ok.mp h
    obtain ⟨⟨renames, m₂⟩, hrest, heq⟩ := Yields.bind_eq_ok.mp h
    cases heq
    obtain ⟨m₁', hlabel, heq⟩ := Yields.bind_eq_ok.mp hadd
    cases heq
    have hadded := addLabel_gains hlabel
    obtain ⟨labels, rfl⟩ := hadded.relabelled
    have hrest := ih hrest
    refine ⟨?_, fun n S hS => hrest.keeps n S (hadded.keeps n S hS), fun hlt hm => ?_, fun hnodup p hp => ?_⟩
    · obtain ⟨labels', rfl⟩ := hrest.relabelled
      exact ⟨labels', rfl⟩
    · refine hrest.inRange (fun p hp => hlt p (List.mem_cons_of_mem _ hp)) (hadded.inRange (fun p hp => ?_) hm)
      rw [List.mem_singleton.mp hp]
      exact hlt (placeholder, states) List.mem_cons_self
    · rw [List.map_cons, List.nodup_cons] at hnodup
      rcases List.mem_cons.mp hp with rfl | hp
      · have hnew := hrest.keeps _ _ (hadded.carries (_, states) List.mem_cons_self)
        exact ⟨_, by simp, hnew⟩
      · obtain ⟨n, hn, hS⟩ := hrest.finds hnodup.2 p hp
        have hne : p.1 ≠ placeholder := fun heq => hnodup.1 (List.mem_map.mpr ⟨p, hp, heq⟩)
        have hbeq : (p.1 == placeholder) = false := by simpa using hne
        exact ⟨n, by rw [List.lookup_cons, hbeq]; exact hn, hS⟩

/-- Replacing the maximal state formulas of an expression by labels that are attached to the model preserves its
meaning: over every domain the new expression can be checked on the new model exactly if the old one can be on
the old model, and then the two vectors agree in the states of the domain. -/
theorem registerFormulas_preserves (c : Checker) (m : Model) (hn : m.numStates < stateLimit) (hm : m.LabelsInRange)
    (hc : c.solver = none) (hkeep : c.definitions.Throughout Expr.KeepsWhole)
    (hdecl : c.definitions.Throughout c.definitions.Declares) (e : Expr) (he : e.Throughout Expr.KeepsWhole)
    (hed : e.Throughout c.definitions.Declares) (domain : Option StateSet)
    (hlt : ∀ s ∈ statesOf m.numStates domain, s < m.numStates) (r r₁ r₂ : Run) (e' : Expr) (m' : Model)
    (h : outcome (c.registerFormulas m e) r = .ok (e', m')) :
    ((∃ w, outcome (c.checkExpression m' e' domain) r₁ = .ok w) ↔
        ∃ v, outcome (c.checkExpression m e domain) r₂ = .ok v) ∧
      ∀ w v, outcome (c.checkExpression m' e' domain) r₁ = .ok w → outcome (c.checkExpression m e domain) r₂ = .ok v →
        ∀ s ∈ statesOf m.numStates domain, ∃ y, w.valueAt s = .ok y ∧ v.valueAt s = .ok y := by
  have hself : c.Compares m m := Compares.refl hc hn hm
  obtain ⟨⟨e₁, found⟩, hextract, h⟩ := outcome_bind_eq_ok.mp h
  obtain ⟨⟨renames, m₁⟩, hattach, heq⟩ := outcome_bind_eq_ok.mp h
  cases heq
  have hextracted := (extractFrom_extracts hself (fun x hx a ha => ⟨hkeep x hx a ha, hdecl x hx a ha⟩) .none e
    (fun a ha => ⟨he a ha, hed a ha⟩) []).spec _ _ hextract
  have hnodup := (hextracted.grows.numbered rfl).nodup
  have hfound := hextracted.grows.lt fun p hp => absurd hp List.not_mem_nil
  have hattached : Attached m found renames m' := attachLabels_spec (outcome_ofModel_eq_ok.mp hattach)
  have hcompares : c.Compares m m' := ⟨hc, hn, hm, hattached.inRange hfound hm, hattached.relabelled⟩
  have hcarries : m'.Carries (fun name => (renames.lookup name).getD name) found := by
    intro p hp
    obtain ⟨name, hname, hS⟩ := hattached.finds hnodup p hp
    simp only [hname, Option.getD_some]
    exact hS
  have hstands := hextracted.stands m' _ hcompares hcarries .none
  have hd : Narrows m.numStates domain domain := Narrows.refl hlt
  have hd' : Narrows m'.numStates domain domain := by rwa [hcompares.size]
  rw [outcome_checkExpression, outcome_checkExpression]
  refine ⟨⟨?_, ?_⟩, fun w v hw hv s hs => ?_⟩
  · rintro ⟨w, hw⟩
    obtain ⟨v, hv, -⟩ := hstands.back domain domain hd' (fun hst => by cases hst) _ _ w hw
    exact ⟨v, hv⟩
  · rintro ⟨v, hv⟩
    obtain ⟨w, hw, -⟩ := hstands.forth domain domain hd (fun hst => by cases hst) _ _ v hv
    exact ⟨w, hw⟩
  · obtain ⟨w', hw', hmatch⟩ := hstands.forth domain domain hd (fun hst => by cases hst) _
      (after (restart c.definitions.parameters) r₁) v hv
    rw [hw] at hw'
    cases hw'
    obtain ⟨y, hy⟩ := (plain_of_outcome hc hv).valueAt (hlt s hs)
    exact ⟨y, by rw [← hmatch.entry s hs, hy], hy⟩

end Checker

/-! ## A condition that becomes a label -/

/-- The two states with a label for the first one. -/
def Model.twoStatesLabelled : Model :=
  { Model.twoStates with labels := Model.twoStates.labels.insert "phi" (.singleton 0) }

/-- The two states with a label for the first one that is named like a generated one. -/
def Model.twoStatesNumbered : Model :=
  { Model.twoStates with labels := Model.twoStates.labels.insert "L0" (.singleton 0) }

namespace Checker

/-- The condition `x = 0` holds in the first state only and becomes a label; the branches stay as they are. -/
theorem registerFormulas_pickSeven :
    outcome (bare.registerFormulas .twoStates .pickSeven) .start =
      .ok (.ite (.label "phi") (.literal (.int 7)) (.var "x" 0 .int), .twoStatesLabelled) := by
  have hcond : ∀ r, outcome (extractFrom .whereOpen bare .twoStates .none []
      (.binary .eq (.var "x" 0 .int) (.literal (.int 0)))) r = .ok (.label "L0", [("L0", .singleton 0)]) := by
    intro r
    rw [extractFrom_proposition .whereOpen _ _ _ _ (by decide)]
    unfold satisfying
    rw [evalWith_strict .whereOpen _ _ _ _ (by decide), evalWith_var, evalWith_literal]
    rfl
  have hleaf : ∀ e found r, (e = .literal (.int 7) ∨ e = .var "x" 0 .int) →
      outcome (extractFrom .whereOpen bare .twoStates .none found e) r = .ok (e, found) := by
    rintro e found r (rfl | rfl)
    · rw [extractFrom_children .whereOpen _ _ _ _ (by decide) (by simp), extractFromChildren_leaf _ _ _ _ _ rfl]
      rfl
    · rw [extractFrom_children .whereOpen _ _ _ _ (by decide) (by simp), extractFromChildren_leaf _ _ _ _ _ rfl]
      rfl
  have hextract : outcome (bare.extract .twoStates .pickSeven) .start =
      .ok (.ite (.label "L0") (.literal (.int 7)) (.var "x" 0 .int), [("L0", .singleton 0)]) := by
    unfold extract Expr.pickSeven
    rw [outcome_bind_ok (outcome_restart _ _), extractFrom_children .whereOpen _ _ _ _ (by decide) (by simp),
      extractFromChildren_ite, outcome_bind_ok (hcond _)]
    simp only
    rw [outcome_bind_ok (hleaf _ _ _ (Or.inl rfl)), outcome_bind_ok (hleaf _ _ _ (Or.inr rfl))]
    rfl
  unfold registerFormulas
  rw [outcome_bind_ok hextract]
  rfl

/-- The conditional with the label has the values of the one without, since that one can be checked. -/
theorem registerFormulas_preserves_pickSeven :
    ∃ w, outcome (bare.checkExpression .twoStatesLabelled
        (.ite (.label "phi") (.literal (.int 7)) (.var "x" 0 .int)) none) .start = .ok w ∧
      w.valueAt 0 = .ok (.int 7) ∧ w.valueAt 1 = .ok (.int 1) := by
  have hkeep : Expr.pickSeven.Throughout Expr.KeepsWhole := by
    simp [Expr.pickSeven, Expr.throughout_iff, Expr.children, Expr.KeepsWhole]
  have hdecl : Expr.pickSeven.Throughout bare.definitions.Declares := by
    simp [Expr.pickSeven, Expr.throughout_iff, Expr.children, Definitions.Declares]
  have hv : outcome (bare.checkExpression .twoStates .pickSeven none) .start = .ok ⟨.ints #[7, 1], none⟩ := by
    unfold Expr.pickSeven
    rw [outcome_checkExpression, evalWith_ite]
    unfold satisfying evalOver
    rw [evalWith_strict .whereOpen _ _ _ _ (by decide), evalWith_var]
    simp only [evalWith_literal, evalWith_var]
    rfl
  obtain ⟨hiff, hagree⟩ := registerFormulas_preserves bare .twoStates (by decide) Model.labelsInRange_twoStates rfl
    Definitions.throughout_empty Definitions.throughout_empty .pickSeven hkeep hdecl none
    (fun s hs => List.mem_range.mp hs) .start .start .start _ _ registerFormulas_pickSeven
  obtain ⟨w, hw⟩ := hiff.mpr ⟨_, hv⟩
  obtain ⟨y, hy, hy'⟩ := hagree w _ hw hv 0 (by decide)
  obtain ⟨z, hz, hz'⟩ := hagree w _ hw hv 1 (by decide)
  cases hy'
  cases hz'
  exact ⟨w, hw, hy, hz⟩

end Checker

end Statewise
