import Statewise.Proofs.Filters
import Statewise.Proofs.Stages

/-!
# The use of the hint

A filter that is about one state leaves a hint behind, and a solver that gets the hint may leave all other
states out. This is right as long as a request is about that state only. `Checker.hintUse` says, for every
expression, what has to be known about the hint before it is evaluated and what becomes of the hint. The
rules for computations stand here, without the expressions.
-/

namespace Statewise

open Check

/-! ## Sound requests -/

/-- If there is a hint, the domain has no state but the one that the hint is about. -/
def FitsDomain (domain : Option StateSet) (hint : Option Hint) : Prop :=
  ∀ h, hint = some h → ∃ d, domain = some d ∧ ∀ s ∈ d, s = h.state

/-- The hint of a request says nothing wrong about its domain. -/
def Request.HintSound (q : Request) : Prop := FitsDomain q.domain q.hint

/-- All requests so far carried sound hints. -/
def Run.HintsSound (r : Run) : Prop := ∀ q, .quant q ∈ r.calls → q.HintSound

theorem fitsDomain_none (domain : Option StateSet) : FitsDomain domain none := fun _ h => by cases h

/-! ## Needs and fates -/

/-- What has to be known about the hint, so that all requests of a computation are sound. -/
inductive HintNeed where
  | nothing
  /-- A hint is about the only state of the domain. -/
  | fitting
  /-- There is no hint. -/
  | clear
  /-- Some request is unsound whatever is known. -/
  | impossible
deriving DecidableEq

/-- What becomes of the hint during a computation. -/
inductive HintFate where
  /-- The computation fails. -/
  | failed
  /-- There is no hint afterwards. -/
  | dropped
  /-- The hint is the same afterwards, or there is none. -/
  | kept
  /-- The hint may be about any state. -/
  | stray
deriving DecidableEq

structure HintUse where
  need : HintNeed
  fate : HintFate
deriving DecidableEq

namespace HintNeed

/-- Both needs at once. -/
def join : HintNeed → HintNeed → HintNeed
  | nothing, b => b
  | a, nothing => a
  | fitting, b => b
  | a, fitting => a
  | clear, b => b
  | impossible, _ => impossible

/-- What has to be known before a computation with a certain fate, if there is a need after it. -/
def before (need : HintNeed) : HintFate → HintNeed
  | .failed => nothing
  | .dropped => if need = impossible then impossible else nothing
  | .kept => need
  | .stray => if need = nothing then nothing else impossible

/-- The need of a computation that goes over all states, whatever the domain is. -/
def everywhere : HintNeed → HintNeed
  | fitting => clear
  | need => need

/-- What is left of a need if the hint fits the domain. -/
def fitted : HintNeed → HintNeed
  | fitting => nothing
  | need => need

/-- The need is met by a hint that is there over a domain. -/
def Met (domain : Option StateSet) (hint : Option Hint) : HintNeed → Prop
  | nothing => True
  | fitting => FitsDomain domain hint
  | clear => hint = none
  | impossible => False

variable {domain : Option StateSet} {hint : Option Hint}

/-- Without a hint every need is met that can be met. -/
theorem met_none {need : HintNeed} (h : need ≠ impossible) : need.Met domain none := by
  cases need with
  | nothing => trivial
  | fitting => exact fitsDomain_none domain
  | clear => rfl
  | impossible => exact absurd rfl h

theorem Met.ne_impossible {need : HintNeed} (h : need.Met domain hint) : need ≠ impossible := by
  rintro rfl
  exact h

theorem Met.of_join {a b : HintNeed} (h : (a.join b).Met domain hint) : a.Met domain hint ∧ b.Met domain hint := by
  cases a <;> cases b <;> first | exact ⟨trivial, h⟩ | exact ⟨h, trivial⟩ | exact ⟨h, h⟩ | exact h.elim | skip
  · exact ⟨h ▸ fitsDomain_none domain, h⟩
  · exact ⟨h, h ▸ fitsDomain_none domain⟩

theorem Met.of_fitted {need : HintNeed} (hfits : FitsDomain domain hint) (h : need.fitted.Met domain hint) :
    need.Met domain hint := by
  cases need with
  | fitting => exact hfits
  | nothing | clear | impossible => exact h

theorem Met.of_everywhere {need : HintNeed} {d : Option StateSet} (h : need.everywhere.Met domain hint) :
    need.Met d hint := by
  cases need with
  | fitting => exact (show hint = none from h) ▸ fitsDomain_none d
  | nothing | clear | impossible => exact h

/-- After some hint has been put in place nothing may be needed. -/
theorem Met.eq_nothing {need : HintNeed} (h : (need.before .stray).Met domain hint) : need = nothing := by
  cases need with
  | nothing => rfl
  | fitting | clear | impossible => exact h.elim

/-- A need that is met over a domain is met over every part of it. -/
theorem Met.narrow {need : HintNeed} (states : StateSet) (h : need.Met domain hint) :
    need.Met (some (narrow states domain)) hint := by
  cases need with
  | fitting =>
    intro p hp
    obtain ⟨d, rfl, hd⟩ := h p hp
    exact ⟨_, rfl, fun s hs => hd s (StateSet.mem_inter.mp hs).2⟩
  | nothing | clear | impossible => exact h

end HintNeed

namespace HintFate

/-- One fate after the other. -/
def next : HintFate → HintFate → HintFate
  | failed, _ => failed
  | fate, kept => fate
  | _, fate => fate

/-- The fate if the computation may be left out. -/
def orSkipped : HintFate → HintFate
  | stray => stray
  | _ => kept

/-- The fate of a hint, seen in the hints before and afterwards. -/
def Allows (before after : Option Hint) : HintFate → Prop
  | failed => False
  | dropped => after = none
  | kept => after = none ∨ after = before
  | stray => True

variable {h₀ h₁ h₂ : Option Hint}

theorem Allows.next {a b : HintFate} (ha : a.Allows h₀ h₁) (hb : b.Allows h₁ h₂) : (a.next b).Allows h₀ h₂ := by
  cases b with
  | failed => exact hb.elim
  | dropped => cases a <;> first | exact ha.elim | exact hb
  | stray => cases a <;> first | exact ha.elim | exact trivial
  -- The second computation has left the first one's hint or none.
  | kept =>
    cases a with
    | failed => exact ha.elim
    | dropped => exact hb.elim id fun h => h.trans ha
    | kept => exact hb.elim Or.inl fun h => h ▸ ha
    | stray => trivial

theorem Allows.orSkipped {a : HintFate} (ha : a.Allows h₀ h₁) : a.orSkipped.Allows h₀ h₁ := by
  cases a with
  | failed => exact ha.elim
  | dropped => exact Or.inl ha
  | kept => exact ha
  | stray => trivial

theorem allows_same (a : HintFate) (h : Option Hint) : a.orSkipped.Allows h h := by
  cases a <;> first | exact Or.inr rfl | trivial

/-- A need that was taken care of before is met afterwards. -/
theorem Allows.met {a : HintFate} {need : HintNeed} {domain : Option StateSet} (ha : a.Allows h₀ h₁)
    (h : (need.before a).Met domain h₀) : need.Met domain h₁ := by
  cases a with
  | failed => exact ha.elim
  | dropped =>
    have hneed : need ≠ .impossible := by
      rintro rfl
      exact h
    exact (show h₁ = none from ha) ▸ HintNeed.met_none hneed
  | kept =>
    rcases ha with rfl | rfl
    · exact HintNeed.met_none (HintNeed.Met.ne_impossible h)
    · exact h
  | stray =>
    cases need with
    | nothing => trivial
    | fitting | clear | impossible => exact h.elim

end HintFate

namespace HintUse

/-- No request is made and the hint stays. -/
def idle : HintUse := ⟨.nothing, .kept⟩

def failure : HintUse := ⟨.nothing, .failed⟩

/-- A request is made over the domain. -/
def request : HintUse := ⟨.fitting, .kept⟩

/-- The hint is taken away. -/
def drop : HintUse := ⟨.nothing, .dropped⟩

/-- Some hint is put in its place. -/
def replace : HintUse := ⟨.nothing, .stray⟩

/-- One after the other. -/
def seq (u w : HintUse) : HintUse := ⟨u.need.join (w.need.before u.fate), u.fate.next w.fate⟩

/-- Perhaps left out. -/
def optional (u : HintUse) : HintUse := { u with fate := u.fate.orSkipped }

/-- Over all states. -/
def everywhere (u : HintUse) : HintUse := { u with need := u.need.everywhere }

/-- Under a hint that fits. -/
def fitted (u : HintUse) : HintUse := { u with need := u.need.fitted }

/-- All of them, from left to right. -/
def all (us : List HintUse) : HintUse := us.foldr seq idle

/-- Once the hint has been taken away, every need is met that can be met. -/
theorem drop_seq_met {u : HintUse} {domain : Option StateSet} {hint : Option Hint} (hu : u.need ≠ .impossible) :
    (drop.seq u).need.Met domain hint := by
  show (u.need.before .dropped).Met domain hint
  unfold HintNeed.before
  rw [if_neg hu]
  trivial

theorem idle_seq (u : HintUse) : idle.seq u = u := by
  obtain ⟨need, fate⟩ := u
  cases need <;> cases fate <;> rfl

theorem seq_idle (u : HintUse) : u.seq idle = u := by
  obtain ⟨need, fate⟩ := u
  cases need <;> cases fate <;> rfl

end HintUse

/-! ## Computations -/

namespace Check

variable {α β : Type}

/-- If what is needed is known about the hint, a computation over a domain makes sound requests only, and the
hint has the fate if it succeeds. -/
def Uses (x : Check α) (domain : Option StateSet) (u : HintUse) : Prop :=
  ∀ r, r.HintsSound → u.need.Met domain r.hint →
    (after x r).HintsSound ∧ ∀ a, outcome x r = .ok a → u.fate.Allows r.hint (after x r).hint

/-- A computation that leaves the hint alone and makes no requests. -/
def Calm (x : Check α) : Prop :=
  ∀ r, (after x r).hint = r.hint ∧ ∀ q, .quant q ∈ (after x r).calls → .quant q ∈ r.calls

namespace Calm

theorem pure (a : α) : Calm (Pure.pure a : Check α) := fun _ => ⟨rfl, fun _ h => h⟩

theorem throw (e : CheckError) : Calm (MonadExcept.throw e : Check α) := fun _ => ⟨rfl, fun _ h => h⟩

theorem message (t : String) : Calm (Check.message t) := fun _ => ⟨rfl, fun _ h => h⟩

theorem ofExcept (x : Except CheckError α) : Calm (Check.ofExcept x) := by
  intro r
  rw [after_ofExcept]
  exact ⟨rfl, fun _ h => h⟩

theorem ofEval (x : Except EvalError α) : Calm (Check.ofEval x) := by
  intro r
  rw [after_ofEval]
  exact ⟨rfl, fun _ h => h⟩

/-- Other questions are no requests. -/
theorem ask {c : Call} (hc : ∀ q, c ≠ .quant q) : Calm (Check.ask c) := by
  refine fun r => ⟨rfl, fun q hq => ?_⟩
  rcases List.mem_cons.mp hq with h | h
  · exact absurd h.symm (hc q)
  · exact h

theorem bind {x : Check α} {f : α → Check β} (hx : Calm x) (hf : ∀ a, Calm (f a)) : Calm (x >>= f) := by
  intro r
  cases h : outcome x r with
  | error e =>
    rw [after_bind_error h]
    exact hx r
  | ok a =>
    rw [after_bind_ok h]
    exact ⟨((hf a _).1).trans (hx r).1, fun q hq => (hx r).2 q ((hf a _).2 q hq)⟩

theorem ite {x y : Check α} {p : Prop} [Decidable p] (hx : Calm x) (hy : Calm y) :
    Calm (if p then x else y) := by
  by_cases h : p
  · rw [if_pos h]
    exact hx
  · rw [if_neg h]
    exact hy

theorem of_tells {x : Check α} (hx : Tells x) : Calm x := by
  intro r
  rw [hx.calls r]
  exact ⟨hx.hint r, fun _ h => h⟩

theorem uses {x : Check α} (hx : Calm x) (domain : Option StateSet) : Uses x domain .idle := by
  intro r hr _
  obtain ⟨hhint, hcalls⟩ := hx r
  exact ⟨fun q hq => hr q (hcalls q hq), fun _ _ => Or.inr hhint⟩

end Calm

namespace Uses

variable {domain : Option StateSet} {u w : HintUse}

theorem throw (e : CheckError) (domain : Option StateSet) : Uses (MonadExcept.throw e : Check α) domain .failure :=
  fun _ hr _ => ⟨hr, fun _ h => by cases h⟩

theorem restart (parameters : Option String) : Uses (Check.restart parameters) domain .drop :=
  fun _ hr _ => ⟨hr, fun _ _ => rfl⟩

/-- One computation after the other; the second one gets something that the first one can yield. -/
theorem bind {x : Check α} {f : α → Check β} (hx : Uses x domain u)
    (hf : ∀ a, (∃ r, outcome x r = .ok a) → Uses (f a) domain w) : Uses (x >>= f) domain (u.seq w) := by
  intro r hr hneed
  obtain ⟨hu, hw⟩ := HintNeed.Met.of_join hneed
  obtain ⟨hsound, hfate⟩ := hx r hr hu
  cases h : outcome x r with
  | error e =>
    rw [after_bind_error h, outcome_bind_error h]
    exact ⟨hsound, fun _ hb => by cases hb⟩
  | ok a =>
    rw [after_bind_ok h, outcome_bind_ok h]
    have hallows := hfate a h
    obtain ⟨hsound', hfate'⟩ := hf a ⟨r, h⟩ _ hsound (hallows.met hw)
    exact ⟨hsound', fun b hb => hallows.next (hfate' b hb)⟩

/-- A calm computation before another one. -/
theorem after_calm {x : Check α} {f : α → Check β} (hx : Calm x) (hf : ∀ a, Uses (f a) domain u) :
    Uses (x >>= f) domain u := by
  have h := (hx.uses domain).bind fun a _ => hf a
  rwa [HintUse.idle_seq] at h

/-- A calm computation after another one. -/
theorem then_calm {x : Check α} {f : α → Check β} (hx : Uses x domain u) (hf : ∀ a, Calm (f a)) :
    Uses (x >>= f) domain u := by
  have h := hx.bind fun a _ => (hf a).uses domain
  rwa [HintUse.seq_idle] at h

/-- A computation over all states does the same over every domain. -/
theorem everywhere {x : Check α} (hx : Uses x none u) (domain : Option StateSet) : Uses x domain u.everywhere :=
  fun r hr hneed => hx r hr hneed.of_everywhere

theorem narrow {x : Check α} (states : StateSet) (hx : Uses x (some (narrow states domain)) u) :
    Uses x domain u :=
  fun r hr hneed => hx r hr (hneed.narrow states)

theorem optional {x y : Check α} {p : Prop} [Decidable p] (hx : Calm x) (hy : Uses y domain u) :
    Uses (if p then x else y) domain u.optional := by
  intro r hr hneed
  by_cases h : p
  · rw [if_pos h]
    obtain ⟨hhint, hcalls⟩ := hx r
    rw [hhint]
    exact ⟨fun q hq => hr q (hcalls q hq), fun _ _ => HintFate.allows_same _ _⟩
  · rw [if_neg h]
    obtain ⟨hsound, hfate⟩ := hy r hr hneed
    exact ⟨hsound, fun a ha => (hfate a ha).orSkipped⟩

end Uses

end Check

/-! ## Filters -/

theorem StateSet.mem_of_first? {a : StateSet} {s : Nat} (h : a.first? = some s) : s ∈ a :=
  List.mem_of_mem_head? h

theorem StateSet.eq_of_size_le_one {a : StateSet} (h : a.size ≤ 1) : ∀ s ∈ a, ∀ z ∈ a, s = z := by
  intro s hs z hz
  obtain ⟨xs, hsorted, hbound⟩ := a
  match xs with
  | [] => cases hs
  | [x] => exact (List.mem_singleton.mp hs).trans (List.mem_singleton.mp hz).symm
  | x :: y :: rest =>
    change rest.length + 2 ≤ 1 at h
    omega

namespace Filter

variable {f : Filter} {settings : Settings} {m : Model} {s : Selection} {v : StateVector}

/-- Nothing is asked, and the hint is the one for the selection that is yielded. -/
def SetsHint (f : Filter) (x : Check Selection) : Prop :=
  ∀ r, (after x r).calls = r.calls ∧ ∀ s, outcome x r = .ok s → (after x r).hint = f.hint s

theorem SetsHint.throw (f : Filter) (e : CheckError) : SetsHint f (MonadExcept.throw e) :=
  fun _ => ⟨rfl, fun _ h => by cases h⟩

theorem SetsHint.message {x : Check Selection} (t : String) (hx : SetsHint f x) :
    SetsHint f (do Check.message t; x) :=
  fun r => hx { r with messages := t :: r.messages }

theorem SetsHint.setHint (f : Filter) (s : Selection) : SetsHint f (do Check.setHint (f.hint s); return s) := by
  refine fun _ => ⟨rfl, fun s' h => ?_⟩
  cases h
  rfl

theorem SetsHint.ite {x y : Check Selection} {p : Prop} [Decidable p] (hx : SetsHint f x) (hy : SetsHint f y) :
    SetsHint f (if p then x else y) := by
  by_cases h : p
  · rw [if_pos h]
    exact hx
  · rw [if_neg h]
    exact hy

theorem select_setsHint (f : Filter) (m : Model) (states : StateSet) : SetsHint f (f.select m states) := by
  have hrest : ∀ s : Selection, SetsHint f (do
      if f.op = .state ∧ s.states.size ≠ 1 then throw (.filterCardinality f.selectorText s.states.size)
      Check.setHint (f.hint s)
      return s) := fun s => .ite (.throw f _) (.setHint f s)
  unfold select
  exact .ite (.throw f _) (.ite (.message _ (hrest _)) (hrest _))

/-- No hint is set if the filter is not for one state and not about the only initial one. -/
theorem hint_eq_none (hstate : f.op ≠ .state) (hinit : f.op = .forAll ∨ f.op = .first → s.isOnlyInit = false) :
    f.hint s = none := by
  unfold Filter.hint
  split
  · next h => exact absurd h hstate
  · next h => rw [hinit (Or.inl h), if_neg Bool.false_ne_true]
  · next h => rw [hinit (Or.inr h), if_neg Bool.false_ne_true]
  · rfl

/-- The hint that a filter sets is about the only state of the filter, if it is for one state. -/
theorem fitsDomain_hint (h : ∀ a ∈ s.states, ∀ b ∈ s.states, a = b) : FitsDomain (some s.states) (f.hint s) := by
  intro p hp
  have hfirst : s.states.first?.map (⟨f.op, ·⟩) = some p := by
    unfold Filter.hint at hp
    split at hp
    · exact hp
    · split at hp
      · exact hp
      · cases hp
    · split at hp
      · exact hp
      · cases hp
    · cases hp
  obtain ⟨z, hz, rfl⟩ := Option.map_eq_some_iff.mp hfirst
  exact ⟨s.states, rfl, fun a ha => h a ha z (StateSet.mem_of_first? hz)⟩

end Filter

end Statewise
