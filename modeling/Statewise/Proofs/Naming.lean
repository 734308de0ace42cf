import Statewise.Proofs.Asking
import Statewise.Proofs.Minimising
import Statewise.Proofs.Registering

/-!
# Names of generated labels

An extraction names its labels `L0`, `L1`, … without looking at the labels that there are. Hence the names of its
labels are new unless the model or the definitions have a label with a name from the beginning of this row, in
which case a minimiser that attaches the labels next to those of the model is refused the name. Registering state
formulas on a model is the sibling that looks for free names.
-/

namespace Statewise

open Check

/-! ## The row of names -/

namespace Found

variable {found : Found} {taken : String → Prop}

/-- The name of the label with the given number. -/
def nameOf (i : Nat) : String := "L" ++ toString i

/-- None of the labels has a name that is taken. -/
def Avoids (taken : String → Prop) (found : Found) : Prop := ∀ p ∈ found, ¬taken p.1

/-- None of the first names in the row is taken. -/
def RowFree (taken : String → Prop) (count : Nat) : Prop := ∀ i < count, ¬taken (nameOf i)

/-- The labels have new names exactly if as many names from the beginning of the row are free. -/
def AvoidsIfFree (taken : String → Prop) (found : Found) : Prop := found.Avoids taken ↔ RowFree taken found.length

theorem Numbered.mem_names_iff (h : found.Numbered) {name : String} :
    name ∈ found.map Prod.fst ↔ ∃ i < found.length, nameOf i = name := by
  unfold Numbered at h
  rw [h, List.mem_map]
  simp only [List.mem_range, nameOf]

theorem Numbered.avoidsIfFree (h : found.Numbered) (taken : String → Prop) : found.AvoidsIfFree taken := by
  constructor
  · intro hnew i hi
    obtain ⟨p, hp, hname⟩ := List.mem_map.mp (h.mem_names_iff.mpr ⟨i, hi, rfl⟩)
    rw [← hname]
    exact hnew p hp
  · intro hfree p hp
    obtain ⟨i, hi, hname⟩ := h.mem_names_iff.mp (List.mem_map.mpr ⟨p, hp, rfl⟩)
    rw [← hname]
    exact hfree i hi

end Found

/-! ## Attaching labels under their own names -/

/-- Labels with different names are attached if the model has none of the names; else the first one that it has is
refused. -/
theorem Model.addLabels_cases {m : Model} {found : Found} (h : (found.map Prod.fst).Nodup) :
    (∃ m', m.addLabels found = .ok m' ∧ ∀ p ∈ found, m.hasLabel p.1 = false) ∨
      ∃ p ∈ found, m.hasLabel p.1 = true ∧ m.addLabels found = .error (.duplicateLabel p.1) := by
  induction found generalizing m with
  | nil => exact Or.inl ⟨m, rfl, fun _ hp => absurd hp List.not_mem_nil⟩
  | cons p rest ih =>
    obtain ⟨name, states⟩ := p
    rw [List.map_cons, List.nodup_cons] at h
    have hcons : m.addLabels ((name, states) :: rest) = (m.addLabel name states >>= fun m => m.addLabels rest) := rfl
    cases hname : m.hasLabel name with
    | true =>
      refine Or.inr ⟨_, List.mem_cons_self, hname, ?_⟩
      rw [hcons, Model.addLabel, if_pos hname]
      rfl
    | false =>
      have hadd : m.addLabels ((name, states) :: rest) =
          Model.addLabels { m with labels := m.labels.insert name states } rest := by
        rw [hcons, Model.addLabel, if_neg (Bool.eq_false_iff.mp hname)]
        rfl
      -- The label that was attached takes no name from the rest.
      have hsame : ∀ q ∈ rest,
          Model.hasLabel { m with labels := m.labels.insert name states } q.1 = m.hasLabel q.1 := by
        intro q hq
        have hne : q.1 ≠ name := fun heq => h.1 (heq ▸ List.mem_map.mpr ⟨q, hq, rfl⟩)
        rw [Bool.eq_iff_iff, Model.hasLabel_insert, or_iff_right hne]
      rw [hadd]
      rcases ih (m := { m with labels := m.labels.insert name states }) h.2 with
        ⟨m', hm', hfree⟩ | ⟨q, hq, htaken, herror⟩
      · refine Or.inl ⟨m', hm', List.forall_mem_cons.mpr ⟨hname, fun q hq => ?_⟩⟩
        rw [← hsame q hq]
        exact hfree q hq
      · rw [hsame q hq] at htaken
        exact Or.inr ⟨q, List.mem_cons_of_mem _ hq, htaken, herror⟩

/-- The labels of an extraction are attached exactly if the model has no label with a name from the row. -/
theorem Found.Numbered.addLabels_iff {found : Found} (h : found.Numbered) (m : Model) :
    (∃ m', m.addLabels found = .ok m') ↔ RowFree (fun name => m.hasLabel name = true) found.length := by
  refine Iff.trans ?_ (h.avoidsIfFree fun name => m.hasLabel name = true)
  rcases Model.addLabels_cases (m := m) h.nodup with ⟨m', hm', hfree⟩ | ⟨p, hp, htaken, herror⟩
  · exact iff_of_true ⟨m', hm'⟩ fun q hq => by simp [hfree q hq]
  · refine iff_of_false ?_ fun hfree => hfree p hp htaken
    rintro ⟨m', hm'⟩
    rw [herror] at hm'
    cases hm'

namespace Checker

variable {c : Checker} {m : Model} {e e' : Expr} {r r' : Run}

/-! ## Names that users have taken -/

/-- A label is attached to the model under the name, or defined by an expression, or listed as one of the model. -/
def Taken (c : Checker) (m : Model) (name : String) : Prop :=
  m.hasLabel name = true ∨ (∃ d ∈ c.definitions.labels, d.name = name) ∨ name ∈ c.definitions.modelLabels

/-- A question hands out names that are new as far as the row is free, on the model that it is about and on the model
that the checker was given. -/
def HandsOutNew (c : Checker) (m : Model) : Call → Prop
  | .quant q => Found.AvoidsIfFree (c.Taken q.model) q.labels ∧ Found.AvoidsIfFree (c.Taken m) q.labels
  | .minimise labels => Found.AvoidsIfFree (c.Taken m) labels
  | .multi .. | .rewards .. => True

theorem WellAsked.handsOutNew {m' : Model} {entered : Entered} {q : Call} (h : c.WellAsked m' entered e q) (m : Model) :
    c.HandsOutNew m q := by
  cases q with
  | quant q =>
    obtain ⟨-, ⟨_, _, _, _, -, hwell⟩, -⟩ := h
    exact ⟨hwell.numbered.avoidsIfFree _, hwell.numbered.avoidsIfFree _⟩
  | minimise labels => exact h.elim
  | multi args domain => trivial
  | rewards index allowNegative expected => trivial

theorem WellChecked.handsOutNew {m' : Model} {q : Call} (h : c.WellChecked m' e q) (m : Model) :
    c.HandsOutNew m q := by
  rcases h with h | ⟨_, _, _, _, -, h⟩ | ⟨labels, _, _, _, rfl, hwell⟩
  · exact h.handsOutNew m
  · exact h.handsOutNew m
  · exact hwell.numbered.avoidsIfFree _

/-! ## Minimisation -/

/-- A minimisation hands the labels of an extraction out and goes on with the expression that it has left. -/
theorem run_minimised {labels : Found} (h : (c.minimising true).extract m e r = (.ok (e', labels), r')) :
    (c.minimising true).minimised m e r = (do
      discard <| Check.ask (.minimise labels)
      let m ← Check.ofExcept (labelling m labels)
      Check.message ("Modified property: " ++ e'.text)
      return (m, e')) r' := by
  have hextract : outcome ((c.minimising true).extract m e) r = .ok (e', labels) := congrArg Prod.fst h
  have hafter : after ((c.minimising true).extract m e) r = r' := congrArg Prod.snd h
  have hminimised : (c.minimising true).minimised m e = ((c.minimising true).extract m e >>= fun p => do
      discard <| Check.ask (.minimise p.2)
      let m ← Check.ofExcept (labelling m p.2)
      Check.message ("Modified property: " ++ p.1.text)
      return (m, p.1)) := rfl
  rw [hminimised, run_bind_ok hextract, hafter]

/-- A check that minimises by attaching labels gets past the minimisation, or it fails with a name from the row that
the model has. -/
theorem check_minimising_cases {labels : Found}
    (h : (c.minimising true).extract m ((c.minimising true).prepared m e) r = (.ok (e', labels), r')) :
    (∃ m', outcome ((c.minimising true).minimised m ((c.minimising true).prepared m e)) r = .ok (m', e') ∧
      Gains m labels m') ∨
    ∃ i < labels.length, m.hasLabel (Found.nameOf i) = true ∧
      outcome ((c.minimising true).check m e) r = .error (.model (.duplicateLabel (Found.nameOf i))) := by
  have hnumbered := (extract_wellExtracted h).numbered
  have hminimised := congrArg Prod.fst (run_minimised h)
  rcases Model.addLabels_cases (m := m) hnumbered.nodup with ⟨m', hm', -⟩ | ⟨p, hp, htaken, herror⟩
  · have hattach : labelling m labels = .ok m' := Yields.mapError_eq_ok.mpr hm'
    rw [hattach] at hminimised
    exact Or.inl ⟨m', hminimised, addLabels_gains hm'⟩
  · obtain ⟨i, hi, hname⟩ := hnumbered.mem_names_iff.mp (List.mem_map.mpr ⟨p, hp, rfl⟩)
    rw [← hname] at htaken herror
    have hattach : labelling m labels = .error (.model (.duplicateLabel (Found.nameOf i))) := by
      unfold labelling
      rw [herror]
      rfl
    rw [hattach] at hminimised
    exact Or.inr ⟨i, hi, htaken, outcome_bind_error hminimised⟩

/-! ## Extraction -/

/-- The names of generated labels are new exactly if users have not taken them from the beginning of the row `L0`, `L1`,
…: in what an extraction yields, in what the solver and the minimiser are asked by any call of the checker, and for
a minimiser that attaches the labels to the model, which succeeds in this case only. -/
theorem generated_new (c : Checker) (m : Model) (e : Expr) :
    (∀ r e' labels r', c.extract m e r = (.ok (e', labels), r') →
      labels.AvoidsIfFree (c.Taken m) ∧
        ((∃ m', labelling m labels = .ok m') ↔
          Found.RowFree (fun name => m.hasLabel name = true) labels.length)) ∧
    Asks (c.HandsOutNew m) (c.check m e) ∧ (∀ domain, Asks (c.HandsOutNew m) (c.checkExpression m e domain)) ∧
    Asks (c.HandsOutNew m) (c.extract m e) ∧ Asks (c.HandsOutNew m) (c.registerFormulas m e) ∧
    ∀ names, Asks (c.HandsOutNew m) (c.checkLabels m names) := by
  refine ⟨fun r e' labels r' h => ?_, (check_asks c m e).mono fun q hq => hq.handsOutNew m,
    fun domain => (checkExpression_asks c m e domain).mono fun q hq => hq.handsOutNew m,
    (extract_asks c m e).mono fun q hq => hq.handsOutNew m,
    (registerFormulas_asks c m e).mono fun q hq => hq.handsOutNew m,
    fun names => (checkLabels_asks c m names).mono fun q ⟨_, _, hq⟩ => hq.handsOutNew m⟩
  have hnumbered := (extract_wellExtracted h).numbered
  refine ⟨hnumbered.avoidsIfFree _, ?_⟩
  rw [← hnumbered.addLabels_iff m]
  simp only [labelling, Yields.mapError_eq_ok]

/-! ### The first name of the row -/

end Checker

/-- `x = 1` -/
def Expr.isOne : Expr := .binary .eq (.var "x" 0 .int) (.literal (.int 1))

namespace Checker

/-- Labels of the model do not matter to `x = 1`, and it gets the first name. -/
theorem extractFrom_isOne (c : Checker) (labels : NameMap StateSet) (entered : Entered) :
    c.extractFrom .whereOpen { Model.twoStates with labels } entered [] .isOne =
      return (.label "L0", [("L0", .singleton 1)]) := by
  have hone : satisfying .whereOpen c { Model.twoStates with labels } entered none .isOne = return .singleton 1 := by
    unfold satisfying Expr.isOne
    rw [evalWith_strict .whereOpen _ _ _ _ (by decide), evalWith_var, evalWith_literal]
    rfl
  rw [extractFrom_proposition _ _ _ _ _ ⟨rfl, rfl⟩, hone]
  rfl

theorem extract_isOne (c : Checker) (labels : NameMap StateSet) :
    c.extract { Model.twoStates with labels } .isOne .start =
      (.ok (.label "L0", [("L0", .singleton 1)]), after (Check.restart none) .start) := by
  unfold extract
  rw [extractFrom_isOne]
  rfl

/-- The name is new on two states without labels, and a minimiser can attach it. -/
theorem generated_new_twoStates :
    Found.Avoids (bare.Taken .twoStates) [("L0", .singleton 1)] ∧
      ∃ m', labelling .twoStates [("L0", .singleton 1)] = .ok m' := by
  obtain ⟨hnew, hattach⟩ := (generated_new bare .twoStates .isOne).1 _ _ _ _ (extract_isOne bare .empty)
  refine ⟨hnew.mpr fun i hi => ?_, hattach.mpr fun i hi => ?_⟩
  · rintro (h | ⟨d, hd, -⟩ | h)
    · cases h
    · cases hd
    · cases h
  · exact Bool.false_ne_true

/-- What is checked for `x = 1` has two labels after extraction. -/
theorem extract_prepared_isOne :
    (bare.minimising true).extract .twoStatesNumbered ((bare.minimising true).prepared .twoStatesNumbered .isOne)
        .start =
      (.ok (.filter .forAll (.label "L0") (some (.label "L1")) true true,
        [("L0", .singleton 1), ("L1", .singleton 0)]), after (Check.restart none) .start) := by
  have hinit : satisfying .whereOpen (bare.minimising true) .twoStatesNumbered .none none (.label Expr.initName) =
      return .singleton 0 := by
    unfold satisfying
    rw [evalWith_builtin .whereOpen _ _ _ none rfl rfl]
    rfl
  show (bare.minimising true).extract .twoStatesNumbered
    (.filter .forAll .isOne (some (.label Expr.initName)) true true) .start = _
  unfold extract
  rw [extractFrom_children _ _ _ _ _ (by decide) (by simp), extractFromChildren_filter, Model.twoStatesNumbered,
    extractFrom_isOne, pure_bind]
  simp only [extractSelector]
  rw [extractFrom_proposition _ _ _ _ _ ⟨rfl, rfl⟩, ← Model.twoStatesNumbered, hinit]
  rfl

/-- The name of a generated label is that of a label of the model, and a check that would succeed fails for it. -/
theorem generated_clash :
    (∃ e' labels r', bare.extract .twoStatesNumbered .isOne .start = (.ok (e', labels), r') ∧
      ∃ p ∈ labels, bare.Taken .twoStatesNumbered p.1) ∧
    outcome ((bare.minimising true).check .twoStatesNumbered .isOne) .start =
      .error (.model (.duplicateLabel "L0")) ∧
    ∃ o, outcome ((bare.minimising false).check .twoStatesNumbered .isOne) .start = .ok o := by
  refine ⟨⟨_, _, _, extract_isOne bare _, _, List.mem_cons_self, Or.inl rfl⟩, ?_, ?_⟩
  · rcases check_minimising_cases extract_prepared_isOne with ⟨m', -, hgains⟩ | ⟨i, hi, htaken, herror⟩
    -- The label of the model cannot be kept and stand for another set.
    · have hold := hgains.keeps "L0" (.singleton 0) rfl
      have hnew := hgains.carries ("L0", .singleton 1) List.mem_cons_self
      rw [id, hold] at hnew
      cases hnew
    · match i with
      | 0 => exact herror
      | 1 => cases htaken
  · have heval : ∃ v r', evalWith .whereOpen (bare.minimising false) .twoStatesNumbered .none
        (.filter .forAll .isOne (some (.label Expr.initName)) true true) none (after (Check.restart none) .start) =
          (.ok v, r') := by
      have hstrict : ¬(Strategy.whereOpen = .whereOpen ∧ BinaryOp.eq.isLazy = true) := by decide
      rw [evalWith_filter]
      unfold selected satisfying applyFilter Expr.isOne
      simp only [evalWith_strict .whereOpen _ _ _ _ hstrict, evalWith_var, evalWith_literal]
      rw [evalWith_builtin .whereOpen (bare.minimising false) .twoStatesNumbered .none none rfl rfl]
      exact ⟨_, _, rfl⟩
    obtain ⟨v, r', heval⟩ := heval
    exact ⟨_, check_of_eval rfl heval⟩

end Checker

end Statewise
