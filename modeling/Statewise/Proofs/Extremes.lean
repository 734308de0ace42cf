import Statewise.Proofs.Tabulate
import Statewise.Vector.Reduction
import Mathlib

/-!
# Extreme values

The least and the greatest value of a vector over some states. The values are folded from the first state to the last,
and each step keeps one of two values. What remains in the end is attained, and no value is beyond it. A double that is
no number is beyond nothing and gives way to numbers.
-/

namespace Statewise

/-! ## The order of doubles -/

namespace Ranking

open Float.Model (UnpackedFloat)

/-- The place of a double among those that are numbers: infinities are outermost, the zeros share one place, and in
between exponents come before mantissas. -/
def rank : UnpackedFloat → ℤ ×ₗ ℤ ×ₗ ℤ
  | .infinity .negative => toLex (-2, toLex (0, 0))
  | .infinity .positive => toLex (2, toLex (0, 0))
  | .finite .negative m e _ => toLex (-1, toLex (-e, -m))
  | .finite .positive m e _ => toLex (1, toLex (e, m))
  | .zero _ | .notANumber => toLex (0, toLex (0, 0))

theorem compare_then_eq_lt {e e' : Int} {m m' : Nat} :
    (compare e e').then (compare m m') = .lt ↔ e < e' ∨ e = e' ∧ m < m' := by
  rw [Ordering.then_eq_lt, Int.compare_eq_lt, Int.compare_eq_eq, Nat.compare_eq_lt]

theorem compare_then_eq_gt {e e' : Int} {m m' : Nat} :
    (compare e e').then (compare m m') = .gt ↔ e' < e ∨ e = e' ∧ m' < m := by
  rw [Ordering.then_eq_gt, Int.compare_eq_gt, Int.compare_eq_eq, Nat.compare_eq_gt]

theorem lt_iff_rank_lt {a b : UnpackedFloat} (ha : a.isNaN = false) (hb : b.isNaN = false) :
    a.lt b = true ↔ rank a < rank b := by
  have hsigns : compare UnpackedFloat.Sign.negative UnpackedFloat.Sign.positive = .lt := rfl
  unfold UnpackedFloat.lt
  rw [beq_iff_eq]
  -- One case for each pair of kinds and signs; only numbers of one sign compare their parts.
  rcases a with (_ | _) | _ | (_ | _) | ⟨_ | _, m, e, hm⟩ <;>
    rcases b with (_ | _) | _ | (_ | _) | ⟨_ | _, m', e', hm'⟩ <;>
    simp [UnpackedFloat.compare, rank, Prod.Lex.lt_iff, UnpackedFloat.isNaN, compare_then_eq_lt, compare_then_eq_gt,
      hsigns] at ha hb ⊢

/-- What is no number is beyond nothing, and nothing is beyond it. -/
theorem isNaN_of_lt {a b : UnpackedFloat} (h : a.lt b = true) : a.isNaN = false ∧ b.isNaN = false := by
  cases a with
  | notANumber => cases h
  | _ =>
    cases b with
    | notANumber => cases h
    | _ => exact ⟨rfl, rfl⟩

theorem float_lt {x y : Float} : x < y ↔ x.toModel.unpack.lt y.toModel.unpack = true := by
  show decide ((Float.Model.lt _ _) = true) = true ↔ _
  rw [decide_eq_true_iff]
  exact Iff.rfl

/-- Doubles that are numbers are ordered by their places. -/
theorem float_lt_iff {x y : Float} (hx : x.isNaN = false) (hy : y.isNaN = false) :
    x < y ↔ rank x.toModel.unpack < rank y.toModel.unpack := by
  rw [float_lt, lt_iff_rank_lt hx hy]

end Ranking

/-! ## The order of values -/

namespace Value

/-- False is less than true, and numbers are ordered as such. -/
def Less : Value → Value → Prop
  | bool a, bool b => a = false ∧ b = true
  | int a, int b => a < b
  | double x, double y => x < y
  | _, _ => False

def isNaN : Value → Bool
  | double x => x.isNaN
  | _ => false

/-- The place of a value among those of its type. -/
def rank : Value → ℤ ×ₗ ℤ ×ₗ ℤ
  | bool b => toLex (0, toLex (0, if b then 1 else 0))
  | int n => toLex (0, toLex (0, n.toInt))
  | double x => Ranking.rank x.toModel.unpack

theorem rank_lt_of_less {a b : Value} (h : a.Less b) :
    a.isNaN = false ∧ b.isNaN = false ∧ a.rank < b.rank := by
  cases a <;> cases b <;> try exact h.elim
  case bool.bool x y =>
    obtain ⟨rfl, rfl⟩ := h
    decide
  case int.int x y =>
    refine ⟨rfl, rfl, ?_⟩
    simpa [rank, Prod.Lex.lt_iff] using Int64.lt_iff_toInt_lt.mp h
  case double.double x y =>
    obtain ⟨hx, hy⟩ := Ranking.isNaN_of_lt (Ranking.float_lt.mp h)
    exact ⟨hx, hy, (Ranking.float_lt_iff hx hy).mp h⟩

/-- The first value has the type of the second one, and stands before it or is in its place in an order of values;
if it is no number, neither is the second one. -/
structure Leads {K : Type} [LinearOrder K] (key : Value → K) (a b : Value) : Prop where
  type : a.type = b.type
  le : b.isNaN = false → a.isNaN = false ∧ key a ≤ key b

namespace Leads

variable {K : Type} [LinearOrder K] {key : Value → K} {a b c : Value}

theorem refl (a : Value) : Leads key a a := ⟨rfl, fun h => ⟨h, le_refl _⟩⟩

theorem trans (h : Leads key a b) (h' : Leads key b c) : Leads key a c := by
  refine ⟨h.type.trans h'.type, fun hc => ?_⟩
  obtain ⟨hb, hbc⟩ := h'.le hc
  obtain ⟨ha, hab⟩ := h.le hb
  exact ⟨ha, hab.trans hbc⟩

end Leads

/-- The combination of two values of one type is one of them, and leads both. -/
def Picks {K : Type} [LinearOrder K] (key : Value → K) (combine : Value → Value → Except EvalError Value) : Prop :=
  ∀ a b : Value, a.type = b.type →
    ∃ z, combine a b = .ok z ∧ (z = a ∨ z = b) ∧ Leads key z a ∧ Leads key z b

theorem leads_of_le {K : Type} [LinearOrder K] {key : Value → K} {a b : Value} (htype : a.type = b.type)
    (ha : a.isNaN = false) (hle : key a ≤ key b) : Leads key a b := ⟨htype, fun _ => ⟨ha, hle⟩⟩

/-- One of two doubles: a number rather than none, and of two numbers the one that comes first. -/
theorem picks_double {K : Type} [LinearOrder K] (key : Value → K) (before : Float → Float → Prop)
    [DecidableRel before] (hbefore : ∀ x y : Float, x.isNaN = false → y.isNaN = false →
      (before x y ↔ key (double x) < key (double y))) (x y : Float) :
    ∃ z, (if x.isNaN then y else if y.isNaN then x else if before y x then y else x) = z ∧ (z = x ∨ z = y) ∧
      Leads key (double z) (double x) ∧ Leads key (double z) (double y) := by
  have hnone : ∀ {z w : Float}, z.isNaN = true → Leads key (double w) (double z) := fun {z w} hz =>
    ⟨rfl, fun h => absurd (hz.symm.trans h) (by decide)⟩
  refine ⟨_, rfl, ?_⟩
  cases hx : x.isNaN with
  | true => exact ⟨.inr rfl, hnone hx, .refl _⟩
  | false =>
    rw [if_neg Bool.false_ne_true]
    cases hy : y.isNaN with
    | true => exact ⟨.inl rfl, .refl _, hnone hy⟩
    | false =>
      rw [if_neg Bool.false_ne_true]
      by_cases h : before y x
      · rw [if_pos h]
        exact ⟨.inr rfl, leads_of_le rfl hy (le_of_lt ((hbefore y x hy hx).mp h)), .refl _⟩
      · rw [if_neg h]
        exact ⟨.inl rfl, .refl _, leads_of_le rfl hx (not_lt.mp fun hlt => h ((hbefore y x hy hx).mpr hlt))⟩

/-- One of two integers, by a test that decides which of them comes first. -/
theorem picks_int {K : Type} [LinearOrder K] (key : Value → K) (before : Int64 → Int64 → Prop) [DecidableRel before]
    (hle : ∀ x y, before x y → key (int x) ≤ key (int y)) (hge : ∀ x y, ¬before x y → key (int y) ≤ key (int x))
    (x y : Int64) :
    ∃ z, (if before x y then x else y) = z ∧ (z = x ∨ z = y) ∧ Leads key (int z) (int x) ∧
      Leads key (int z) (int y) := by
  refine ⟨_, rfl, ?_⟩
  by_cases h : before x y
  · rw [if_pos h]
    exact ⟨.inl rfl, .refl _, leads_of_le rfl rfl (hle x y h)⟩
  · rw [if_neg h]
    exact ⟨.inr rfl, leads_of_le rfl rfl (hge x y h), .refl _⟩

theorem rank_int_le {x y : Int64} (h : x ≤ y) : (int x).rank ≤ (int y).rank := by
  simpa [rank, Prod.Lex.le_iff] using Int64.le_iff_toInt_le.mp h

theorem picks_lesserValue : Picks rank StateVector.lesserValue := by
  intro a b htype
  cases a <;> cases b <;> try cases htype
  case bool.bool x y =>
    cases x <;> cases y <;>
      exact ⟨_, rfl, by decide, leads_of_le rfl rfl (by decide), leads_of_le rfl rfl (by decide)⟩
  case int.int x y =>
    obtain ⟨z, rfl, hcases, hleads⟩ := picks_int rank (· ≤ ·) (fun x y => rank_int_le)
      (fun x y h => rank_int_le ((Int64.le_total x y).resolve_left h)) x y
    exact ⟨_, rfl, hcases.imp (congrArg int) (congrArg int), hleads⟩
  case double.double x y =>
    obtain ⟨z, rfl, hcases, hleads⟩ := picks_double rank (· < ·) (fun x y => Ranking.float_lt_iff) x y
    exact ⟨_, rfl, hcases.imp (congrArg double) (congrArg double), hleads⟩

theorem picks_greaterValue : Picks (OrderDual.toDual ∘ rank) StateVector.greaterValue := by
  intro a b htype
  cases a <;> cases b <;> try cases htype
  case bool.bool x y =>
    cases x <;> cases y <;>
      exact ⟨_, rfl, by decide, leads_of_le rfl rfl (by decide), leads_of_le rfl rfl (by decide)⟩
  case int.int x y =>
    obtain ⟨z, hz, hcases, hleads⟩ := picks_int (OrderDual.toDual ∘ rank) (fun x y => ¬x ≤ y)
      (fun x y h => rank_int_le ((Int64.le_total x y).resolve_left h)) (fun x y h => rank_int_le (not_not.mp h)) x y
    rw [ite_not] at hz
    exact ⟨_, congrArg (fun z => Except.ok (int z)) hz, hcases.imp (congrArg int) (congrArg int), hleads⟩
  case double.double x y =>
    obtain ⟨z, rfl, hcases, hleads⟩ := picks_double (OrderDual.toDual ∘ rank) (fun x y => y < x)
      (fun x y hx hy => Ranking.float_lt_iff hy hx) x y
    exact ⟨_, rfl, hcases.imp (congrArg double) (congrArg double), hleads⟩

end Value

/-! ## Values of a vector -/

namespace StateVector

open Value

variable {n : Nat} {v : StateVector} {states : StateSet}

/-- The value is that of one of the states, and none of the values in these states is less. It is no number only if none
of them is. -/
structure HasLeast (v : StateVector) (states : StateSet) (x : Value) : Prop where
  attained : ∃ s ∈ states, v.valueAt s = .ok x
  least : ∀ s ∈ states, ∀ y, v.valueAt s = .ok y → ¬y.Less x
  number : ∀ s ∈ states, ∀ y, v.valueAt s = .ok y → y.isNaN = false → x.isNaN = false

/-- The value is that of one of the states, and none of the values in these states is greater. It is no number only if
none of them is. -/
structure HasGreatest (v : StateVector) (states : StateSet) (x : Value) : Prop where
  attained : ∃ s ∈ states, v.valueAt s = .ok x
  greatest : ∀ s ∈ states, ∀ y, v.valueAt s = .ok y → ¬x.Less y
  number : ∀ s ∈ states, ∀ y, v.valueAt s = .ok y → y.isNaN = false → x.isNaN = false

/-- Folding the entries of a vector by a combination that keeps one of two values leads to one of the entries, which
leads them all. -/
theorem foldOver_picks {K : Type} [LinearOrder K] {key : Value → K}
    {combine : Value → Value → Except EvalError Value} (hcombine : Picks key combine)
    (hentry : ∀ s ∈ states, ∃ y, v.valueAt s = .ok y) (hne : ∃ s, s ∈ states) :
    ∃ x, v.foldOver combine states = .ok x ∧ (∃ s ∈ states, v.valueAt s = .ok x) ∧
      ∀ s ∈ states, ∀ y, v.valueAt s = .ok y → Leads key x y := by
  -- The value so far is an entry or the value that the fold began with, and leads all that were seen.
  have hfold : ∀ (xs : List Nat) (first : Value), first.type = v.type → (∀ s ∈ xs, ∃ y, v.valueAt s = .ok y) →
      ∃ x, xs.foldlM (fun acc s => do combine acc (← v.valueAt s)) first = .ok x ∧
        (x = first ∨ ∃ s ∈ xs, v.valueAt s = .ok x) ∧ Leads key x first ∧
        ∀ s ∈ xs, ∀ y, v.valueAt s = .ok y → Leads key x y := by
    intro xs
    induction xs with
    | nil => exact fun first _ _ => ⟨first, rfl, .inl rfl, .refl _, fun s hs => absurd hs List.not_mem_nil⟩
    | cons s xs ih =>
      intro first htype hxs
      obtain ⟨y, hy⟩ := hxs s List.mem_cons_self
      obtain ⟨z, hz, hcases, hfirst, hsecond⟩ := hcombine first y (htype.trans (type_of_valueAt hy).symm)
      obtain ⟨x, hx, hfrom, hleads, hall⟩ :=
        ih z (hfirst.type.trans htype) fun t ht => hxs t (List.mem_cons_of_mem s ht)
      refine ⟨x, ?_, ?_, hleads.trans hfirst, ?_⟩
      · rw [List.foldlM_cons, hy]
        exact Yields.bind_eq_ok.mpr ⟨z, hz, hx⟩
      · rcases hfrom with rfl | ⟨t, ht, hxt⟩
        · rcases hcases with rfl | rfl
          · exact .inl rfl
          · exact .inr ⟨s, List.mem_cons_self, hy⟩
        · exact .inr ⟨t, List.mem_cons_of_mem s ht, hxt⟩
      · intro t ht w hw
        rcases List.mem_cons.mp ht with rfl | ht
        · rw [hy] at hw
          cases hw
          exact hleads.trans hsecond
        · exact hall t ht w hw
  have hmem : ∀ s, s ∈ states ↔ s ∈ states.toList := fun s => Iff.rfl
  simp only [hmem] at hentry hne ⊢
  unfold foldOver
  cases hstates : states.toList with
  | nil =>
    rw [hstates] at hne
    obtain ⟨s, hs⟩ := hne
    exact absurd hs List.not_mem_nil
  | cons s rest =>
    rw [hstates] at hentry
    obtain ⟨first, hfirst⟩ := hentry s List.mem_cons_self
    obtain ⟨x, hx, hfrom, hleads, hall⟩ :=
      hfold rest first (type_of_valueAt hfirst) fun t ht => hentry t (List.mem_cons_of_mem s ht)
    refine ⟨x, Yields.bind_eq_ok.mpr ⟨first, hfirst, hx⟩, ?_, ?_⟩
    · rcases hfrom with rfl | ⟨t, ht, hxt⟩
      · exact ⟨s, List.mem_cons_self, hfirst⟩
      · exact ⟨t, List.mem_cons_of_mem s ht, hxt⟩
    · intro t ht y hy
      rcases List.mem_cons.mp ht with rfl | ht
      · rw [hfirst] at hy
        cases hy
        exact hleads
      · exact hall t ht y hy

theorem minOver_least (hentry : ∀ s ∈ states, ∃ y, v.valueAt s = .ok y) (hne : ∃ s, s ∈ states) :
    ∃ x, v.minOver states = .ok x ∧ v.HasLeast states x := by
  obtain ⟨x, hx, hattained, hleads⟩ := foldOver_picks picks_lesserValue hentry hne
  refine ⟨x, hx, hattained, fun s hs y hy hless => ?_, fun s hs y hy hnum => ((hleads s hs y hy).le hnum).1⟩
  obtain ⟨hnum, -, hlt⟩ := rank_lt_of_less hless
  exact absurd hlt (not_lt.mpr ((hleads s hs y hy).le hnum).2)

theorem maxOver_greatest (hentry : ∀ s ∈ states, ∃ y, v.valueAt s = .ok y) (hne : ∃ s, s ∈ states) :
    ∃ x, v.maxOver states = .ok x ∧ v.HasGreatest states x := by
  obtain ⟨x, hx, hattained, hleads⟩ := foldOver_picks picks_greaterValue hentry hne
  refine ⟨x, hx, hattained, fun s hs y hy hless => ?_, fun s hs y hy hnum => ((hleads s hs y hy).le hnum).1⟩
  obtain ⟨-, hnum, hlt⟩ := rank_lt_of_less hless
  exact absurd hlt (not_lt.mpr ((hleads s hs y hy).le hnum).2)

end StateVector

end Statewise
