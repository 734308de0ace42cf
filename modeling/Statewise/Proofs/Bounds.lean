import Statewise.Check.Error
import Statewise.Proofs.Extremes

/-!
# Within the bounds of vectors

What is computed from vectors asks for the value in a state by `StateVector.valueAt`, which answers a state behind the
end of the vector with an error. Only sums and means of numbers take entries of the array as they are, and a state
behind its end stops the program. So nothing else does (`Orderly`), and sums and means do for sets with such a state
alone (`sumOver_aborts_iff`, `avgOver_aborts_iff`).
-/

namespace Statewise

/-! ## Errors of a kind -/

namespace Yields

variable {α β ε : Type} {E : ε → Prop}

/-- If the computation fails, then with an error of a kind. -/
def FailsBy (E : ε → Prop) (x : Except ε α) : Prop := ∀ e, x = .error e → E e

namespace FailsBy

theorem ok (a : α) : FailsBy E (.ok a) := nofun

theorem error {e : ε} (h : E e) : FailsBy E (.error e : Except ε α) := fun _ he => by cases he; exact h

theorem bind {x : Except ε α} {f : α → Except ε β} (hx : FailsBy E x) (hf : ∀ a, FailsBy E (f a)) :
    FailsBy E (x >>= f) := by
  intro e he
  rcases bind_eq_error.mp he with he | ⟨a, -, he⟩
  · exact hx e he
  · exact hf a e he

theorem map {x : Except ε α} (hx : FailsBy E x) (f : α → β) : FailsBy E (x.map f) := by
  cases x with
  | ok a => exact ok _
  | error e => exact error (hx e rfl)

theorem ite {x y : Except ε α} {p : Prop} [Decidable p] (hx : FailsBy E x) (hy : FailsBy E y) :
    FailsBy E (if p then x else y) := by
  by_cases h : p
  · rw [if_pos h]
    exact hx
  · rw [if_neg h]
    exact hy

theorem mapM {f : α → Except ε β} {xs : List α} (hf : ∀ x ∈ xs, FailsBy E (f x)) : FailsBy E (xs.mapM f) := by
  intro e he
  obtain ⟨x, hx, he⟩ := exists_of_mapM_eq_error he
  exact hf x hx e he

theorem foldlM {f : β → α → Except ε β} {xs : List α} (hf : ∀ b, ∀ x ∈ xs, FailsBy E (f b x)) (b : β) :
    FailsBy E (xs.foldlM f b) := by
  induction xs generalizing b with
  | nil => exact ok b
  | cons x xs ih =>
    rw [List.foldlM_cons]
    exact bind (hf b x List.mem_cons_self) fun b' => ih (fun b z hz => hf b z (List.mem_cons_of_mem x hz)) b'

theorem filterM {f : α → Except ε Bool} {xs : List α} (hf : ∀ x, FailsBy E (f x)) : FailsBy E (xs.filterM f) := by
  have haux : ∀ acc, FailsBy E (List.filterAuxM f xs acc) := by
    induction xs with
    | nil => exact fun acc => ok acc
    | cons x xs ih => exact fun acc => bind (hf x) fun b => ih _
  exact bind (haux []) fun ys => ok _

end FailsBy

end Yields

open Yields

/-- A read behind the end of an array, which stops the program. -/
def EvalError.Aborts : EvalError → Prop
  | outOfBounds .. => True
  | _ => False

def CheckError.Aborts : CheckError → Prop
  | eval e => e.Aborts
  | _ => False

/-- The computation may fail, but it does not stop the program. -/
abbrev Orderly {α : Type} (x : Except EvalError α) : Prop := FailsBy (fun e => ¬e.Aborts) x

/-! ## Operators -/

namespace Value

variable (a b : Value)

theorem orderly_expectBool : Orderly a.expectBool := by
  cases a with
  | bool x => exact .ok x
  | _ => exact .error id

theorem orderly_expectInt : Orderly a.expectInt := by
  cases a with
  | int n => exact .ok n
  | _ => exact .error id

theorem orderly_expectFloat : Orderly a.expectFloat := by
  cases a with
  | bool x => exact .error id
  | _ => exact .ok _

theorem orderly_ofExact (operation : String) (n : Int) : Orderly (ofExact operation n) := by
  unfold ofExact
  split
  · exact .ok _
  · exact .error id

/-- Two operands as doubles. -/
theorem orderly_floats {α : Type} (f : Float → Float → α) :
    Orderly (do return f (← a.expectFloat) (← b.expectFloat)) :=
  .bind (orderly_expectFloat a) fun _ => .bind (orderly_expectFloat b) fun _ => .ok _

theorem orderly_equals : Orderly (a.equals b) := by
  unfold equals
  split
  · exact .ok _
  · exact .ok _
  · exact orderly_floats _ _ _

theorem orderly_compareWith (intHolds : Int64 → Int64 → Bool) (floatHolds : Float → Float → Bool) :
    Orderly (compareWith intHolds floatHolds a b) := by
  unfold compareWith
  split
  · exact .ok _
  · exact orderly_floats _ _ _

theorem orderly_arithmetic (op : BinaryOp) (onInt : Int → Int → Int) (onFloat : Float → Float → Float) :
    Orderly (arithmetic op onInt onFloat a b) := by
  unfold arithmetic
  split
  · exact orderly_ofExact _ _
  · exact orderly_floats _ _ _

theorem orderly_applyBinary (op : BinaryOp) : Orderly (applyBinary op a b) := by
  have hright : Orderly (do return bool (← b.expectBool)) := .bind (orderly_expectBool b) fun _ => .ok _
  cases op with
  | implies => exact .bind (orderly_expectBool a) fun _ => .ite hright (.ok _)
  | iff => exact .bind (orderly_expectBool a) fun _ => .bind (orderly_expectBool b) fun _ => .ok _
  | or => exact .bind (orderly_expectBool a) fun _ => .ite (.ok _) hright
  | and => exact .bind (orderly_expectBool a) fun _ => .ite hright (.ok _)
  | eq => exact .bind (orderly_equals a b) fun _ => .ok _
  | ne => exact .bind (orderly_equals a b) fun _ => .ok _
  | gt => exact orderly_compareWith a b _ _
  | ge => exact orderly_compareWith a b _ _
  | lt => exact orderly_compareWith a b _ _
  | le => exact orderly_compareWith a b _ _
  | plus => exact orderly_arithmetic a b _ _ _
  | minus => exact orderly_arithmetic a b _ _ _
  | times => exact orderly_arithmetic a b _ _ _
  | divide => exact orderly_floats a b _

theorem orderly_applyUnary (op : UnaryOp) : Orderly (applyUnary op a) := by
  unfold applyUnary
  split
  · exact .bind (orderly_expectBool _) fun _ => .ok _
  · exact orderly_ofExact _ _
  · exact .bind (orderly_expectFloat _) fun _ => .ok _
  · exact .ok _

theorem orderly_applyFunction1 (f : Function) : Orderly (applyFunction1 f a) := by
  unfold applyFunction1
  split
  · exact .ok _
  · refine .bind (orderly_expectFloat _) fun x => ?_
    cases f <;> exact .ite (.bind (.error id) fun _ => .ok _) (.ok _)

theorem orderly_pick (onInt : Int64 → Int64 → Int64) (onFloat : Float → Float → Float) :
    Orderly (pick onInt onFloat a b) := by
  unfold pick
  split
  · exact .ok _
  · exact orderly_floats _ _ _

theorem orderly_intPow (base exponent : Int64) : Orderly (intPow base exponent) :=
  .ite (.error id) (.ite (.error id) (.ite (orderly_ofExact _ _) (.ite (.error id) (orderly_ofExact _ _))))

theorem orderly_intMod (n k : Int64) : Orderly (intMod n k) := .ite (.error id) (.ite (.error id) (.ok _))

theorem orderly_applyFunction2 (f : Function) : Orderly (applyFunction2 f a b) := by
  cases f with
  | min => exact orderly_pick a b _ _
  | max => exact orderly_pick a b _ _
  | pow =>
    unfold applyFunction2
    dsimp only
    split
    · exact orderly_intPow _ _
    · exact orderly_floats _ _ _
  | mod =>
    exact .bind (orderly_expectInt a) fun n => .bind (orderly_expectInt b) fun k => orderly_intMod n k
  | log => exact orderly_floats a b _
  | _ => exact .error id

theorem orderly_applyIte (condition : Value) : Orderly (applyIte condition a b) :=
  .bind (orderly_expectBool condition) fun _ => .ite (.ok _) (.ok _)

end Value

/-! ## Vectors -/

namespace StateVector

variable (v w : StateVector)

theorem orderly_valueAt (s : Nat) : Orderly (v.valueAt s) := by
  have hentry : ∀ {α : Type} (xs : Array α), Orderly (entryAt xs s) := fun xs => by
    unfold entryAt
    split
    · exact .ok _
    · exact .error id
  unfold valueAt
  split
  · exact .ite (.ok _) (.error id)
  · exact (hentry _).map _
  · exact (hentry _).map _
  · exact .ite (.error id) (.error id)

theorem orderly_satisfaction : Orderly v.satisfaction := by
  unfold satisfaction
  split
  · exact .ok _
  · exact .error id
  · exact .error id
  · exact .error id

/-- A tabulation fails by what the function fails by, or since a value does not fit. -/
theorem failsBy_tabulate {ε : Type} {E : ε → Prop} {lift : EvalError → ε} (hlift : ∀ e, ¬e.Aborts → E (lift e))
    (t : ValueType) (size : Nat) (domain : Option StateSet) {f : Nat → Except ε Value} (hf : ∀ s, FailsBy E (f s)) :
    FailsBy E (tabulate lift t size domain f) := by
  have hentries : ∀ {α : Type} {take : Value → Except EvalError α}, (∀ x, Orderly (take x)) →
      FailsBy E (entriesOver lift take size domain f) := by
    intro α take htake
    refine .mapM fun s _ => .bind (hf s) fun x => ?_
    have hlength : ∀ n, E (lift (.lengthMismatch size n)) := fun n => hlift _ id
    cases h : take x with
    | ok y => exact .ite (.bind (.error (hlength _)) fun _ => .ok _) (.ok _)
    | error e =>
      have htaken : FailsBy E (.error (lift e) : Except ε (Nat × α)) := .error (hlift e (htake x e h))
      exact .ite (.bind (.error (hlength _)) fun _ => htaken) htaken
  cases t with
  | bool => exact .bind (hentries Value.orderly_expectBool) fun _ => .ok _
  | int => exact .bind (hentries Value.orderly_expectInt) fun _ => .ok _
  | double => exact .bind (hentries Value.orderly_expectFloat) fun _ => .ok _

theorem orderly_tabulate (t : ValueType) (size : Nat) (domain : Option StateSet) {f : Nat → Except EvalError Value}
    (hf : ∀ s, Orderly (f s)) : Orderly (tabulate id t size domain f) :=
  @failsBy_tabulate _ (fun e => ¬e.Aborts) id (fun _ he => he) t size domain f hf

theorem orderly_checkSize : Orderly (v.checkSize w) := .ite (.ok _) (.error id)

theorem orderly_map1 (t : ValueType) (domain : Option StateSet) {f : Value → Except EvalError Value}
    (hf : ∀ x, Orderly (f x)) : Orderly (v.map1 t domain f) :=
  .bind (orderly_tabulate _ _ _ fun s => .bind (orderly_valueAt v s) hf) fun _ => .ok _

theorem orderly_map2 (t : ValueType) (domain : Option StateSet) {f : Value → Value → Except EvalError Value}
    (hf : ∀ x y, Orderly (f x y)) : Orderly (v.map2 w t domain f) := by
  refine .bind (orderly_checkSize v w) fun _ => orderly_tabulate _ _ _ fun s => ?_
  exact .bind (orderly_valueAt v s) fun x => .bind (orderly_valueAt w s) fun y => hf x y

theorem orderly_map3 (u : StateVector) (t : ValueType) (domain : Option StateSet)
    {f : Value → Value → Value → Except EvalError Value} (hf : ∀ x y z, Orderly (f x y z)) :
    Orderly (u.map3 v w t domain f) := by
  refine .bind (orderly_checkSize u v) fun _ => .bind (orderly_checkSize u w) fun _ => ?_
  refine orderly_tabulate _ _ _ fun s => ?_
  exact .bind (orderly_valueAt u s) fun x => .bind (orderly_valueAt v s) fun y => .bind (orderly_valueAt w s) (hf x y)

/-! ## Reductions that ask for values -/

theorem orderly_foldOver {combine : Value → Value → Except EvalError Value} (hcombine : ∀ x y, Orderly (combine x y))
    (states : StateSet) : Orderly (v.foldOver combine states) := by
  unfold foldOver
  split
  · exact .error id
  · next s rest _ =>
    refine .bind (orderly_valueAt v s) fun x => .foldlM (fun acc t _ => ?_) x
    exact .bind (orderly_valueAt v t) fun y => hcombine acc y

theorem orderly_lesserValue (x y : Value) : Orderly (lesserValue x y) := by
  unfold lesserValue
  split
  · exact .ok _
  · exact .ok _
  · exact Value.orderly_floats _ _ _

theorem orderly_greaterValue (x y : Value) : Orderly (greaterValue x y) := by
  unfold greaterValue
  split
  · exact .ok _
  · exact .ok _
  · exact Value.orderly_floats _ _ _

variable (states : StateSet)

theorem orderly_minOver : Orderly (v.minOver states) := orderly_foldOver v orderly_lesserValue states

theorem orderly_maxOver : Orderly (v.maxOver states) := orderly_foldOver v orderly_greaterValue states

theorem orderly_rangeOver : Orderly (v.rangeOver states) :=
  .bind (orderly_minOver v states) fun _ => .bind (orderly_maxOver v states) fun _ => .ok _

theorem orderly_firstIn : Orderly (v.firstIn states) := by
  unfold firstIn
  split
  · exact orderly_valueAt v _
  · exact .error id

theorem orderly_countOver : Orderly (v.countOver states) := .bind (orderly_satisfaction v) fun _ => .ok _

theorem orderly_forAllOver : Orderly (v.forAllOver states) := .bind (orderly_satisfaction v) fun _ => .ok _

theorem orderly_existsOver : Orderly (v.existsOver states) := .bind (orderly_satisfaction v) fun _ => .ok _

theorem orderly_isClose (t : Tolerance) (x y : Value) : Orderly (isClose t x y) := by
  unfold isClose
  split
  · exact .ok _
  · exact .ok _
  · exact Value.orderly_floats _ _ _

theorem orderly_closeStates (target : Value) (t : Tolerance) (within : Option StateSet) :
    Orderly (v.closeStates target t within) := by
  refine .bind (.filterM fun s => ?_) fun _ => .ok _
  exact .bind (orderly_valueAt v s) fun y => orderly_isClose t target y

theorem orderly_format (includeZeros : Bool) (describe : Nat → String) :
    Orderly (v.format states includeZeros describe) :=
  .bind (.mapM fun s _ => .bind (orderly_valueAt v s) fun _ => .ok _) fun _ => .ok _

/-! ## States behind the end -/

variable {v} {a : StateSet} {s : Nat}

/-- The least state of the set that is behind the end of the vector. -/
structure FirstBehind (v : StateVector) (a : StateSet) (s : Nat) : Prop where
  mem : s ∈ a
  behind : v.size ≤ s
  least : ∀ t ∈ a, v.size ≤ t → s ≤ t

/-- The states of the set that the vector has. -/
def inside (v : StateVector) (a : StateSet) : StateSet := a.filter (· < v.size)

theorem mem_inside : s ∈ v.inside a ↔ s ∈ a ∧ s < v.size := by simp [inside]

/-- One number per state. -/
def HoldsNumbers (v : StateVector) : Prop := v.type ≠ .bool ∧ v.isFrontier = false

theorem exists_firstBehind (h : ∃ s ∈ a, v.size ≤ s) : ∃ s, v.FirstBehind a s := by
  classical
  obtain ⟨hs, hbehind⟩ := Nat.find_spec h
  exact ⟨Nat.find h, hs, hbehind, fun t ht hle => Nat.find_min' h ⟨ht, hle⟩⟩

theorem valueAt_behind (hs : v.size ≤ s) : v.valueAt s = .error (.lengthMismatch v.size (s + 1)) := by
  have hentry : ∀ {α : Type} {xs : Array α}, xs.size ≤ s → entryAt xs s = .error (.lengthMismatch xs.size (s + 1)) := by
    intro α xs hs
    unfold entryAt
    rw [Array.getElem?_eq_none hs]
  obtain ⟨entries, accuracy⟩ := v
  cases entries with
  | bools members n => exact if_neg (Nat.not_lt.mpr hs)
  | frontier points n => exact if_neg (Nat.not_lt.mpr hs)
  | ints xs =>
    show (entryAt xs s).map _ = _
    rw [hentry hs]
    rfl
  | doubles xs =>
    show (entryAt xs s).map _ = _
    rw [hentry hs]
    rfl

/-- If the first state of an increasing list is behind the end, it is the least one that is. -/
theorem eq_head_of_least {t n : Nat} {l : List Nat} (hlt : ∀ z ∈ l, t < z) (hs : s ∈ t :: l) (ht : n ≤ t)
    (hleast : ∀ z ∈ t :: l, n ≤ z → s ≤ z) : t = s := by
  have hle := hleast t List.mem_cons_self ht
  rcases List.mem_cons.mp hs with h | h
  · exact h.symm
  · have := hlt s h
    omega

/-- A loop over an increasing list that fails in every state behind the end goes through the states before it, and fails
then. -/
theorem foldlM_behind {β : Type} {n : Nat} {step : β → Nat → Except EvalError β} {error : Nat → EvalError}
    {l : List Nat} (hstep : ∀ acc t, n ≤ t → step acc t = .error (error t)) (hsorted : l.Pairwise (· < ·)) (hs : s ∈ l)
    (hn : n ≤ s) (hleast : ∀ t ∈ l, n ≤ t → s ≤ t) (acc : β) :
    l.foldlM step acc = (l.filter (· < n)).foldlM step acc >>= fun _ => .error (error s) := by
  induction l generalizing acc with
  | nil => cases hs
  | cons t l ih =>
    obtain ⟨hlt, hsorted⟩ := List.pairwise_cons.mp hsorted
    by_cases ht : t < n
    · have hs : s ∈ l := (List.mem_cons.mp hs).resolve_left fun h => by omega
      rw [List.filter_cons_of_pos (by simpa using ht), List.foldlM_cons, List.foldlM_cons, bind_assoc]
      have hleast : ∀ z ∈ l, n ≤ z → s ≤ z := fun z hz => hleast z (List.mem_cons_of_mem t hz)
      exact congrArg (step acc t >>= ·) (funext fun acc => ih hsorted hs hleast acc)
    -- The first state behind the end has none before it that is behind.
    · obtain rfl : t = s := eq_head_of_least hlt hs (Nat.le_of_not_lt ht) hleast
      have hnone : (t :: l).filter (· < n) = [] := by
        refine List.filter_eq_nil_iff.mpr fun z hz => ?_
        have hge : n ≤ z := by
          rcases List.mem_cons.mp hz with rfl | hz
          · exact hn
          · exact Nat.le_of_lt (Nat.lt_of_le_of_lt hn (hlt z hz))
        simpa using hge
      rw [hnone, List.foldlM_cons, hstep acc t hn]
      rfl

/-- In the first state behind the end a fold of values fails, unless there are none for single states. -/
theorem foldOver_behind {K : Type} [LinearOrder K] {key : Value → K} {combine : Value → Value → Except EvalError Value}
    (hcombine : Value.Picks key combine) (hv : v.isFrontier = false) (h : v.FirstBehind a s) :
    v.foldOver combine a = .error (.lengthMismatch v.size (s + 1)) := by
  obtain ⟨t, rest, hlist⟩ := List.exists_cons_of_ne_nil (List.ne_nil_of_mem h.mem)
  have hmem : ∀ {z}, z ∈ a ↔ z ∈ t :: rest := by
    intro z
    rw [← hlist]
    exact Iff.rfl
  obtain ⟨hlt, hsorted⟩ := List.pairwise_cons.mp (hlist ▸ a.sorted)
  by_cases ht : t < v.size
  -- The states before the end have a value, and so has their fold.
  · have hs : s ∈ rest := (List.mem_cons.mp (hmem.mp h.mem)).resolve_left fun hst => by have := h.behind; omega
    have hinside : (v.inside a).toList = t :: rest.filter (· < v.size) := by
      show a.toList.filter _ = _
      rw [hlist, List.filter_cons_of_pos (by simpa using ht)]
    have hsplit : v.foldOver combine a =
        v.foldOver combine (v.inside a) >>= fun _ => .error (.lengthMismatch v.size (s + 1)) := by
      unfold foldOver
      rw [hlist, hinside]
      dsimp only
      rw [bind_assoc]
      have hstep : ∀ acc z, v.size ≤ z →
          (do combine acc (← v.valueAt z)) = Except.error (EvalError.lengthMismatch v.size (z + 1)) := by
        intro acc z hz
        rw [valueAt_behind hz]
        rfl
      exact congrArg (v.valueAt t >>= ·) (funext fun x => foldlM_behind hstep hsorted hs h.behind
        (fun z hz => h.least z (hmem.mpr (List.mem_cons_of_mem t hz))) x)
    obtain ⟨x, hx, -⟩ := foldOver_picks (v := v) hcombine
      (fun z hz => IsPlain.valueAt ⟨rfl, hv⟩ (mem_inside.mp hz).2) ⟨t, mem_inside.mpr ⟨hmem.mpr List.mem_cons_self, ht⟩⟩
    rw [hsplit, hx]
    rfl
  · obtain rfl : t = s := eq_head_of_least hlt (hmem.mp h.mem) (Nat.le_of_not_lt ht) fun z hz => h.least z (hmem.mpr hz)
    unfold foldOver
    rw [hlist]
    dsimp only
    rw [valueAt_behind h.behind]
    rfl

/-! ## Sums -/

theorem rawEntry_behind {α : Type} {xs : Array α} (hs : xs.size ≤ s) :
    rawEntry xs s = .error (.outOfBounds xs.size s) := by
  unfold rawEntry
  rw [Array.getElem?_eq_none hs]

theorem rawEntry_inside {α : Type} {xs : Array α} (hs : s < xs.size) : rawEntry xs s = .ok xs[s] := by
  unfold rawEntry
  rw [Array.getElem?_eq_getElem hs]

/-- Doubles can always be added. -/
theorem floatSum_succeeds {f : Nat → Except EvalError Float} (hf : ∀ s ∈ a, ∃ x, f s = .ok x) :
    ∃ x, floatSum f a = .ok x := by
  have hfold : ∀ (l : List Nat) (acc : Float), (∀ s ∈ l, ∃ x, f s = .ok x) →
      ∃ x, l.foldlM (fun acc s => do return acc + (← f s)) acc = .ok x := by
    intro l
    induction l with
    | nil => exact fun acc _ => ⟨acc, rfl⟩
    | cons t l ih =>
      intro acc hl
      obtain ⟨x, hx⟩ := hl t List.mem_cons_self
      obtain ⟨y, hy⟩ := ih (acc + x) fun z hz => hl z (List.mem_cons_of_mem t hz)
      refine ⟨y, ?_⟩
      rw [List.foldlM_cons, hx]
      exact hy
  exact hfold a.toList _ hf

/-- A sum of doubles stops the program at the first state behind the end. -/
theorem floatSum_behind {f : Nat → Except EvalError Float} (hinside : ∀ s < v.size, ∃ x, f s = .ok x)
    (hbehind : ∀ s, v.size ≤ s → f s = .error (.outOfBounds v.size s)) (h : v.FirstBehind a s) :
    floatSum f a = .error (.outOfBounds v.size s) := by
  obtain ⟨x, hx⟩ := floatSum_succeeds (f := f) (a := v.inside a) fun s hs => hinside s (mem_inside.mp hs).2
  have hsum : floatSum f a = floatSum f (v.inside a) >>= fun _ => .error (.outOfBounds v.size s) :=
    foldlM_behind (fun acc t ht => by rw [hbehind t ht]; rfl) a.sorted h.mem h.behind h.least _
  rw [hsum, hx]
  rfl

theorem sumOver_behind (hv : v.HoldsNumbers) (h : v.FirstBehind a s) :
    v.sumOver a = v.sumOver (v.inside a) >>= fun _ => .error (.outOfBounds v.size s) := by
  obtain ⟨entries, accuracy⟩ := v
  cases entries with
  | bools members n => exact absurd rfl hv.1
  | frontier points n => exact absurd hv.2 (by simp [isFrontier])
  | ints xs =>
    have hsum : intSum xs a = intSum xs (inside ⟨.ints xs, accuracy⟩ a) >>= fun _ => .error (.outOfBounds xs.size s) :=
      foldlM_behind (fun acc t ht => by rw [rawEntry_behind ht]; rfl) a.sorted h.mem h.behind h.least _
    show (intSum xs a).map Value.int = (intSum xs (inside ⟨.ints xs, accuracy⟩ a)).map Value.int >>= _
    rw [hsum]
    cases intSum xs (inside ⟨.ints xs, accuracy⟩ a) <;> rfl
  | doubles xs =>
    have hsum := floatSum_behind (f := rawEntry xs) (fun s hs => ⟨_, rawEntry_inside hs⟩)
      (fun s hs => rawEntry_behind hs) h
    obtain ⟨x, hx⟩ := floatSum_succeeds (f := rawEntry xs) (a := inside ⟨.doubles xs, accuracy⟩ a) fun s hs =>
      ⟨_, rawEntry_inside (mem_inside.mp hs).2⟩
    show (floatSum (rawEntry xs) a).map Value.double = (floatSum (rawEntry xs) _).map Value.double >>= _
    rw [hsum, hx]
    rfl

theorem avgOver_behind (hv : v.HoldsNumbers) (h : v.FirstBehind a s) :
    v.avgOver a = .error (.outOfBounds v.size s) := by
  have hne : a.isEmpty = false := StateSet.isEmpty_eq_false_iff.mpr ⟨s, h.mem⟩
  unfold avgOver
  rw [hne, if_neg Bool.false_ne_true]
  obtain ⟨entries, accuracy⟩ := v
  cases entries with
  | bools members n => exact absurd rfl hv.1
  | frontier points n => exact absurd hv.2 (by simp [isFrontier])
  | ints xs =>
    dsimp only
    rw [floatSum_behind (v := ⟨.ints xs, accuracy⟩) (fun s hs => ⟨_, by rw [rawEntry_inside hs]; rfl⟩)
      (fun s hs => by rw [rawEntry_behind hs]; rfl) h]
    rfl
  | doubles xs =>
    dsimp only
    rw [floatSum_behind (v := ⟨.doubles xs, accuracy⟩) (fun s hs => ⟨_, rawEntry_inside hs⟩)
      (fun s hs => rawEntry_behind hs) h]
    rfl

theorem orderly_rawEntry {α : Type} {xs : Array α} (hs : s < xs.size) : Orderly (rawEntry xs s) := by
  rw [rawEntry_inside hs]
  exact .ok _

/-- A sum over states that the vector has is orderly. -/
theorem orderly_sumOver (h : ∀ s ∈ a, s < v.size) : Orderly (v.sumOver a) := by
  unfold sumOver
  obtain ⟨entries, accuracy⟩ := v
  cases entries with
  | bools members n => exact .error id
  | frontier points n => exact .error id
  | ints xs =>
    refine .map (.foldlM (fun acc s hs => .bind (orderly_rawEntry (h s hs)) fun x => ?_) _) _
    split
    · exact .ok _
    · exact .error id
  | doubles xs => exact .map (.foldlM (fun acc s hs => .bind (orderly_rawEntry (h s hs)) fun x => .ok _) _) _

theorem orderly_avgOver (h : ∀ s ∈ a, s < v.size) : Orderly (v.avgOver a) := by
  refine .ite (.error id) ?_
  obtain ⟨entries, accuracy⟩ := v
  cases entries with
  | bools members n => exact .error id
  | frontier points n => exact .error id
  | ints xs =>
    exact .map (.foldlM (fun acc s hs => .bind (.map (orderly_rawEntry (h s hs)) _) fun x => .ok _) _) _
  | doubles xs => exact .map (.foldlM (fun acc s hs => .bind (orderly_rawEntry (h s hs)) fun x => .ok _) _) _

/-! ## Where reductions stop the program -/

theorem lt_size_of_not_firstBehind (h : ∀ s, ¬v.FirstBehind a s) : ∀ s ∈ a, s < v.size := by
  intro s hs
  by_contra hle
  obtain ⟨t, ht⟩ := exists_firstBehind ⟨s, hs, Nat.le_of_not_lt hle⟩
  exact h t ht

theorem orderly_of_not_holdsNumbers (hv : ¬v.HoldsNumbers) : Orderly (v.sumOver a) ∧ Orderly (v.avgOver a) := by
  obtain ⟨entries, accuracy⟩ := v
  cases entries with
  | bools members n => exact ⟨.error id, .ite (.error id) (.error id)⟩
  | frontier points n => exact ⟨.error id, .ite (.error id) (.error id)⟩
  | ints xs => exact absurd ⟨nofun, rfl⟩ hv
  | doubles xs => exact absurd ⟨nofun, rfl⟩ hv

/-- A mean stops the program exactly if it is one of numbers and there is a state behind the end. -/
theorem avgOver_aborts_iff {k : Nat} :
    v.avgOver a = .error (.outOfBounds k s) ↔ v.HoldsNumbers ∧ k = v.size ∧ v.FirstBehind a s := by
  constructor
  · intro h
    have hv : v.HoldsNumbers := by
      by_contra hv
      exact (orderly_of_not_holdsNumbers hv).2 _ h trivial
    obtain ⟨t, ht⟩ : ∃ t, v.FirstBehind a t := by
      by_contra hnone
      exact orderly_avgOver (lt_size_of_not_firstBehind (not_exists.mp hnone)) _ h trivial
    rw [avgOver_behind hv ht] at h
    cases h
    exact ⟨hv, rfl, ht⟩
  · rintro ⟨hv, rfl, h⟩
    exact avgOver_behind hv h

/-- And so does a sum, unless the sum over the states before has no place among the integers. -/
theorem sumOver_aborts_iff {k : Nat} :
    v.sumOver a = .error (.outOfBounds k s) ↔
      v.HoldsNumbers ∧ k = v.size ∧ v.FirstBehind a s ∧ ∃ x, v.sumOver (v.inside a) = .ok x := by
  constructor
  · intro h
    have hv : v.HoldsNumbers := by
      by_contra hv
      exact (orderly_of_not_holdsNumbers hv).1 _ h trivial
    obtain ⟨t, ht⟩ : ∃ t, v.FirstBehind a t := by
      by_contra hnone
      exact orderly_sumOver (lt_size_of_not_firstBehind (not_exists.mp hnone)) _ h trivial
    have horderly : Orderly (v.sumOver (v.inside a)) := orderly_sumOver fun s hs => (mem_inside.mp hs).2
    rw [sumOver_behind hv ht] at h
    rcases bind_eq_error.mp h with h | ⟨x, hx, h⟩
    · exact absurd trivial (horderly _ h)
    · cases h
      exact ⟨hv, rfl, ht, x, hx⟩
  · rintro ⟨hv, rfl, h, x, hx⟩
    rw [sumOver_behind hv h, hx]
    rfl

end StateVector

/-! ## Computations that do not stop the program -/

namespace Check

variable {α β : Type}

/-- The computation may fail, but whatever it starts from it does not stop the program. -/
def NeverAborts (x : Check α) : Prop := ∀ r e, outcome x r = .error e → ¬e.Aborts

namespace NeverAborts

theorem pure (a : α) : NeverAborts (Pure.pure a : Check α) := fun _ _ he => by cases he

theorem throw {e : CheckError} (h : ¬e.Aborts) : NeverAborts (MonadExcept.throw e : Check α) :=
  fun _ _ he => by cases he; exact h

theorem ofExcept {x : Except CheckError α} (h : FailsBy (fun e => ¬e.Aborts) x) : NeverAborts (Check.ofExcept x) :=
  fun r e he => h e (by rwa [outcome_ofExcept] at he)

theorem ofEval {x : Except EvalError α} (h : Orderly x) : NeverAborts (Check.ofEval x) := by
  cases x with
  | ok a => exact pure a
  | error e => exact throw (h e rfl)

theorem ofModel (x : Except ModelError α) : NeverAborts (Check.ofModel x) := by
  cases x with
  | ok a => exact pure a
  | error e => exact throw id

theorem message (text : String) : NeverAborts (Check.message text) := fun _ _ he => by cases he

theorem modify (f : Run → Run) : NeverAborts (modify f : Check Unit) := fun _ _ he => by cases he

/-- The second computation may rely on the first one having yielded what it gets. -/
theorem bind {x : Check α} {f : α → Check β} (hx : NeverAborts x)
    (hf : ∀ a, (∃ r r', x r = (.ok a, r')) → NeverAborts (f a)) : NeverAborts (x >>= f) := by
  intro r e he
  rcases outcome_bind_eq_error.mp he with he | ⟨a, ha, he⟩
  · exact hx r e he
  · exact hf a ⟨r, _, Prod.ext ha rfl⟩ _ e he

theorem next {x : Check α} {f : α → Check β} (hx : NeverAborts x) (hf : ∀ a, NeverAborts (f a)) :
    NeverAborts (x >>= f) := hx.bind fun a _ => hf a

theorem ite {x y : Check α} {p : Prop} [Decidable p] (hx : NeverAborts x) (hy : NeverAborts y) :
    NeverAborts (if p then x else y) := by
  by_cases h : p
  · rw [if_pos h]
    exact hx
  · rw [if_neg h]
    exact hy

theorem mapM {xs : List α} {f : α → Check β} (h : ∀ x, NeverAborts (f x)) : NeverAborts (xs.mapM f) := by
  induction xs with
  | nil => exact pure []
  | cons x xs ih =>
    rw [List.mapM_cons]
    exact (h x).next fun y => ih.next fun ys => pure _

theorem forM {xs : List α} {f : α → Check Unit} (h : ∀ x, NeverAborts (f x)) : NeverAborts (xs.forM f) := by
  induction xs with
  | nil => exact pure ()
  | cons x xs ih => exact (h x).next fun _ => ih

end NeverAborts

end Check

end Statewise
