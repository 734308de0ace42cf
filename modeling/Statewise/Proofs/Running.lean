import Statewise.Check.Property

/-!
# Running checks

What a computation yields and what it leaves behind, when it starts from a given run. A computation is
steady if it yields the same from every run: the hint, the answer and the questions asked so far play no
part in it.
-/

namespace Statewise

/-! ## Computations that may fail -/

namespace Yields

variable {α β ε : Type}

theorem bind_eq_ok {x : Except ε α} {f : α → Except ε β} {b : β} :
    (x >>= f) = .ok b ↔ ∃ a, x = .ok a ∧ f a = .ok b := by
  cases x with
  | error e => simp [bind, Except.bind]
  | ok a => simp [bind, Except.bind]

theorem bind_eq_error {x : Except ε α} {f : α → Except ε β} {e : ε} :
    (x >>= f) = .error e ↔ x = .error e ∨ ∃ a, x = .ok a ∧ f a = .error e := by
  cases x with
  | error e => simp [bind, Except.bind]
  | ok a => simp [bind, Except.bind]

theorem map_eq_ok {x : Except ε α} {f : α → β} {b : β} :
    x.map f = .ok b ↔ ∃ a, x = .ok a ∧ f a = b := by
  cases x <;> simp [Except.map]

theorem mapError_eq_ok {ε' : Type} {x : Except ε α} {f : ε → ε'} {a : α} : x.mapError f = .ok a ↔ x = .ok a := by
  cases x with
  | ok b =>
    show (.ok b : Except ε' α) = .ok a ↔ _
    rw [Except.ok.injEq, Except.ok.injEq]
  | error e => exact iff_of_false nofun nofun

/-- A traversal succeeds if every step does. -/
theorem mapM_eq_ok_map {f : α → Except ε β} {g : α → β} {xs : List α} (h : ∀ x ∈ xs, f x = .ok (g x)) :
    xs.mapM f = .ok (xs.map g) := by
  induction xs with
  | nil => rfl
  | cons x xs ih =>
    rw [List.mapM_cons, h x List.mem_cons_self, ih fun z hz => h z (List.mem_cons_of_mem x hz)]
    rfl

/-- What a traversal yields comes from its steps, and nothing is left out. -/
theorem mem_of_mapM_eq_ok {f : α → Except ε β} {xs : List α} {ys : List β} (h : xs.mapM f = .ok ys) :
    (∀ y ∈ ys, ∃ x ∈ xs, f x = .ok y) ∧ ∀ x ∈ xs, ∃ y ∈ ys, f x = .ok y := by
  induction xs generalizing ys with
  | nil =>
    cases h
    simp
  | cons x xs ih =>
    rw [List.mapM_cons] at h
    obtain ⟨y, hy, hrest⟩ := bind_eq_ok.mp h
    obtain ⟨zs, hzs, heq⟩ := bind_eq_ok.mp hrest
    cases heq
    obtain ⟨hfrom, hto⟩ := ih hzs
    constructor
    · intro z hz
      rcases List.mem_cons.mp hz with rfl | hz
      · exact ⟨x, List.mem_cons_self, hy⟩
      · obtain ⟨w, hw, hwz⟩ := hfrom z hz
        exact ⟨w, List.mem_cons_of_mem x hw, hwz⟩
    · intro w hw
      rcases List.mem_cons.mp hw with rfl | hw
      · exact ⟨y, List.mem_cons_self, hy⟩
      · obtain ⟨z, hz, hwz⟩ := hto w hw
        exact ⟨z, List.mem_cons_of_mem y hz, hwz⟩

/-- A traversal that fails does so in one of its steps. -/
theorem exists_of_mapM_eq_error {f : α → Except ε β} {xs : List α} {e : ε} (h : xs.mapM f = .error e) :
    ∃ x ∈ xs, f x = .error e := by
  induction xs with
  | nil => cases h
  | cons x xs ih =>
    rw [List.mapM_cons] at h
    rcases bind_eq_error.mp h with hx | ⟨y, -, hrest⟩
    · exact ⟨x, List.mem_cons_self, hx⟩
    · rcases bind_eq_error.mp hrest with hxs | ⟨ys, -, hlast⟩
      · obtain ⟨z, hz, hfz⟩ := ih hxs
        exact ⟨z, List.mem_cons_of_mem x hz, hfz⟩
      · cases hlast

theorem exists_mapM_eq_ok {f : α → Except ε β} {xs : List α} :
    (∃ ys, xs.mapM f = .ok ys) ↔ ∀ x ∈ xs, ∃ y, f x = .ok y := by
  induction xs with
  | nil => simp [pure, Except.pure]
  | cons x xs ih =>
    rw [List.forall_mem_cons, ← ih, List.mapM_cons]
    constructor
    · rintro ⟨ys, h⟩
      obtain ⟨y, hy, hrest⟩ := bind_eq_ok.mp h
      obtain ⟨zs, hzs, -⟩ := bind_eq_ok.mp hrest
      exact ⟨⟨y, hy⟩, zs, hzs⟩
    · rintro ⟨⟨y, hy⟩, zs, hzs⟩
      exact ⟨y :: zs, bind_eq_ok.mpr ⟨y, hy, bind_eq_ok.mpr ⟨zs, hzs, rfl⟩⟩⟩

/-- A monadic filter keeps members of the list only. -/
theorem mem_of_filterAuxM_eq_ok {f : α → Except ε Bool} {xs acc ys : List α}
    (h : List.filterAuxM f xs acc = .ok ys) : ∀ y ∈ ys, y ∈ acc ∨ y ∈ xs := by
  induction xs generalizing acc with
  | nil =>
    cases h
    exact fun y hy => Or.inl hy
  | cons x xs ih =>
    obtain ⟨b, -, hrest⟩ := bind_eq_ok.mp h
    intro y hy
    rcases ih hrest y hy with hacc | hxs
    · cases b with
      | false => exact Or.inl hacc
      | true =>
        rcases List.mem_cons.mp hacc with rfl | hacc
        · exact Or.inr List.mem_cons_self
        · exact Or.inl hacc
    · exact Or.inr (List.mem_cons_of_mem x hxs)

theorem mem_of_filterM_eq_ok {f : α → Except ε Bool} {xs ys : List α} (h : xs.filterM f = .ok ys) :
    ∀ y ∈ ys, y ∈ xs := by
  obtain ⟨zs, hzs, heq⟩ := bind_eq_ok.mp h
  cases heq
  intro y hy
  exact (mem_of_filterAuxM_eq_ok hzs y (List.mem_reverse.mp hy)).resolve_left List.not_mem_nil

theorem exists_filterM_eq_ok {f : α → Except ε Bool} {xs : List α} (h : ∀ x ∈ xs, ∃ b, f x = .ok b) :
    ∃ ys, xs.filterM f = .ok ys := by
  -- The members that were kept come back reversed, so the induction is about every beginning.
  suffices haux : ∀ acc, ∃ ys, List.filterAuxM f xs acc = .ok ys by
    obtain ⟨ys, hys⟩ := haux []
    exact ⟨ys.reverse, bind_eq_ok.mpr ⟨ys, hys, rfl⟩⟩
  induction xs with
  | nil => exact fun acc => ⟨acc, rfl⟩
  | cons x xs ih =>
    intro acc
    obtain ⟨b, hb⟩ := h x List.mem_cons_self
    obtain ⟨ys, hys⟩ := ih (fun z hz => h z (List.mem_cons_of_mem x hz)) (cond b (x :: acc) acc)
    exact ⟨ys, bind_eq_ok.mpr ⟨b, hb, hys⟩⟩

end Yields

namespace Check

variable {α β : Type}

/-! ## Outcomes -/

/-- What a computation yields when it starts from a run. -/
def outcome (x : Check α) (r : Run) : Except CheckError α := (x r).1

/-- The run that a computation leaves behind. -/
def after (x : Check α) (r : Run) : Run := (x r).2

@[simp] theorem outcome_pure (a : α) (r : Run) : outcome (pure a) r = .ok a := rfl

@[simp] theorem after_pure (a : α) (r : Run) : after (pure a : Check α) r = r := rfl

@[simp] theorem outcome_throw (e : CheckError) (r : Run) : outcome (throw e : Check α) r = .error e := rfl

@[simp] theorem after_throw (e : CheckError) (r : Run) : after (throw e : Check α) r = r := rfl

theorem run_bind_ok {x : Check α} {f : α → Check β} {r : Run} {a : α} (h : outcome x r = .ok a) :
    (x >>= f) r = f a (after x r) := by
  -- The bind of the stack is one match on the outcome and the run.
  show (match x r with | (a, s) => ExceptT.bindCont f a s) = _
  unfold outcome at h
  unfold after
  cases hx : x r with
  | mk o s =>
    rw [hx] at h
    subst h
    rfl

theorem run_bind_error {x : Check α} {f : α → Check β} {r : Run} {e : CheckError}
    (h : outcome x r = .error e) : (x >>= f) r = (.error e, after x r) := by
  show (match x r with | (a, s) => ExceptT.bindCont f a s) = _
  unfold outcome at h
  unfold after
  cases hx : x r with
  | mk o s =>
    rw [hx] at h
    subst h
    rfl

theorem outcome_bind_ok {x : Check α} {f : α → Check β} {r : Run} {a : α} (h : outcome x r = .ok a) :
    outcome (x >>= f) r = outcome (f a) (after x r) := congrArg Prod.fst (run_bind_ok h)

theorem after_bind_ok {x : Check α} {f : α → Check β} {r : Run} {a : α} (h : outcome x r = .ok a) :
    after (x >>= f) r = after (f a) (after x r) := congrArg Prod.snd (run_bind_ok h)

theorem outcome_bind_error {x : Check α} {f : α → Check β} {r : Run} {e : CheckError}
    (h : outcome x r = .error e) : outcome (x >>= f) r = .error e := congrArg Prod.fst (run_bind_error h)

theorem after_bind_error {x : Check α} {f : α → Check β} {r : Run} {e : CheckError}
    (h : outcome x r = .error e) : after (x >>= f) r = after x r := congrArg Prod.snd (run_bind_error h)

/-- A sequence succeeds if both parts do, the second from where the first ends. -/
theorem outcome_bind_eq_ok {x : Check α} {f : α → Check β} {r : Run} {b : β} :
    outcome (x >>= f) r = .ok b ↔ ∃ a, outcome x r = .ok a ∧ outcome (f a) (after x r) = .ok b := by
  cases h : outcome x r with
  | error e => simp [outcome_bind_error h]
  | ok a => simp [outcome_bind_ok h]

/-- A sequence fails if its first part does, or the second from where the first ends. -/
theorem outcome_bind_eq_error {x : Check α} {f : α → Check β} {r : Run} {e : CheckError} :
    outcome (x >>= f) r = .error e ↔
      outcome x r = .error e ∨ ∃ a, outcome x r = .ok a ∧ outcome (f a) (after x r) = .error e := by
  cases h : outcome x r with
  | error e => simp [outcome_bind_error h]
  | ok a => simp [outcome_bind_ok h]

/-- Two sequences are one if their first parts are and their second parts are for what the first can yield. -/
theorem bind_congr_ok {x y : Check α} {f g : α → Check β} (hx : x = y)
    (hf : ∀ r a, outcome x r = .ok a → f a = g a) : x >>= f = y >>= g := by
  subst hx
  funext r
  cases h : outcome x r with
  | error e => rw [run_bind_error h, run_bind_error h]
  | ok a => rw [run_bind_ok h, run_bind_ok h, hf r a h]

@[simp] theorem outcome_ofExcept (x : Except CheckError α) (r : Run) : outcome (ofExcept x) r = x := by
  cases x <;> rfl

@[simp] theorem after_ofExcept (x : Except CheckError α) (r : Run) : after (ofExcept x) r = r := by
  cases x <;> rfl

theorem outcome_ofEval_eq_ok {x : Except EvalError α} {r : Run} {a : α} :
    outcome (ofEval x) r = .ok a ↔ x = .ok a := by
  cases x <;> simp [ofEval]

theorem outcome_ofModel_eq_ok {x : Except ModelError α} {r : Run} {a : α} :
    outcome (ofModel x) r = .ok a ↔ x = .ok a := by
  cases x <;> simp [ofModel]

@[simp] theorem after_ofEval (x : Except EvalError α) (r : Run) : after (ofEval x) r = r := by
  cases x <;> rfl

/-- A sequence that succeeds, run by run. -/
theorem run_bind_eq_ok {x : Check α} {f : α → Check β} {r r' : Run} {b : β} (h : (x >>= f) r = (.ok b, r')) :
    ∃ a r₁, x r = (.ok a, r₁) ∧ f a r₁ = (.ok b, r') := by
  obtain ⟨a, ha, -⟩ := outcome_bind_eq_ok.mp (congrArg Prod.fst h : outcome (x >>= f) r = .ok b)
  rw [run_bind_ok ha] at h
  exact ⟨a, after x r, Prod.ext ha rfl, h⟩

theorem run_pure_eq_ok {a b : α} {r r' : Run} (h : (pure a : Check α) r = (.ok b, r')) : a = b ∧ r = r' := by
  cases h
  exact ⟨rfl, rfl⟩

theorem run_ofEval_eq_ok {x : Except EvalError α} {r r' : Run} {a : α} (h : ofEval x r = (.ok a, r')) :
    x = .ok a ∧ r = r' := by
  cases x with
  | error e => cases h
  | ok b =>
    cases h
    exact ⟨rfl, rfl⟩

@[simp] theorem outcome_message (t : String) (r : Run) : outcome (message t) r = .ok () := rfl

@[simp] theorem outcome_restart (p : Option String) (r : Run) : outcome (restart p) r = .ok () := rfl

theorem outcome_forM {xs : List α} {f : α → Check Unit} (h : ∀ x r, outcome (f x) r = .ok ()) (r : Run) :
    outcome (xs.forM f) r = .ok () := by
  induction xs generalizing r with
  | nil => rfl
  | cons x xs ih =>
    show outcome (f x >>= fun _ => xs.forM f) r = .ok ()
    rw [outcome_bind_ok (h x r)]
    exact ih _

/-! ## Steady computations -/

/-- The outcome is the same from every run. -/
def Steady (x : Check α) : Prop := ∀ r r', outcome x r = outcome x r'

/-- The outcome is the same from every run, and what it yields has a property. -/
structure Delivers (x : Check α) (P : α → Prop) : Prop where
  steady : Steady x
  spec : ∀ r a, outcome x r = .ok a → P a

namespace Delivers

variable {P : α → Prop} {Q : β → Prop}

theorem pure {a : α} (h : P a) : Delivers (Pure.pure a : Check α) P :=
  ⟨fun _ _ => rfl, fun _ b hb => by cases hb; exact h⟩

theorem throw (e : CheckError) : Delivers (MonadExcept.throw e : Check α) P :=
  ⟨fun _ _ => rfl, fun _ _ hb => by cases hb⟩

theorem bind {x : Check α} {f : α → Check β} (hx : Delivers x P) (hf : ∀ a, P a → Delivers (f a) Q) :
    Delivers (x >>= f) Q := by
  constructor
  · intro r r'
    cases h : outcome x r with
    | error e => rw [outcome_bind_error h, outcome_bind_error ((hx.steady r r').symm.trans h)]
    | ok a =>
      rw [outcome_bind_ok h, outcome_bind_ok ((hx.steady r r').symm.trans h)]
      exact (hf a (hx.spec r a h)).steady _ _
  · intro r b hb
    obtain ⟨a, ha, hb⟩ := outcome_bind_eq_ok.mp hb
    exact (hf a (hx.spec r a ha)).spec _ b hb

theorem mono {x : Check α} {P' : α → Prop} (hx : Delivers x P) (h : ∀ a, P a → P' a) : Delivers x P' :=
  ⟨hx.steady, fun r a ha => h a (hx.spec r a ha)⟩

/-- A step whose result does not matter. -/
theorem next {x : Check α} {f : α → Check β} (hx : Steady x) (hf : ∀ a, Delivers (f a) Q) :
    Delivers (x >>= f) Q :=
  bind (P := fun _ => True) ⟨hx, fun _ _ _ => trivial⟩ fun a _ => hf a

theorem ofExcept {x : Except CheckError α} (h : ∀ a, x = .ok a → P a) : Delivers (Check.ofExcept x) P := by
  constructor
  · intro r r'
    rw [outcome_ofExcept, outcome_ofExcept]
  · intro r a ha
    rw [outcome_ofExcept] at ha
    exact h a ha

theorem ofEval {x : Except EvalError α} (h : ∀ a, x = .ok a → P a) : Delivers (Check.ofEval x) P := by
  constructor
  · cases x <;> exact fun _ _ => rfl
  · intro r a ha
    exact h a (outcome_ofEval_eq_ok.mp ha)

/-- What is computed without the run and then used. -/
theorem compute {x : Except EvalError α} {f : α → Check β} (h : ∀ a, Delivers (f a) Q) :
    Delivers (do let a ← Check.ofEval x; f a) Q :=
  bind (P := fun _ => True) (ofEval fun _ _ => trivial) fun a _ => h a

theorem ite {x y : Check α} {p : Prop} [Decidable p] (hx : p → Delivers x P) (hy : ¬p → Delivers y P) :
    Delivers (if p then x else y) P := by
  by_cases h : p
  · rw [if_pos h]
    exact hx h
  · rw [if_neg h]
    exact hy h

end Delivers

namespace Steady

theorem message (t : String) : Steady (Check.message t) := fun _ _ => rfl

theorem setHint (h : Option Hint) : Steady (Check.setHint h) := fun _ _ => rfl

theorem modify (f : Run → Run) : Steady (modify f : Check Unit) := fun _ _ => rfl

theorem forM {xs : List α} {f : α → Check Unit} (h : ∀ x, Steady (f x)) : Steady (xs.forM f) := by
  induction xs with
  | nil => exact fun _ _ => rfl
  | cons x xs ih =>
    exact (Delivers.next (Q := fun _ => True) (h x) fun _ => ⟨ih, fun _ _ _ => trivial⟩).steady

end Steady

/-! ## Whatever the run -/

section

variable {P : α → Prop} {Q : β → Prop}

/-- What the computation yields, from whatever run, has a property. -/
def Ensures (x : Check α) (P : α → Prop) : Prop := ∀ r a, outcome x r = .ok a → P a

namespace Ensures

theorem pure {a : α} (h : P a) : Ensures (Pure.pure a : Check α) P := fun _ _ hb => by cases hb; exact h

theorem throw (e : CheckError) : Ensures (MonadExcept.throw e : Check α) P := fun _ _ hb => by cases hb

theorem bind {x : Check α} {f : α → Check β} (hx : Ensures x P) (hf : ∀ a, P a → Ensures (f a) Q) :
    Ensures (x >>= f) Q := by
  intro r b hb
  obtain ⟨a, ha, hb⟩ := outcome_bind_eq_ok.mp hb
  exact hf a (hx r a ha) _ b hb

/-- A step whose result does not matter. -/
theorem next {x : Check α} {f : α → Check β} (hf : ∀ a, Ensures (f a) Q) : Ensures (x >>= f) Q :=
  bind (P := fun _ => True) (fun _ _ _ => trivial) fun a _ => hf a

theorem ofExcept {x : Except CheckError α} (h : ∀ a, x = .ok a → P a) : Ensures (Check.ofExcept x) P :=
  fun r a ha => h a (by rwa [outcome_ofExcept] at ha)

theorem ofEval {x : Except EvalError α} (h : ∀ a, x = .ok a → P a) : Ensures (Check.ofEval x) P :=
  fun _ a ha => h a (outcome_ofEval_eq_ok.mp ha)

theorem of_delivers {x : Check α} {P' : α → Prop} (hx : Delivers x P') (h : ∀ a, P' a → P a) : Ensures x P :=
  fun r a ha => h a (hx.spec r a ha)

theorem mapM {xs : List α} {f : α → Check β} (h : ∀ x ∈ xs, Ensures (f x) Q) :
    Ensures (xs.mapM f) fun ys => ∀ y ∈ ys, Q y := by
  induction xs with
  | nil => exact pure fun y hy => absurd hy List.not_mem_nil
  | cons x xs ih =>
    rw [List.mapM_cons]
    refine bind (h x List.mem_cons_self) fun y hy => ?_
    refine bind (ih fun z hz => h z (List.mem_cons_of_mem x hz)) fun ys hys => ?_
    exact pure (List.forall_mem_cons.mpr ⟨hy, hys⟩)

theorem ite {x y : Check α} {p : Prop} [Decidable p] (hx : p → Ensures x P) (hy : ¬p → Ensures y P) :
    Ensures (if p then x else y) P := by
  by_cases h : p
  · rw [if_pos h]
    exact hx h
  · rw [if_neg h]
    exact hy h

end Ensures

end

/-! ## Settled computations -/

/-- The computation succeeds from every run if `S` holds and from none otherwise, and what it yields has a
property. -/
structure Settles (x : Check α) (S : Prop) (P : α → Prop) : Prop where
  sound : ∀ r a, outcome x r = .ok a → S ∧ P a
  fails : ∀ r e, outcome x r = .error e → ¬S

namespace Settles

variable {S T : Prop} {P : α → Prop} {Q : β → Prop}

theorem succeeds {x : Check α} (hx : Settles x S P) (h : S) (r : Run) : ∃ a, outcome x r = .ok a ∧ P a := by
  cases ho : outcome x r with
  | error e => exact absurd h (hx.fails r e ho)
  | ok a => exact ⟨a, rfl, (hx.sound r a ho).2⟩

theorem pure {a : α} (hS : S) (h : P a) : Settles (Pure.pure a : Check α) S P := by
  constructor
  · intro _ b hb
    cases hb
    exact ⟨hS, h⟩
  · intro _ _ hb
    cases hb

theorem throw (e : CheckError) (hS : ¬S) : Settles (MonadExcept.throw e : Check α) S P := by
  constructor
  · intro _ _ hb
    cases hb
  · exact fun _ _ _ => hS

/-- If the first part fails so does the whole; otherwise the second part decides. -/
theorem bind {x : Check α} {f : α → Check β} (hx : Settles x S P) (hST : T → S)
    (hf : ∀ a, S → P a → Settles (f a) T Q) : Settles (x >>= f) T Q := by
  constructor
  · intro r b hb
    obtain ⟨a, ha, hb⟩ := outcome_bind_eq_ok.mp hb
    obtain ⟨hS, hP⟩ := hx.sound r a ha
    exact (hf a hS hP).sound _ b hb
  · intro r e he hT
    -- The first part cannot have failed, so the second has.
    obtain ⟨a, ha, hP⟩ := hx.succeeds (hST hT) r
    rw [outcome_bind_ok ha] at he
    exact (hf a (hST hT) hP).fails _ e he hT

theorem ofExcept {x : Except CheckError α} (hok : ∀ a, x = .ok a → S ∧ P a) (hS : S → ∃ a, x = .ok a) :
    Settles (Check.ofExcept x) S P := by
  constructor
  · intro r a ha
    rw [outcome_ofExcept] at ha
    exact hok a ha
  · intro r e he h
    obtain ⟨a, ha⟩ := hS h
    rw [outcome_ofExcept, ha] at he
    cases he

theorem ofEval {x : Except EvalError α} (hok : ∀ a, x = .ok a → S ∧ P a) (hS : S → ∃ a, x = .ok a) :
    Settles (Check.ofEval x) S P := by
  constructor
  · exact fun r a ha => hok a (outcome_ofEval_eq_ok.mp ha)
  · intro r e he h
    obtain ⟨a, ha⟩ := hS h
    rw [outcome_ofEval_eq_ok.mpr ha] at he
    cases he

/-- A step that always succeeds, and whose result does not matter. -/
theorem next {x : Check α} {f : α → Check β} (hx : ∀ r, ∃ a, outcome x r = .ok a)
    (hf : ∀ a, Settles (f a) T Q) : Settles (x >>= f) T Q := by
  have htrue : Settles x True fun _ => True :=
    ⟨fun _ _ _ => ⟨trivial, trivial⟩, fun r e he => by
      obtain ⟨a, ha⟩ := hx r
      rw [ha] at he
      cases he⟩
  exact htrue.bind (fun _ => trivial) fun a _ _ => hf a

theorem imp {x : Check α} {P' : α → Prop} (hx : Settles x S P) (hS : S ↔ T) (hP : ∀ a, S → P a → P' a) :
    Settles x T P' :=
  ⟨fun r a ha => ⟨hS.mp (hx.sound r a ha).1, hP a (hx.sound r a ha).1 (hx.sound r a ha).2⟩,
    fun r e he hT => hx.fails r e he (hS.mpr hT)⟩

end Settles

/-! ## Computations that only tell -/

/-- Only messages and the answer are left behind, and only computations on values can fail. -/
structure Tells (x : Check α) : Prop where
  hint : ∀ r, (after x r).hint = r.hint
  calls : ∀ r, (after x r).calls = r.calls
  fails : ∀ r e, outcome x r = .error e → ∃ v, e = .eval v

namespace Tells

theorem pure (a : α) : Tells (Pure.pure a : Check α) := ⟨fun _ => rfl, fun _ => rfl, fun _ _ h => by cases h⟩

theorem message (t : String) : Tells (Check.message t) := ⟨fun _ => rfl, fun _ => rfl, fun _ _ h => by cases h⟩

theorem answer (f : Answer → Answer) : Tells (modify fun r => { r with answer := f r.answer } : Check Unit) :=
  ⟨fun _ => rfl, fun _ => rfl, fun _ _ h => by cases h⟩

theorem ofEval (x : Except EvalError α) : Tells (Check.ofEval x) := by
  cases x with
  | ok a => exact pure a
  | error v => exact ⟨fun _ => rfl, fun _ => rfl, fun _ _ h => by cases h; exact ⟨v, rfl⟩⟩

theorem bind {x : Check α} {f : α → Check β} (hx : Tells x) (hf : ∀ a, Tells (f a)) : Tells (x >>= f) := by
  constructor
  · intro r
    cases h : outcome x r with
    | error e => rw [after_bind_error h, hx.hint]
    | ok a => rw [after_bind_ok h, (hf a).hint, hx.hint]
  · intro r
    cases h : outcome x r with
    | error e => rw [after_bind_error h, hx.calls]
    | ok a => rw [after_bind_ok h, (hf a).calls, hx.calls]
  · intro r e he
    cases h : outcome x r with
    | error e' =>
      rw [outcome_bind_error h] at he
      cases he
      exact hx.fails r _ h
    | ok a =>
      rw [outcome_bind_ok h] at he
      exact (hf a).fails _ e he

end Tells

/-- Only messages are left behind, and only computations on values can fail. -/
structure Announces (x : Check α) : Prop extends Tells x where
  answer : ∀ r, (after x r).answer = r.answer

namespace Announces

theorem pure (a : α) : Announces (Pure.pure a : Check α) := ⟨Tells.pure a, fun _ => rfl⟩

theorem message (t : String) : Announces (Check.message t) := ⟨Tells.message t, fun _ => rfl⟩

theorem ofEval (x : Except EvalError α) : Announces (Check.ofEval x) := ⟨Tells.ofEval x, fun r => by rw [after_ofEval]⟩

theorem bind {x : Check α} {f : α → Check β} (hx : Announces x) (hf : ∀ a, Announces (f a)) : Announces (x >>= f) := by
  refine ⟨hx.toTells.bind fun a => (hf a).toTells, fun r => ?_⟩
  cases h : outcome x r with
  | error e => rw [after_bind_error h, hx.answer]
  | ok a => rw [after_bind_ok h, (hf a).answer, hx.answer]

theorem ite {x y : Check α} {p : Prop} [Decidable p] (hx : Announces x) (hy : Announces y) : Announces (if p then x else y) := by
  by_cases h : p
  · rw [if_pos h]
    exact hx
  · rw [if_neg h]
    exact hy

theorem forM {xs : List α} {f : α → Check Unit} (h : ∀ x, Announces (f x)) : Announces (xs.forM f) := by
  induction xs with
  | nil => exact pure ()
  | cons x xs ih => exact bind (h x) fun _ => ih

end Announces

end Check

end Statewise
