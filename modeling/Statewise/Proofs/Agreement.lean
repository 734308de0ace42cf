import Statewise.Proofs.Domain
import Statewise.Proofs.Reductions
import Statewise.Proofs.Widening

/-!
# The checker agrees with the interpreter

A checker without definitions and without a solver computes, over any domain, the values that
`Model.valueIn` gives in the states of the domain, for all expressions that the interpreter knows.
-/

namespace Statewise

open Check StateVector

/-! ## Values of the interpreter -/

namespace Model

attribute [local simp] valueIn valuesIn

/-- What the interpreter makes of an expression, as a possible value. -/
def valueOf (m : Model) (e : Expr) : Valuation := fun s => (m.valueIn e s).toOption

/-- What the interpreter makes of several expressions. -/
def valuesOf (m : Model) (es : List Expr) (s : Nat) : Option (List Value) := (m.valuesIn es s).toOption

theorem toOption_bind {α β ε : Type} (x : Except ε α) (f : α → Except ε β) :
    (x >>= f).toOption = x.toOption.bind fun a => (f a).toOption := by
  cases x <;> rfl

theorem toOption_eq_some {α ε : Type} {x : Except ε α} {a : α} : x.toOption = some a ↔ x = .ok a := by
  cases x <;> simp [Except.toOption]

theorem toOption_liftEval {α : Type} (x : Except EvalError α) : (liftEval x).toOption = x.toOption := by
  cases x <;> rfl

theorem toOption_widen (t : ValueType) (v : Value) : (widen t v).toOption = v.coerce? t := by
  unfold widen
  cases v.coerce? t <;> rfl

theorem valueOf_eq_some {m : Model} {e : Expr} {s : Nat} {y : Value} :
    m.valueOf e s = some y ↔ m.valueIn e s = .ok y := toOption_eq_some

section

variable (m : Model)

theorem valueOf_literal (v : Value) : m.valueOf (.literal v) = fun _ => some v := by
  funext s
  unfold valueOf
  rw [valueIn, toOption_widen, Value.coerce?_type]

theorem valueOf_var (name : String) (index : UInt64) (t : ValueType) :
    m.valueOf (.var name index t) = lookupValue t fun s => m.value? s index.toNat := by
  funext s
  simp only [valueOf, lookupValue]
  rw [valueIn]
  cases m.value? s index.toNat with
  | none => rfl
  | some v => exact toOption_widen t v

theorem valueOf_label (name : String) (s : Nat) :
    m.valueOf (.label name) s = (m.labelIn name s).toOption.bind (·.coerce? .bool) := by
  unfold valueOf
  rw [valueIn, toOption_bind]
  simp only [toOption_widen]

theorem valueOf_ite (c t e : Expr) :
    m.valueOf (.ite c t e) = iteValue (t.type.choice e.type) (m.valueOf c) (m.valueOf t) (m.valueOf e) := by
  funext s
  have hbranch : ∀ b : Expr, (do
      let v ← m.valueIn b s
      widen (t.type.choice e.type) v).toOption =
        (m.valueIn b s).toOption.bind (·.coerce? (t.type.choice e.type)) := by
    intro b
    simp only [toOption_bind, toOption_widen]
  simp only [valueOf, iteValue]
  rw [valueIn, toOption_bind]
  cases m.valueIn c s with
  | error err => rfl
  | ok y =>
    cases y with
    | bool b =>
      cases b with
      | true => exact hbranch t
      | false => exact hbranch e
    | int n => rfl
    | double x => rfl

theorem valueOf_lazy {op : BinaryOp} (hop : op.isLazy = true) (l r : Expr) :
    m.valueOf (.binary op l r) = lazyValue op (m.valueOf l) (m.valueOf r) := by
  have htype : op.resultType l.type r.type = .bool := by
    cases op <;> simp [BinaryOp.isLazy] at hop <;> rfl
  have hlazy : ∀ s, m.valueIn (.binary op l r) s = (do
      let holds ← liftEval (← m.valueIn l s).expectBool
      let right := do widen .bool (.bool (← liftEval (← m.valueIn r s).expectBool))
      (decided? op holds).elim right fun b => widen .bool (.bool b)) := by
    intro s
    rw [valueIn, htype]
    cases op <;> simp [BinaryOp.isLazy] at hop <;>
      refine bind_congr fun a => bind_congr fun holds => ?_ <;>
      cases decided? _ holds <;> rfl
  funext s
  simp only [valueOf, lazyValue]
  rw [hlazy, toOption_bind]
  cases m.valueIn l s with
  | error err => rfl
  | ok y =>
    cases y with
    | int n => rfl
    | double x => rfl
    | bool a =>
      simp only [Except.toOption, Option.bind_some, Value.expectBool, liftEval, Except.mapError, bind, Except.bind]
      cases decided? op a with
      | some b => rfl
      | none =>
        cases m.valueIn r s with
        | error err => rfl
        | ok z => cases z <;> rfl

theorem valueOf_strict {op : BinaryOp} (hop : op.isLazy = false) (l r : Expr) :
    m.valueOf (.binary op l r) =
      mapValue2 (op.resultType l.type r.type) (Value.applyBinary op) (m.valueOf l) (m.valueOf r) := by
  have hstrict : ∀ s, m.valueIn (.binary op l r) s = (do
      let a ← m.valueIn l s
      let b ← m.valueIn r s
      let v ← liftEval (Value.applyBinary op a b)
      widen (op.resultType l.type r.type) v) := by
    intro s
    rw [valueIn]
    cases op <;> simp [BinaryOp.isLazy] at hop <;> rfl
  funext s
  unfold valueOf mapValue2
  rw [hstrict]
  simp only [toOption_bind, toOption_liftEval, toOption_widen]

theorem valueOf_unary (op : UnaryOp) (e : Expr) :
    m.valueOf (.unary op e) = mapValue (op.resultType e.type) (Value.applyUnary op) (m.valueOf e) := by
  funext s
  unfold valueOf mapValue
  rw [valueIn]
  simp only [toOption_bind, toOption_liftEval, toOption_widen]

theorem valueOf_call (f : Function) (args : List Expr) (s : Nat) :
    m.valueOf (.call f args) s = (m.valuesOf args s).bind fun vs =>
      (applyFunction f vs).toOption.bind (·.coerce? (f.resultType (Expr.types args))) := by
  unfold valueOf valuesOf
  rw [valueIn]
  simp only [toOption_bind, toOption_widen]

theorem valueOf_filter (op : FilterOp) (e : Expr) (invisible explained : Bool) (s : Nat) :
    m.valueOf (.filter op e none invisible explained) s =
      ((List.range m.numStates).mapM fun s => m.valueIn e s).toOption.bind fun vs =>
        (combineAll op vs).toOption.bind (·.coerce? (op.resultType e.type)) := by
  unfold valueOf
  rw [valueIn]
  simp only [toOption_bind, toOption_widen]

theorem valuesOf_nil (s : Nat) : m.valuesOf [] s = some [] := by
  unfold valuesOf
  rw [valuesIn]
  rfl

theorem valuesOf_cons (e : Expr) (es : List Expr) (s : Nat) :
    m.valuesOf (e :: es) s = (m.valueOf e s).bind fun v => (m.valuesOf es s).map (v :: ·) := by
  unfold valuesOf valueOf
  rw [valuesIn]
  cases m.valueIn e s with
  | error err => rfl
  | ok v =>
    cases m.valuesIn es s <;> rfl

/-- What has been widened to a type has this type. -/
theorem type_of_bind_coerce? {x : Option Value} {t : ValueType} {y : Value}
    (h : x.bind (·.coerce? t) = some y) : y.type = t := by
  obtain ⟨v, -, hv⟩ := Option.bind_eq_some_iff.mp h
  exact Value.type_of_coerce? hv

variable {m}

/-- The interpreter gives values of the static type. -/
theorem type_of_valueOf {e : Expr} {s : Nat} {y : Value} (h : m.valueOf e s = some y) : y.type = e.type := by
  cases e with
  | literal v =>
    rw [valueOf_literal] at h
    cases h
    rfl
  | var name index t =>
    rw [valueOf_var] at h
    exact type_of_bind_coerce? h
  | label name =>
    rw [valueOf_label] at h
    exact type_of_bind_coerce? h
  | ite c t e =>
    rw [valueOf_ite] at h
    rcases iteValue_eq_some h with ⟨-, z, -, hz⟩ | ⟨-, z, -, hz⟩ <;> exact Value.type_of_coerce? hz
  | binary op l r =>
    cases hop : op.isLazy with
    | true =>
      rw [valueOf_lazy m hop] at h
      have htype : (Expr.binary op l r).type = .bool := by
        cases op <;> simp [BinaryOp.isLazy] at hop <;> rfl
      rw [htype]
      unfold lazyValue at h
      split at h
      · split at h
        · cases h
          rfl
        · exact type_of_bind_coerce? h
      · cases h
    | false =>
      rw [valueOf_strict m hop] at h
      obtain ⟨a, -, h⟩ := Option.bind_eq_some_iff.mp h
      obtain ⟨b, -, h⟩ := Option.bind_eq_some_iff.mp h
      exact type_of_bind_coerce? h
  | unary op e =>
    rw [valueOf_unary] at h
    obtain ⟨a, -, h⟩ := Option.bind_eq_some_iff.mp h
    exact type_of_bind_coerce? h
  | call f args =>
    rw [valueOf_call] at h
    obtain ⟨vs, -, h⟩ := Option.bind_eq_some_iff.mp h
    exact type_of_bind_coerce? h
  | filter op e p invisible explained =>
    cases p with
    | none =>
      rw [valueOf_filter] at h
      obtain ⟨vs, -, h⟩ := Option.bind_eq_some_iff.mp h
      exact type_of_bind_coerce? h
    | some p =>
      simp [valueOf, Except.toOption] at h
  | _ => simp [valueOf, Except.toOption] at h

/-- Parentheses change nothing, since a value has its static type already. -/
theorem valueOf_parenth (e : Expr) (s : Nat) : m.valueOf (.unary .parenth e) s = m.valueOf e s := by
  rw [valueOf_unary]
  unfold mapValue
  cases h : m.valueOf e s with
  | none => rfl
  | some y =>
    show y.coerce? e.type = some y
    rw [← type_of_valueOf h, Value.coerce?_type]

end

end Model

/-! ## Folding widened values -/

section

variable {f : Function} {t : ValueType}

/-- Further values combined one after the other, each result widened. -/
def foldWidened (f : Function) (t : ValueType) : Value → List Value → Option Value
  | a, [] => some a
  | a, b :: rest => ((Value.applyFunction2 f a b).toOption.bind (·.coerce? t)).bind fun c => foldWidened f t c rest

/-- A result of a fold of several values has the type. -/
theorem type_of_foldWidened {a b : Value} {rest : List Value} {y : Value}
    (h : foldWidened f t a (b :: rest) = some y) : y.type = t := by
  induction rest generalizing a b with
  | nil =>
    obtain ⟨c, hc, hy⟩ := Option.bind_eq_some_iff.mp h
    cases hy
    exact Model.type_of_bind_coerce? hc
  | cons d rest ih =>
    obtain ⟨c, -, hy⟩ := Option.bind_eq_some_iff.mp h
    exact ih hy

/-- Picking one of two numbers depends on their doubles only, once the result is widened to a double. -/
theorem applyFunction2_congr (hf : f.IsExtremum) {a a' b : Value} (h : a.coerce? .double = a'.coerce? .double) :
    (Value.applyFunction2 f a b).toOption.bind (·.coerce? .double) =
      (Value.applyFunction2 f a' b).toOption.bind (·.coerce? .double) := by
  rcases hf with rfl | rfl
  all_goals
    cases a <;> cases a' <;> cases b <;>
      simp_all [Value.coerce?, Value.applyFunction2, Value.pick, Value.expectFloat, Except.toOption, bind,
        Except.bind, pure, Except.pure, Widening.toDouble_min, Widening.toDouble_max]

/-- The result of an extremum is a number. -/
theorem exists_coerce?_of_extremum (hf : f.IsExtremum) {a b c : Value} (h : Value.applyFunction2 f a b = .ok c) :
    ∃ d, c.coerce? .double = some d := by
  rcases hf with rfl | rfl
  all_goals
    cases a <;> cases b <;>
      simp_all [Value.applyFunction2, Value.pick, Value.expectFloat, bind, Except.bind, pure, Except.pure] <;>
      subst h <;> exact ⟨_, rfl⟩

/-- Widening at every step and widening at the end give the same double. -/
theorem foldWidened_double (hf : f.IsExtremum) {a a' : Value} {rest : List Value}
    (h : a.coerce? .double = a'.coerce? .double) :
    (foldWidened f .double a' rest).bind (·.coerce? .double) =
      (rest.foldlM (Value.applyFunction2 f) a).toOption.bind (·.coerce? .double) := by
  induction rest generalizing a a' with
  | nil => exact h.symm
  | cons b rest ih =>
    have hstep := applyFunction2_congr (b := b) hf h
    rw [List.foldlM_cons, Model.toOption_bind, foldWidened, ← hstep]
    cases hab : Value.applyFunction2 f a b with
    | error e => rfl
    | ok c =>
      obtain ⟨d, hd⟩ := exists_coerce?_of_extremum hf hab
      have hdd : d.coerce? .double = some d := by
        rw [← Value.type_of_coerce? hd, Value.coerce?_type]
      simp only [Except.toOption, Option.bind_some, hd]
      exact ih (hd.trans hdd.symm)

/-- Among integers nothing is ever widened. -/
theorem foldWidened_int (hf : f.IsExtremum) {a : Value} {rest : List Value} (ha : a.type = .int)
    (hrest : ∀ b ∈ rest, b.type = .int) :
    (foldWidened f .int a rest).bind (·.coerce? .int) =
      (rest.foldlM (Value.applyFunction2 f) a).toOption.bind (·.coerce? .int) := by
  induction rest generalizing a with
  | nil => rfl
  | cons b rest ih =>
    have hb := hrest b List.mem_cons_self
    obtain ⟨x, rfl⟩ : ∃ x, a = .int x := by
      cases a <;> first | exact ⟨_, rfl⟩ | cases ha
    obtain ⟨y, rfl⟩ : ∃ y, b = .int y := by
      cases b <;> first | exact ⟨_, rfl⟩ | cases hb
    have happly : ∃ z, Value.applyFunction2 f (.int x) (.int y) = .ok (.int z) := by
      rcases hf with rfl | rfl <;> exact ⟨_, rfl⟩
    obtain ⟨z, hz⟩ := happly
    rw [List.foldlM_cons, Model.toOption_bind, foldWidened, hz]
    exact ih rfl fun c hc => hrest c (List.mem_cons_of_mem _ hc)

theorem join_cases (t u : ValueType) : t.join u = .int ∧ t = .int ∧ u = .int ∨ t.join u = .double := by
  cases t <;> cases u <;> simp [ValueType.join]

/-- The join of several types is an integer only if all of them are, and else a double. -/
theorem foldl_join (t u : ValueType) (ts : List ValueType) :
    ((u :: ts).foldl ValueType.join t = .int ∧ ∀ w ∈ t :: u :: ts, w = .int) ∨
      (u :: ts).foldl ValueType.join t = .double := by
  induction ts generalizing t u with
  | nil =>
    rcases join_cases t u with ⟨h, rfl, rfl⟩ | h
    · exact Or.inl ⟨h, by simp⟩
    · exact Or.inr h
  | cons w ts ih =>
    rcases ih (t.join u) w with ⟨h, hall⟩ | h
    · left
      refine ⟨h, fun x hx => ?_⟩
      have hjoin : t.join u = .int := hall _ List.mem_cons_self
      rcases join_cases t u with ⟨-, rfl, rfl⟩ | hdouble
      · rcases List.mem_cons.mp hx with rfl | hx
        · rfl
        · rcases List.mem_cons.mp hx with rfl | hx
          · rfl
          · exact hall x (List.mem_cons_of_mem _ hx)
      · rw [hdouble] at hjoin
        cases hjoin
    · exact Or.inr h

theorem foldWidened_eq (hf : f.IsExtremum) {a b : Value} {rest : List Value} :
    foldWidened f (f.resultType ((a :: b :: rest).map Value.type)) a (b :: rest) =
      ((b :: rest).foldlM (Value.applyFunction2 f) a).toOption.bind
        (·.coerce? (f.resultType ((a :: b :: rest).map Value.type))) := by
  have hresult : f.resultType ((a :: b :: rest).map Value.type) =
      (b.type :: rest.map Value.type).foldl ValueType.join a.type := by
    rcases hf with rfl | rfl <;> rfl
  -- What is folded has the type already.
  have hlast : ∀ t, foldWidened f t a (b :: rest) = (foldWidened f t a (b :: rest)).bind (·.coerce? t) := by
    intro t
    cases h : foldWidened f t a (b :: rest) with
    | none => rfl
    | some y => rw [Option.bind_some, ← type_of_foldWidened h, Value.coerce?_type]
  rw [hlast, hresult]
  -- Either all are integers, and nothing is widened, or the common type is that of doubles.
  rcases foldl_join a.type b.type (rest.map Value.type) with ⟨hint, hall⟩ | hdouble
  · rw [hint]
    refine foldWidened_int hf (hall _ List.mem_cons_self) fun c hc => hall _ ?_
    exact List.mem_cons_of_mem _ (List.mem_map_of_mem (f := Value.type) hc)
  · rw [hdouble]
    exact foldWidened_double hf rfl

end

namespace Model

variable {m : Model}

/-- The values of several expressions have their static types. -/
theorem types_of_valuesOf {es : List Expr} {s : Nat} {vs : List Value} (h : m.valuesOf es s = some vs) :
    vs.map Value.type = Expr.types es := by
  induction es generalizing vs with
  | nil =>
    rw [valuesOf_nil] at h
    cases h
    rfl
  | cons e es ih =>
    rw [valuesOf_cons, Option.bind_eq_some_iff] at h
    obtain ⟨v, hv, h⟩ := h
    obtain ⟨ws, hws, rfl⟩ := Option.map_eq_some_iff.mp h
    rw [List.map_cons, type_of_valueOf hv, ih hws]
    rfl

/-- A fold over the values of expressions, which is empty if one of them has no value. -/
theorem foldValue_eq {f : Function} {t : ValueType} {g : Valuation} {es : List Expr} {s : Nat} :
    foldValue f t g (es.map m.valueOf) s = (g s).bind fun a => (m.valuesOf es s).bind (foldWidened f t a) := by
  induction es generalizing g with
  | nil =>
    rw [valuesOf_nil]
    show g s = _
    cases g s <;> rfl
  | cons e es ih =>
    rw [List.map_cons, foldValue, ih, valuesOf_cons]
    unfold mapValue2
    cases g s with
    | none => rfl
    | some a =>
      cases m.valueOf e s with
      | none => rfl
      | some b =>
        simp only [Option.bind_some]
        cases m.valuesOf es s with
        | none => simp
        | some vs => simp [foldWidened]

theorem valueOf_rounding {f : Function} (hf : f.IsRounding) (a : Expr) :
    m.valueOf (.call f [a]) = mapValue (f.resultType [a.type]) (Value.applyFunction1 f) (m.valueOf a) := by
  funext s
  rw [valueOf_call, valuesOf_cons, valuesOf_nil]
  unfold mapValue
  cases m.valueOf a s with
  | none => rfl
  | some v =>
    have happly : (applyFunction f [v]).toOption = (Value.applyFunction1 f v).toOption := by
      rcases hf with rfl | rfl | rfl <;> exact toOption_liftEval _
    simp only [Option.bind_some, Option.map_some, happly]
    rfl

theorem valueOf_dyadic {f : Function} (hf : f.IsDyadic) (a b : Expr) :
    m.valueOf (.call f [a, b]) =
      mapValue2 (f.resultType [a.type, b.type]) (Value.applyFunction2 f) (m.valueOf a) (m.valueOf b) := by
  funext s
  rw [valueOf_call, valuesOf_cons, valuesOf_cons, valuesOf_nil]
  unfold mapValue2
  cases m.valueOf a s with
  | none => rfl
  | some v =>
    cases m.valueOf b s with
    | none => rfl
    | some w =>
      have happly : (applyFunction f [v, w]).toOption = (Value.applyFunction2 f v w).toOption := by
        rcases hf with rfl | rfl | rfl
        all_goals
          refine (toOption_liftEval _).trans ?_
          rw [List.foldlM_cons]
          simp
      simp only [Option.bind_some, Option.map_some, happly]
      rfl

theorem valueOf_extremum {f : Function} (hf : f.IsExtremum) (a b : Expr) (rest : List Expr) :
    m.valueOf (.call f (a :: b :: rest)) =
      foldValue f (f.resultType (Expr.types (a :: b :: rest))) (m.valueOf a) ((b :: rest).map m.valueOf) := by
  funext s
  rw [valueOf_call, foldValue_eq, valuesOf_cons]
  cases ha : m.valueOf a s with
  | none => rfl
  | some v =>
    cases hrest : m.valuesOf (b :: rest) s with
    | none => rfl
    | some vs =>
      have htypes := types_of_valuesOf (valuesOf_cons m a (b :: rest) s ▸ by rw [ha, hrest]; rfl :
        m.valuesOf (a :: b :: rest) s = some (v :: vs))
      cases vs with
      | nil => simp [Expr.types] at htypes
      | cons w ws =>
        have happly : (applyFunction f (v :: w :: ws)).toOption =
            ((w :: ws).foldlM (Value.applyFunction2 f) v).toOption := by
          rcases hf with rfl | rfl <;> exact toOption_liftEval _
        simp only [Option.bind_some, Option.map_some, happly, ← htypes]
        exact (foldWidened_eq hf).symm

end Model

/-! ## Filters over all states -/

namespace StateVector

variable {n : Nat} {v : StateVector} {w : Nat → Value}

/-- A vector with the given values in all states. -/
structure Lists (v : StateVector) (n : Nat) (w : Nat → Value) : Prop where
  plain : v.IsPlain n
  entry : ∀ s < n, v.valueAt s = .ok (w s)

theorem toList_full (hn : n < stateLimit) : (StateSet.full n).toList = List.range n := by
  show List.range (StateSet.index n) = List.range n
  rw [StateSet.index_of_lt hn]

/-- The satisfaction set of a vector holds where the values do. -/
theorem Lists.satisfaction (hv : v.Lists n w) {a : StateSet} (ha : v.satisfaction = .ok a) :
    ∀ s < n, w s = .bool (a.contains s) := by
  intro s hs
  have hval := valueAt_of_satisfaction ha (hv.plain.1.symm ▸ hs)
  rw [hv.entry s hs] at hval
  exact Except.ok.inj hval

/-- Truth values in all states are a satisfaction set. -/
theorem Lists.expectBool (hn : 0 < n) (hv : v.Lists n w) :
    (∃ a, v.satisfaction = .ok a) ↔ ∃ bs, ((List.range n).map w).mapM Value.expectBool = .ok bs := by
  rw [Yields.exists_mapM_eq_ok]
  constructor
  · rintro ⟨a, ha⟩ x hx
    obtain ⟨s, hs, rfl⟩ := List.mem_map.mp hx
    rw [hv.satisfaction ha s (List.mem_range.mp hs)]
    exact ⟨_, rfl⟩
  · intro h
    obtain ⟨b, hb⟩ := h (w 0) (List.mem_map_of_mem (List.mem_range.mpr hn))
    have hzero := hv.entry 0 hn
    rw [Value.expectBool_eq_ok.mp hb] at hzero
    exact satisfaction_of_valueAt hzero

theorem Lists.bools (hv : v.Lists n w) {a : StateSet} (ha : v.satisfaction = .ok a) :
    ((List.range n).map w).mapM Value.expectBool = .ok ((List.range n).map a.contains) := by
  have hbools := hv.satisfaction ha
  rw [List.mapM_map]
  refine Yields.mapM_eq_ok_map fun s hs => ?_
  show (w s).expectBool = _
  rw [hbools s (List.mem_range.mp hs)]
  rfl

/-- Integers in all states. -/
theorem Lists.ints {k : Nat → Int64} (hk : ∀ s < n, w s = .int (k s)) :
    ((List.range n).map w).mapM Value.expectInt = .ok ((List.range n).map k) := by
  rw [List.mapM_map]
  refine Yields.mapM_eq_ok_map fun s hs => ?_
  show (w s).expectInt = _
  rw [hk s (List.mem_range.mp hs)]
  rfl

/-- The extreme of integers over all states. -/
theorem Lists.foldOver (hn : n < stateLimit) (hpos : 0 < n) (hv : v.Lists n w) {k : Nat → Int64}
    (hk : ∀ s < n, w s = .int (k s)) {combine : Value → Value → Except EvalError Value}
    {pick : Int64 → Int64 → Int64} (hcombine : ∀ x y, combine (.int x) (.int y) = .ok (.int (pick x y))) :
    ∃ x, v.foldOver combine (.full n) = .ok (.int x) ∧
      Model.extremeInt pick ((List.range n).map k) = .ok (.int x) := by
  -- The first value starts the fold, so the fold of the others is about any start.
  have hfold : ∀ (xs : List Nat) (x : Int64), (∀ s ∈ xs, s < n) →
      xs.foldlM (fun acc s => do combine acc (← v.valueAt s)) (.int x) =
        .ok (.int ((xs.map k).foldl pick x)) := by
    intro xs
    induction xs with
    | nil => exact fun x _ => rfl
    | cons s xs ih =>
      intro x hlt
      have hs := hlt s List.mem_cons_self
      rw [List.foldlM_cons, hv.entry s hs, hk s hs]
      show (combine (.int x) (.int (k s)) >>= _) = _
      rw [hcombine]
      exact ih _ fun z hz => hlt z (List.mem_cons_of_mem s hz)
  unfold StateVector.foldOver
  rw [toList_full hn]
  cases hrange : List.range n with
  | nil => simp at hrange; omega
  | cons s rest =>
    have hlt : ∀ z ∈ s :: rest, z < n := fun z hz => List.mem_range.mp (hrange ▸ hz)
    refine ⟨(rest.map k).foldl pick (k s), ?_, rfl⟩
    dsimp only
    rw [hv.entry s (hlt s List.mem_cons_self), hk s (hlt s List.mem_cons_self)]
    exact hfold rest (k s) fun z hz => hlt z (List.mem_cons_of_mem s hz)

/-- Integers can be compared with an integer. -/
theorem Lists.closeStates (hn : n < stateLimit) (hv : v.Lists n w) {k : Nat → Int64}
    (hk : ∀ s < n, w s = .int (k s)) (x : Int64) (t : Tolerance) :
    ∃ found, v.closeStates (.int x) t (some (.full n)) = .ok found := by
  refine closeStates_succeeds (fun s hs => ?_) t
  have hs : s < n := (StateSet.mem_full_of_lt hn).mp hs
  exact ⟨.int (k s), by rw [hv.entry s hs, hk s hs], rfl⟩

/-- The exact sum of the integers before a state. -/
def partialSum (k : Nat → Int64) (j : Nat) : Int := ((List.range j).map fun s => (k s).toInt).sum

theorem partialSum_succ (k : Nat → Int64) (j : Nat) : partialSum k (j + 1) = partialSum k j + (k j).toInt := by
  unfold partialSum
  rw [List.range_succ, List.map_append, List.sum_append]
  simp

/-- A sum whose partial sums fit into 64 bits does not wrap around. -/
theorem foldl_add_toInt {k : Nat → Int64} {j : Nat}
    (hfit : ∀ i ≤ j, -9223372036854775808 ≤ partialSum k i ∧ partialSum k i ≤ 9223372036854775807) :
    (((List.range j).map k).foldl (· + ·) 0).toInt = partialSum k j := by
  induction j with
  | zero => rfl
  | succ j ih =>
    have hj := ih fun i hi => hfit i (by omega)
    have hbounds := hfit (j + 1) (Nat.le_refl _)
    rw [partialSum_succ] at hbounds ⊢
    rw [List.range_succ, List.map_append, List.foldl_append]
    show (((List.range j).map k).foldl (· + ·) 0 + k j).toInt = _
    rw [Int64.toInt_add, hj, Int.bmod_eq_of_le_mul_two (by omega) (by omega)]

/-- A sum of integers whose partial sums fit is the sum that wraps around. -/
theorem Lists.sumOver (hn : n < stateLimit) (hpos : 0 < n) (hv : v.Lists n w) {k : Nat → Int64}
    (hk : ∀ s < n, w s = .int (k s))
    (hfit : ∀ i ≤ n, -9223372036854775808 ≤ partialSum k i ∧ partialSum k i ≤ 9223372036854775807) :
    v.sumOver (.full n) = .ok (.int (((List.range n).map k).foldl (· + ·) 0)) := by
  have hmem : ∀ s, s ∈ StateSet.full n ↔ s < n := fun s => StateSet.mem_full_of_lt hn
  have hval : ∀ s ∈ StateSet.full n, v.valueAt s = .ok (.int (k s)) := fun s hs => by
    rw [hv.entry s ((hmem s).mp hs), hk s ((hmem s).mp hs)]
  have hfits : ∀ i, FitsWord (((StateSet.full n).toList.take i).map fun s => (k s).toInt).sum := by
    intro i
    rw [toList_full hn, List.take_range]
    exact hfit _ (Nat.min_le_right i n)
  obtain ⟨total, htotal, hsum⟩ := sumOver_ints hval ⟨0, (hmem 0).mpr hpos⟩ hfits
  have heq : total = ((List.range n).map k).foldl (· + ·) 0 := by
    rw [toList_full hn] at hsum
    exact Int64.toInt_inj.mp (hsum.trans (foldl_add_toInt hfit).symm)
  rw [htotal, heq]

end StateVector

namespace Checker

variable {c : Checker} {m : Model} {entered : Entered}

/-- The reduction of the values of an expression over all states reports what the interpreter makes of
them. -/
def ReducesLike (settings : Settings) (m : Model) (op : FilterOp) (e : Expr) : Prop :=
  ∀ (f : Filter) (s : Selection) (v : StateVector) (w : Nat → Value), f.op = op → s.states = .full m.numStates →
    v.Lists m.numStates w → (∀ s < m.numStates, m.valueOf e s = some (w s)) →
    Settles (f.reduce settings m s v) (∃ x, Model.combineAll op ((List.range m.numStates).map w) = .ok x)
      fun r => ∃ x, Model.combineAll op ((List.range m.numStates).map w) = .ok x ∧
        x.type = op.resultType e.type ∧ Filter.IsSingle m.numStates x r

/-- Where a filter without a selector has a value, its operand has values everywhere. -/
theorem exists_value_of_filter {op : FilterOp} {e : Expr} {invisible explained : Bool} {z : Nat} {y : Value}
    (h : m.valueOf (.filter op e none invisible explained) z = some y) {s : Nat} (hs : s < m.numStates) :
    ∃ x, m.valueOf e s = some x := by
  rw [Model.valueOf_filter, Option.bind_eq_some_iff] at h
  obtain ⟨vs, hvs, -⟩ := h
  obtain ⟨x, hx⟩ := Yields.exists_mapM_eq_ok.mp ⟨vs, Model.toOption_eq_some.mp hvs⟩ s (List.mem_range.mpr hs)
  exact ⟨x, Model.valueOf_eq_some.mpr hx⟩

/-- The value of a filter without a selector, given those of its operand. -/
theorem valueOf_filter_of_values (op : FilterOp) {e : Expr} {w : Nat → Value} (invisible explained : Bool)
    (h : ∀ s < m.numStates, m.valueOf e s = some (w s)) (s : Nat) :
    m.valueOf (.filter op e none invisible explained) s =
      (Model.combineAll op ((List.range m.numStates).map w)).toOption.bind (·.coerce? (op.resultType e.type)) := by
  have hmapM : ((List.range m.numStates).mapM fun s => m.valueIn e s) = .ok ((List.range m.numStates).map w) :=
    Yields.mapM_eq_ok_map fun s hs => Model.valueOf_eq_some.mp (h s (List.mem_range.mp hs))
  rw [Model.valueOf_filter, hmapM]
  rfl

/-- Recording a single value shows it over every domain. -/
theorem record_shows {f : Filter} {parameters : Option String} {reduced : Reduced} {x : Value} {g : Valuation}
    {d : StateSet} (hn : m.numStates < stateLimit) (hd : d.IsDomain m.numStates)
    (hsingle : Filter.IsSingle m.numStates x reduced) (hg : ∀ s, g s = some x) :
    ComputesOn m.numStates d (f.record c.settings parameters reduced) g := by
  obtain ⟨accuracy, explanation, rfl⟩ := hsingle
  refine (Filter.record_settles _ _ (S := True) trivial _ _).imp (iff_of_true trivial fun s _ => ⟨x, hg s⟩)
    fun out _ hout => ?_
  subst hout
  refine ⟨isPlain_constant x _, fun s hs y hy => ?_⟩
  rw [hg s] at hy
  cases hy
  exact (valueAt_withAccuracy _ _ s).trans (valueAt_constant (fun _ => hn) (hd.lt s hs))

/-- A filter without a selector has the value that the interpreter gives it. -/
theorem selectorless_hasValues {op : FilterOp} {e : Expr} {invisible explained : Bool}
    (hn : m.numStates < stateLimit) (hop : op ≠ .state ∧ op ≠ .first) (he : HasValues c m entered e (m.valueOf e))
    (hreduce : 0 < m.numStates → ReducesLike c.settings m op e) :
    HasValues c m entered (.filter op e none invisible explained)
      (m.valueOf (.filter op e none invisible explained)) := by
  intro d hd
  show Settles (evalWith .whereOpen c m entered (.filter op e none invisible explained) (some d)) _ _
  obtain ⟨z, hz⟩ := hd.nonempty
  have hpos : 0 < m.numStates := Nat.lt_of_le_of_lt (Nat.zero_le z) (hd.lt z hz)
  have hmem : ∀ s, s ∈ StateSet.full m.numStates ↔ s < m.numStates := fun s => StateSet.mem_full_of_lt hn
  have hfull : (StateSet.full m.numStates).IsDomain m.numStates := ⟨⟨0, (hmem 0).mpr hpos⟩, fun s => (hmem s).mp⟩
  rw [evalWith_filter]
  show Settles (pure (StateSet.full m.numStates) >>= applyFilter .whereOpen c m entered _ e) _ _
  rw [pure_bind]
  unfold applyFilter
  have hstates : (Filter.selectionOf ⟨op, none, invisible, explained⟩ m (.full m.numStates)).states =
      .full m.numStates := if_neg hop.2
  have hcan : Filter.CanSelect ⟨op, none, invisible, explained⟩ m (.full m.numStates) :=
    ⟨StateSet.isEmpty_eq_false_iff.mpr hfull.nonempty, fun h => absurd h hop.1⟩
  refine (Filter.select_settles _ m _).bind (fun _ => hcan) fun selection _ hselection => ?_
  rw [hselection, hstates]
  refine (he _ hfull).bind (fun hdef s hs => ?_) fun v hdef hv => ?_
  · obtain ⟨y, hy⟩ := hdef z hz
    exact exists_value_of_filter hy ((hmem s).mp hs)
  -- The values of the operand in all states.
  have hvalue : ∀ s < m.numStates, m.valueOf e s = some ((m.valueOf e s).getD default) := by
    intro s hs
    obtain ⟨y, hy⟩ := hdef s ((hmem s).mpr hs)
    rw [hy]
    rfl
  have hlists : v.Lists m.numStates fun s => (m.valueOf e s).getD default :=
    ⟨hv.plain, fun s hs => hv.entry s ((hmem s).mpr hs) _ (hvalue s hs)⟩
  have hfilter := valueOf_filter_of_values op invisible explained hvalue
  refine (hreduce hpos _ _ v _ rfl hstates hlists hvalue).bind (fun hdef => ?_) fun reduced _ hreduced => ?_
  · obtain ⟨y, hy⟩ := hdef z hz
    rw [hfilter, Option.bind_eq_some_iff] at hy
    obtain ⟨x, hx, -⟩ := hy
    exact ⟨x, Model.toOption_eq_some.mp hx⟩
  · obtain ⟨x, hx, htype, hsingle⟩ := hreduced
    refine record_shows hn hd hsingle fun s => ?_
    rw [hfilter, hx, ← htype]
    exact Value.coerce?_type x

/-- The integers of a vector of integers. -/
theorem exists_ints {n : Nat} {w : Nat → Value} (h : ∀ s < n, (w s).type = .int) :
    ∃ k : Nat → Int64, ∀ s < n, w s = .int (k s) := by
  refine ⟨fun s => (w s).int?.getD 0, fun s hs => ?_⟩
  have := h s hs
  cases hw : w s with
  | int k =>
    show Value.int k = .int ((w s).int?.getD 0)
    rw [hw]
    rfl
  | bool b =>
    rw [hw] at this
    cases this
  | double x =>
    rw [hw] at this
    cases this

/-- A reduction of truth values: `combine` is what the interpreter makes of them. -/
theorem reduces_bools {op : FilterOp} (combine : List Bool → Value) (hpos : 0 < m.numStates) (settings : Settings)
    (e : Expr) (htype : ∀ bs, (combine bs).type = op.resultType e.type)
    (hcombine : ∀ vs, Model.combineAll op vs = (Model.liftEval (vs.mapM Value.expectBool)).map combine)
    (hreduce : ∀ (f : Filter) (s : Selection) (v : StateVector), f.op = op → s.states = .full m.numStates →
      v.isFrontier = false → Settles (f.reduce settings m s v) (∃ a, v.satisfaction = .ok a)
        fun r => ∃ a, v.satisfaction = .ok a ∧
          Filter.IsSingle m.numStates (combine ((List.range m.numStates).map a.contains)) r) :
    ReducesLike settings m op e := by
  intro f s v w hf hs hv _
  have hok : ∀ bs, ((List.range m.numStates).map w).mapM Value.expectBool = .ok bs →
      Model.combineAll op ((List.range m.numStates).map w) = .ok (combine bs) := by
    intro bs hbs
    rw [hcombine, hbs]
    rfl
  refine (hreduce f s v hf hs hv.plain.2).imp ?_ fun r hS hr => ?_
  · rw [hv.expectBool hpos]
    constructor
    · rintro ⟨bs, hbs⟩
      exact ⟨_, hok bs hbs⟩
    · rintro ⟨x, hx⟩
      rw [hcombine] at hx
      cases hmap : ((List.range m.numStates).map w).mapM Value.expectBool with
      | error e =>
        rw [hmap] at hx
        cases hx
      | ok bs => exact ⟨bs, rfl⟩
  · obtain ⟨a, ha, hsingle⟩ := hr
    exact ⟨_, hok _ (hv.bools ha), htype _, hsingle⟩

theorem reduces_forAll (hn : m.numStates < stateLimit) (hpos : 0 < m.numStates) (settings : Settings)
    (e : Expr) : ReducesLike settings m .forAll e := by
  refine reduces_bools (fun bs => .bool (bs.all id)) hpos settings e (fun _ => rfl) (fun vs => ?_)
    fun f s v hf hs hv => ?_
  · show (do return Value.bool ((← Model.liftEval (vs.mapM Value.expectBool)).all id)) = _
    cases Model.liftEval (vs.mapM Value.expectBool) <;> rfl
  · have hreduce : f.reduce settings m s v = Filter.reduceForAll m s v := by
      unfold Filter.reduce
      rw [hf]
    rw [hreduce]
    refine (Filter.reduceForAll_settles m s v hv).imp Iff.rfl fun r _ hr => ?_
    obtain ⟨a, ha, hsingle⟩ := hr
    have hall : s.states.subset a = ((List.range m.numStates).map a.contains).all id := by
      rw [hs, Bool.eq_iff_iff, StateSet.subset_iff, List.all_map, List.all_eq_true]
      refine forall_congr' fun z => ?_
      rw [StateSet.mem_full_of_lt hn, List.mem_range]
      refine forall_congr' fun hz => ?_
      show z ∈ a ↔ a.contains z = true
      rw [StateSet.contains_iff, StateSet.index_of_lt (Nat.lt_trans hz hn)]
    exact ⟨a, ha, hall ▸ hsingle⟩

theorem reduces_thereIs (hn : m.numStates < stateLimit) (hpos : 0 < m.numStates) (settings : Settings)
    (e : Expr) : ReducesLike settings m .thereIs e := by
  refine reduces_bools (fun bs => .bool (bs.any id)) hpos settings e (fun _ => rfl) (fun vs => ?_)
    fun f s v hf hs _ => ?_
  · show (do return Value.bool ((← Model.liftEval (vs.mapM Value.expectBool)).any id)) = _
    cases Model.liftEval (vs.mapM Value.expectBool) <;> rfl
  · have hreduce : f.reduce settings m s v = Filter.reduceExists m s v := by
      unfold Filter.reduce
      rw [hf]
    rw [hreduce]
    refine (Filter.reduceExists_settles m s v).imp Iff.rfl fun r _ hr => ?_
    obtain ⟨a, ha, hsingle⟩ := hr
    rw [hs, toList_full hn] at hsingle
    refine ⟨a, ha, ?_⟩
    rw [List.any_map]
    exact hsingle

theorem reduces_count (hn : m.numStates < stateLimit) (hpos : 0 < m.numStates) (settings : Settings)
    (e : Expr) : ReducesLike settings m .count e := by
  refine reduces_bools (fun bs => .int (Int64.ofNat (bs.countP id))) hpos settings e (fun _ => rfl)
    (fun vs => ?_) fun f s v hf hs _ => ?_
  · show (do return Value.int (Int64.ofNat ((← Model.liftEval (vs.mapM Value.expectBool)).countP id))) = _
    cases Model.liftEval (vs.mapM Value.expectBool) <;> rfl
  · have hcount : ∀ a, v.satisfaction = .ok a → (v.countOver s.states).map (fun k => Value.int (Int64.ofNat k)) =
        .ok (.int (Int64.ofNat (((List.range m.numStates).map a.contains).countP id))) := by
      intro a ha
      unfold StateVector.countOver
      rw [ha, hs, toList_full hn, List.countP_map]
      rfl
    unfold Filter.reduce
    rw [hf]
    refine (Filter.reduceSingle_settles m _ _ _).imp ?_ fun r _ hr => ?_
    · constructor
      · rintro ⟨x, hx⟩
        obtain ⟨k, hk, -⟩ := Yields.map_eq_ok.mp hx
        obtain ⟨a, ha, -⟩ := Yields.bind_eq_ok.mp hk
        exact ⟨a, ha⟩
      · rintro ⟨a, ha⟩
        exact ⟨_, hcount a ha⟩
    · obtain ⟨x, hx, hsingle⟩ := hr
      obtain ⟨k, hk, -⟩ := Yields.map_eq_ok.mp hx
      obtain ⟨a, ha, -⟩ := Yields.bind_eq_ok.mp hk
      rw [hcount a ha] at hx
      cases hx
      exact ⟨a, ha, hsingle⟩

/-- A reduction of integers: `x` is what the interpreter makes of them. -/
theorem reduces_ints {op : FilterOp} {e : Expr} (settings : Settings) (he : e.type = .int)
    (hop : op.resultType .int = .int)
    (hreduce : ∀ (f : Filter) (s : Selection) (v : StateVector) (w : Nat → Value) (k : Nat → Int64), f.op = op →
      s.states = .full m.numStates → v.Lists m.numStates w → (∀ s < m.numStates, w s = .int (k s)) →
      (∀ s < m.numStates, m.valueIn e s = .ok (.int (k s))) →
      ∃ x, Model.combineAll op ((List.range m.numStates).map w) = .ok (.int x) ∧
        Settles (f.reduce settings m s v) True (Filter.IsSingle m.numStates (.int x))) :
    ReducesLike settings m op e := by
  intro f s v w hf hs hv hvalue
  -- Values of the static type of integers are integers.
  obtain ⟨k, hk⟩ := exists_ints fun s hs => (Model.type_of_valueOf (hvalue s hs)).trans he
  obtain ⟨x, hx, hsettles⟩ := hreduce f s v w k hf hs hv hk fun s hs =>
    Model.valueOf_eq_some.mp (hk s hs ▸ hvalue s hs)
  refine hsettles.imp (iff_of_true trivial ⟨_, hx⟩) fun r _ hr => ⟨_, hx, ?_, hr⟩
  rw [he, hop]
  rfl

theorem reduces_extreme {op : FilterOp} {e : Expr} (combine : Value → Value → Except EvalError Value)
    (pick : Int64 → Int64 → Int64) (kind : String) (hn : m.numStates < stateLimit) (hpos : 0 < m.numStates)
    (settings : Settings) (he : e.type = .int) (hop : op.resultType .int = .int)
    (hcombine : ∀ x y, combine (.int x) (.int y) = .ok (.int (pick x y)))
    (hall : ∀ vs, Model.combineAll op vs = Model.liftEval (vs.mapM Value.expectInt) >>= Model.extremeInt pick)
    (hreduce : ∀ (f : Filter) (s : Selection) (v : StateVector), f.op = op →
      f.reduce settings m s v = Filter.reduceExtreme settings m s v kind (v.foldOver combine s.states)) :
    ReducesLike settings m op e := by
  refine reduces_ints settings he hop fun f s v w k hf hs hv hk _ => ?_
  obtain ⟨x, hx, hextreme⟩ := hv.foldOver hn hpos hk hcombine
  refine ⟨x, ?_, ?_⟩
  · rw [hall, Lists.ints hk]
    exact hextreme
  · rw [hreduce f s v hf, hs]
    have hclose : ∀ y, v.foldOver combine (.full m.numStates) = .ok y →
        ∃ found, v.closeStates y settings.tolerance (some s.states) = .ok found := by
      intro y hy
      rw [hx] at hy
      cases hy
      rw [hs]
      exact hv.closeStates hn hk x _
    refine (Filter.reduceExtreme_settles m settings s v kind hclose).imp (iff_of_true ⟨_, hx⟩ trivial)
      fun r _ hr => ?_
    obtain ⟨y, hy, hsingle⟩ := hr
    rw [hx] at hy
    cases hy
    exact hsingle

theorem reduces_min (hn : m.numStates < stateLimit) (hpos : 0 < m.numStates) (settings : Settings) {e : Expr}
    (he : e.type = .int) : ReducesLike settings m .min e := by
  refine reduces_extreme lesserValue min "Minimum" hn hpos settings he rfl
    (fun _ _ => rfl) (fun _ => rfl) fun f s v hf => ?_
  unfold Filter.reduce
  rw [hf]
  rfl

theorem reduces_max (hn : m.numStates < stateLimit) (hpos : 0 < m.numStates) (settings : Settings) {e : Expr}
    (he : e.type = .int) : ReducesLike settings m .max e := by
  refine reduces_extreme greaterValue max "Maximum" hn hpos settings he rfl
    (fun _ _ => rfl) (fun _ => rfl) fun f s v hf => ?_
  unfold Filter.reduce
  rw [hf]
  rfl

end Checker

/-- If an expression is an integer in every state, the sums of its values in the first states fit into 64
bits. -/
def Model.SumsFit (m : Model) (e : Expr) : Prop :=
  ∀ k : Nat → Int64, (∀ s < m.numStates, m.valueIn e s = .ok (.int (k s))) → ∀ j ≤ m.numStates,
    -9223372036854775808 ≤ partialSum k j ∧ partialSum k j ≤ 9223372036854775807

namespace Checker

variable {c : Checker} {m : Model} {entered : Entered}

theorem reduces_sum (hn : m.numStates < stateLimit) (hpos : 0 < m.numStates) (settings : Settings) {e : Expr}
    (he : e.type = .int) (hfit : m.SumsFit e) : ReducesLike settings m .sum e := by
  refine reduces_ints settings he rfl fun f s v w k hf hs hv hk hvalue => ?_
  have hsum := hv.sumOver hn hpos hk (hfit k hvalue)
  refine ⟨((List.range m.numStates).map k).foldl (· + ·) 0, ?_, ?_⟩
  · show (do return Value.int ((← Model.liftEval (((List.range m.numStates).map w).mapM
      Value.expectInt)).foldl (· + ·) 0)) = _
    rw [Lists.ints hk]
    rfl
  · unfold Filter.reduce
    rw [hf]
    dsimp only
    rw [hs, hsum]
    refine (Filter.reduceSingle_settles m _ _ _).imp (iff_of_true ⟨_, rfl⟩ trivial) fun r _ hr => ?_
    obtain ⟨x, hx, hsingle⟩ := hr
    cases hx
    exact hsingle

end Checker

/-! ## The expressions of the interpreter -/

/-- The expressions on which checker and interpreter are compared: everything that the interpreter knows,
with functions called as the checker accepts them and with filters of integers where they are numeric. -/
inductive Model.Interprets (m : Model) : Expr → Prop where
  | literal (v : Value) : Interprets m (.literal v)
  | var (name : String) (index : UInt64) (t : ValueType) : Interprets m (.var name index t)
  | label (name : String) : Interprets m (.label name)
  | ite {c t e : Expr} (hc : Interprets m c) (ht : Interprets m t) (he : Interprets m e) :
      Interprets m (.ite c t e)
  | binary (op : BinaryOp) {l r : Expr} (hl : Interprets m l) (hr : Interprets m r) :
      Interprets m (.binary op l r)
  | unary (op : UnaryOp) {e : Expr} (he : Interprets m e) : Interprets m (.unary op e)
  | call {f : Function} {args : List Expr} (hf : f.accepts args.length = true)
      (hargs : ∀ a ∈ args, Interprets m a) : Interprets m (.call f args)
  | quantifier {op : FilterOp} (hop : op = .forAll ∨ op = .thereIs ∨ op = .count) {e : Expr}
      (he : Interprets m e) (invisible explained : Bool) : Interprets m (.filter op e none invisible explained)
  | extreme {op : FilterOp} (hop : op = .min ∨ op = .max) {e : Expr} (he : Interprets m e)
      (htype : e.type = .int) (invisible explained : Bool) : Interprets m (.filter op e none invisible explained)
  | sum {e : Expr} (he : Interprets m e) (htype : e.type = .int) (hfit : m.SumsFit e)
      (invisible explained : Bool) : Interprets m (.filter .sum e none invisible explained)

namespace Checker

variable {c : Checker} {m : Model} {entered : Entered}

theorem literal_agrees (hn : m.numStates < stateLimit) (v : Value) :
    HasValues c m entered (.literal v) (m.valueOf (.literal v)) := by
  rw [Model.valueOf_literal]
  intro d hd
  simp only [evalWith_literal]
  exact Computes.constant hn v d hd

/-- A label that is attached or built in holds where the interpreter says so; any other is unknown to both. -/
theorem label_agrees (hn : m.numStates < stateLimit) (hdef : c.definitions = .empty) (name : String) :
    HasValues c m entered (.label name) (m.valueOf (.label name)) := by
  have hvalue : m.valueOf (.label name) = fun s => (m.labelIn name s).toOption.bind (·.coerce? .bool) :=
    funext fun s => Model.valueOf_label m name s
  rw [hvalue]
  unfold HasValues Model.labelIn
  cases hm : m.labelStates? name with
  | some states =>
    simp only [evalWith_attached .whereOpen c m entered _ hm]
    exact ofSet_computes states fun _ _ => rfl
  | none =>
    have hlabel : c.definitions.label? name = none := hdef ▸ rfl
    simp only [evalWith_builtin .whereOpen c m entered _ hm hlabel]
    unfold builtinLabel
    by_cases hdeadlock : name = Expr.deadlockName
    · subst hdeadlock
      exact ofSet_computes _ fun s hs => contains_ofList_filter hn hs
    · rw [if_neg hdeadlock]
      by_cases hinit : name = Expr.initName
      · subst hinit
        exact ofSet_computes _ fun s hs => contains_ofList_filter hn hs
      · simp only [if_neg hinit, if_neg hdeadlock]
        exact Computes.fail _

/-- Without definitions an expression has the values that the interpreter gives it. -/
theorem evalWith_agrees (hn : m.numStates < stateLimit) (hdef : c.definitions = .empty) {e : Expr}
    (he : m.Interprets e) : HasValues c m entered e (m.valueOf e) := by
  induction he with
  | literal v => exact literal_agrees hn v
  | var name index t =>
    rw [Model.valueOf_var]
    intro d hd
    simp only [evalWith_var]
    exact lookup_computes m hn name t _ d hd
  | label name => exact label_agrees hn hdef name
  | ite hc ht he ihc iht ihe =>
    rw [Model.valueOf_ite]
    exact ite_hasValues hn ihc iht ihe
  | @binary op l r hl hr ihl ihr =>
    cases hop : op.isLazy with
    | true =>
      rw [Model.valueOf_lazy m hop]
      exact lazy_hasValues hn hop ihl ihr
    | false =>
      rw [Model.valueOf_strict m hop]
      exact strict_hasValues hn hop ihl ihr
  | @unary op e he ih =>
    by_cases hop : op = .parenth
    · subst hop
      intro d hd
      simp only [evalWith_parenth]
      exact (ih.congr fun s _ => (Model.valueOf_parenth e s).symm) d hd
    · rw [Model.valueOf_unary]
      exact unary_hasValues hn hop ih
  | call hf hargs ih =>
    rcases Function.accepts_cases hf with ⟨hkind, a, b, rest, rfl⟩ | ⟨hkind, a, rfl⟩ | ⟨hkind, a, b, rfl⟩
    · rw [Model.valueOf_extremum hkind]
      exact extremum_hasValues hn hkind ih
    · rw [Model.valueOf_rounding hkind]
      exact rounding_hasValues hn hkind (ih a List.mem_cons_self)
    · rw [Model.valueOf_dyadic hkind]
      exact dyadic_hasValues hn hkind (ih a List.mem_cons_self) (ih b (by simp))
  | quantifier hop he invisible explained ih =>
    rcases hop with rfl | rfl | rfl
    · exact selectorless_hasValues hn (by decide) ih fun hpos => reduces_forAll hn hpos _ _
    · exact selectorless_hasValues hn (by decide) ih fun hpos => reduces_thereIs hn hpos _ _
    · exact selectorless_hasValues hn (by decide) ih fun hpos => reduces_count hn hpos _ _
  | extreme hop he htype invisible explained ih =>
    rcases hop with rfl | rfl
    · exact selectorless_hasValues hn (by decide) ih fun hpos => reduces_min hn hpos _ htype
    · exact selectorless_hasValues hn (by decide) ih fun hpos => reduces_max hn hpos _ htype
  | sum he htype hfit invisible explained ih =>
    exact selectorless_hasValues hn (by decide) ih fun hpos => reduces_sum hn hpos _ htype hfit

/-- A checker without definitions agrees with the interpreter. It succeeds over a domain if and only if the
interpreter succeeds in every state of the domain, and then the entries of its vector in the domain are the
values of the interpreter. -/
theorem checkExpression_agrees (c : Checker) (m : Model) (hn : m.numStates < stateLimit)
    (hdef : c.definitions = .empty) (d : StateSet) (hd : d.IsDomain m.numStates) (e : Expr) (he : m.Interprets e)
    (r : Run) :
    ((∃ v, outcome (c.checkExpression m e (some d)) r = .ok v) ↔ ∀ s ∈ d, ∃ y, m.valueIn e s = .ok y) ∧
      ∀ v, outcome (c.checkExpression m e (some d)) r = .ok v →
        ∀ s ∈ d, ∃ x y, v.valueAt s = .ok x ∧ m.valueIn e s = .ok y ∧ x.same y = true := by
  have hcomp : ComputesOn m.numStates d (c.checkExpression m e (some d)) (m.valueOf e) :=
    Settles.next (fun r => ⟨(), outcome_restart _ r⟩) fun _ => evalWith_agrees hn hdef he d hd
  have hdefined : (m.valueOf e).Defined d ↔ ∀ s ∈ d, ∃ y, m.valueIn e s = .ok y :=
    forall₂_congr fun s _ => exists_congr fun y => Model.valueOf_eq_some
  constructor
  · rw [← hdefined]
    constructor
    · rintro ⟨v, hv⟩
      exact (hcomp.sound r v hv).1
    · intro h
      obtain ⟨v, hv, -⟩ := hcomp.succeeds h r
      exact ⟨v, hv⟩
  · intro v hv s hs
    obtain ⟨hvalues, hshows⟩ := hcomp.sound r v hv
    obtain ⟨y, hy, hval⟩ := hshows.entry_of_defined hvalues hs
    exact ⟨y, y, hval, Model.valueOf_eq_some.mp hy, Value.same_self y⟩

end Checker

/-! ## A sum over two states -/

/-- The value of a variable and the sum of its values. -/
def Expr.withSum : Expr := .binary .plus (.var "x" 0 .int) (.filter .sum (.var "x" 0 .int) none false true)

theorem Model.interprets_withSum : twoStates.Interprets .withSum := by
  refine .binary _ (.var _ _ _) (.sum (.var _ _ _) rfl (fun k hk j hj => ?_) _ _)
  have hzero : k 0 = 0 := (Value.int.inj (Except.ok.inj (hk 0 (by decide)))).symm
  have hone : k 1 = 1 := (Value.int.inj (Except.ok.inj (hk 1 (by decide)))).symm
  have hcases : j = 0 ∨ j = 1 ∨ j = 2 := by
    change j ≤ 2 at hj
    omega
  rcases hcases with rfl | rfl | rfl <;> simp [StateVector.partialSum, List.range_succ, hzero, hone]

theorem Checker.checkExpression_agrees_twoStates :
    (∃ v, outcome (bare.checkExpression .twoStates .withSum (some (.full 2))) .start = .ok v) ∧
      ∀ v, outcome (bare.checkExpression .twoStates .withSum (some (.full 2))) .start = .ok v →
        ∀ s ∈ StateSet.full 2, ∃ x y, v.valueAt s = .ok x ∧ Model.twoStates.valueIn .withSum s = .ok y ∧
          x.same y = true := by
  have h := checkExpression_agrees bare .twoStates (by decide) rfl (.full 2) Model.isDomain_twoStates .withSum
    Model.interprets_withSum .start
  refine ⟨h.1.mpr fun s hs => ?_, h.2⟩
  match s, StateSet.mem_full.mp hs with
  | 0, _ => exact ⟨.int 1, rfl⟩
  | 1, _ => exact ⟨.int 2, rfl⟩

end Statewise
