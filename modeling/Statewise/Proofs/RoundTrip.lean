import Statewise.Proofs.Widening
import Statewise.Proofs.Within
import Statewise.Expr.Stored

/-!
# Stored expressions come back

JSON has no infinities and no NaN. An expression whose numbers are all finite is read back from what is stored
of it, node for node; an infinity is stored as null, and then nothing is read. What is read from any value at
all has finite numbers, since integers of 64 bits have finite doubles, and so it comes back when it is stored
again.

Members that may be absent need no care after the first reading: leaving one out is the same as writing its
default, and storing writes all of them.
-/

namespace Statewise

/-! ## Keywords -/

@[simp] theorem BinaryOp.ofKeyword?_keyword (op : BinaryOp) : ofKeyword? op.keyword = some op := by cases op <;> rfl

@[simp] theorem UnaryOp.ofKeyword?_keyword (op : UnaryOp) : ofKeyword? op.keyword = some op := by cases op <;> rfl

@[simp] theorem Function.ofName?_name (f : Function) : ofName? f.name = some f := by cases f <;> rfl

@[simp] theorem FilterOp.ofKeyword?_keyword (op : FilterOp) : ofKeyword? op.keyword = some op := by cases op <;> rfl

@[simp] theorem PathOp.ofKeyword?_keyword (op : PathOp) : ofKeyword? op.keyword = some op := by cases op <;> rfl

@[simp] theorem Comparison.ofKeyword?_keyword (c : Comparison) : ofKeyword? c.keyword = some c := by cases c <;> rfl

@[simp] theorem ValueType.ofName?_name (t : ValueType) : ofName? t.name = some t := by cases t <;> rfl

/-! ## Numbers -/

namespace Json

theorem ofFloat_of_isFinite {x : Float} (h : x.isFinite = true) : ofFloat x = .double x := if_pos h

theorem isReadable_ofFloat (x : Float) : (ofFloat x).isReadable = true := by
  unfold ofFloat
  split
  · next h => simpa [isReadable] using h
  · simp [isReadable]

theorem isWord_toInt (n : Int64) : isWord n.toInt = true := by
  have := n.toInt_bounds
  simp only [isWord, Bool.and_eq_true, decide_eq_true_eq]
  omega

theorem isWord_toNat (k : UInt64) : isWord k.toNat = true := by
  have := k.toNat_lt
  simp only [isWord, Bool.and_eq_true, decide_eq_true_eq]
  omega

@[simp] theorem uint64?_toNat (k : UInt64) : uint64? (.integer k.toNat) = some k := by
  have := k.toNat_lt
  have hword : 0 ≤ (k.toNat : Int) ∧ (k.toNat : Int) ≤ 18446744073709551615 := by omega
  simp only [uint64?, if_pos hword, Int.toNat_natCast, UInt64.ofNat_toNat]

theorem isFinite_ofInt {n : Int} (h : isWord n = true) : (Float.ofInt n).isFinite = true := by
  simp only [isWord, Bool.and_eq_true, decide_eq_true_eq] at h
  exact Widening.isFinite_ofInt (by omega)

theorem isFinite_of_float? {j : Json} {x : Float} (hj : j.isReadable = true) (h : j.float? = some x) :
    x.isFinite = true := by
  cases j with
  | integer n =>
    cases h
    exact isFinite_ofInt hj
  | double y =>
    cases h
    exact hj
  | null | bool | string | array | object | unreadable => cases h

theorem allReadable_iff {vs : List Json} : allReadable vs = true ↔ ∀ v ∈ vs, v.isReadable = true := by
  induction vs with
  | nil => simp [allReadable]
  | cons v vs ih => simp [allReadable, ih]

theorem membersReadable_iff {ms : List (String × Json)} :
    membersReadable ms = true ↔ ∀ m ∈ ms, m.2.isReadable = true := by
  induction ms with
  | nil => simp [membersReadable]
  | cons m ms ih => simp [membersReadable, ih]

end Json

/-! ## Records -/

namespace Json.Alternatives

variable {α : Type} {u : Alternatives} {json : α → Json} {kind : String}

theorem ofObject?_members {ms ms' : List (String × α)} (h : u.ofObject? json ms = some (kind, ms')) : ms' = ms := by
  unfold ofObject? at h
  split at h
  · obtain ⟨a, -, ha⟩ := Option.map_eq_some_iff.mp h
    exact (Prod.mk.inj ha).2.symm
  · cases h

theorem ofArray?_members {vs : List α} {ms : List (String × α)} (h : u.ofArray? json vs = some (kind, ms)) :
    ∀ m ∈ ms, m.2 ∈ vs := by
  cases vs with
  | nil => cases h
  | cons v vs =>
    obtain ⟨a, -, ha⟩ := Option.bind_eq_some_iff.mp h
    split at ha
    · cases ha
      exact fun m hm => List.mem_cons_of_mem _ (List.of_mem_zip hm).2
    · cases ha

theorem read?_isReadable {j : Json} {ms : Members} (hj : j.isReadable = true) (h : u.read? j = some (kind, ms)) :
    ∀ m ∈ ms, m.2.isReadable = true := by
  cases j with
  | object ms' =>
    cases ofObject?_members h
    exact membersReadable_iff.mp hj
  | array vs => exact fun m hm => allReadable_iff.mp hj _ (ofArray?_members h m hm)
  | null | bool | integer | double | string | unreadable => cases h

end Json.Alternatives

namespace Members

variable {before after : Members} {name n : String} {v : Json}

theorem mem_of_required? {ms : Members} (h : ms.required? name = some v) : ∃ m ∈ ms, m.2 = v := by
  unfold required? at h
  split at h
  · next n w hw =>
    cases h
    exact ⟨(n, v), List.mem_of_mem_filter (hw ▸ List.mem_singleton_self _), rfl⟩
  · cases h

theorem required?_insert (hne : name ≠ n) :
    required? (before ++ (name, v) :: after) n = required? (before ++ after) n := by
  simp [required?, hne]

/-- A member that reads as what stands for an absent one may as well be absent. -/
theorem getD?_insert {α : Type} {absent : α} {read : Json → Option α} (hnew : ∀ m ∈ before ++ after, m.1 ≠ name)
    (hread : name = n → read v = some absent) :
    getD? (before ++ (name, v) :: after) n absent read = getD? (before ++ after) n absent read := by
  by_cases hn : name = n
  · subst hn
    have hnone : (before ++ after).filter (·.1 == name) = [] :=
      List.filter_eq_nil_iff.mpr fun m hm => by simpa using hnew m hm
    obtain ⟨hbefore, hafter⟩ := List.append_eq_nil_iff.mp (List.filter_append .. ▸ hnone)
    simp [getD?, hbefore, hafter, hread]
  · simp [getD?, hn]

end Members

/-! ## Values, measures and queries -/

namespace Value

/-- The value is no infinity and not NaN. -/
def IsFinite : Value → Prop
  | double x => x.isFinite = true
  | bool _ | int _ => True

theorem ofJson?_toJson {v : Value} (h : v.IsFinite) : ofJson? v.toJson = some v := by
  cases v with
  | bool b => rfl
  | int n => simp [toJson, ofJson?]
  | double x => rw [toJson, Json.ofFloat_of_isFinite h, ofJson?]

theorem isReadable_toJson (v : Value) : v.toJson.isReadable = true := by
  cases v with
  | bool b => rfl
  | int n => exact Json.isWord_toInt n
  | double x => exact Json.isReadable_ofFloat x

theorem isFinite_of_ofJson? {j : Json} {v : Value} (hj : j.isReadable = true) (h : ofJson? j = some v) :
    v.IsFinite := by
  cases j with
  | bool b =>
    cases h
    trivial
  | integer n =>
    simp only [ofJson?] at h
    split at h
    · cases h
      trivial
    · cases h
      exact Json.isFinite_ofInt hj
  | double x =>
    cases h
    exact hj
  | null | string | array | object | unreadable => cases h

end Value

namespace Measure

theorem ofJson?_toJson (m : Measure) : ofJson? m.toJson = some m := by
  cases m <;> simp [toJson, ofJson?, stored, Json.Alternatives.read?, Json.Alternatives.ofObject?,
    Json.Alternatives.find?, Members.required?]

theorem isReadable_toJson (m : Measure) : m.toJson.isReadable = true := by
  cases m <;> simp [toJson, Json.isReadable, Json.membersReadable, Json.isWord_toNat]

end Measure

namespace Query

/-- The bound, if there is one, is no infinity and not NaN. -/
def IsFinite : Query → Prop
  | bound _ threshold => threshold.isFinite = true
  | value | min | max => True

theorem ofJson?_toJson {q : Query} (h : q.IsFinite) : ofJson? q.toJson = some q := by
  cases q with
  | bound c x =>
    rw [toJson, Json.ofFloat_of_isFinite h]
    simp [ofJson?, stored, Json.Alternatives.read?, Json.Alternatives.ofObject?, Json.Alternatives.find?,
      Members.required?, Json.keyword?, Json.float?]
  | value | min | max =>
    simp [toJson, ofJson?, stored, Json.Alternatives.read?, Json.Alternatives.ofObject?, Json.Alternatives.find?]

theorem isReadable_toJson (q : Query) : q.toJson.isReadable = true := by
  cases q <;> simp [toJson, Json.isReadable, Json.membersReadable, Json.isReadable_ofFloat]

theorem isFinite_of_ofJson? {j : Json} {q : Query} (hj : j.isReadable = true) (h : ofJson? j = some q) :
    q.IsFinite := by
  obtain ⟨⟨keyword, ms⟩, hread, h⟩ := Option.bind_eq_some_iff.mp h
  have hms := Json.Alternatives.read?_isReadable hj hread
  simp only at h
  split at h
  · cases h
    trivial
  · cases h
    trivial
  · cases h
    trivial
  · simp only [Option.bind_eq_bind, Option.bind_eq_some_iff] at h
    obtain ⟨_, -, _, -, c, -, v, hv, x, hx, h⟩ := h
    cases h
    obtain ⟨m, hm, rfl⟩ := Members.mem_of_required? hv
    exact Json.isFinite_of_float? (hms m hm) hx
  · cases h

end Query

namespace Expr

/-- The numbers that the expression itself names, apart from its subexpressions, are finite. -/
def NamesFinite : Expr → Prop
  | literal v => v.IsFinite
  | quant _ q _ => q.IsFinite
  | _ => True

/-! ## What is stored can be read -/

mutual

theorem isReadable_toJson : (e : Expr) → e.toJson.isReadable = true
  | ite c t e => by
    simp [toJson, Json.isReadable, Json.membersReadable, isReadable_toJson c, isReadable_toJson t, isReadable_toJson e]
  | binary _ l r => by
    simp [toJson, Json.isReadable, Json.membersReadable, isReadable_toJson l, isReadable_toJson r]
  | unary _ e => by simp [toJson, Json.isReadable, Json.membersReadable, isReadable_toJson e]
  | call _ args => by simp [toJson, Json.isReadable, Json.membersReadable, allReadable_listToJson args]
  | literal v => by simp [toJson, Json.isReadable, Json.membersReadable, v.isReadable_toJson]
  | constant .. | ident .. | observable .. | label _ | property .. => by
    simp [toJson, Json.isReadable, Json.membersReadable]
  | formula _ d _ => by simp [toJson, Json.isReadable, Json.membersReadable, isReadable_optionToJson d]
  | var _ i _ => by simp [toJson, Json.isReadable, Json.membersReadable, Json.isWord_toNat]
  | filter _ e s _ _ => by
    simp [toJson, Json.isReadable, Json.membersReadable, isReadable_toJson e, isReadable_optionToJson s]
  | quant m q e => by
    simp [toJson, Json.isReadable, Json.membersReadable, m.isReadable_toJson, q.isReadable_toJson, isReadable_toJson e]
  | path _ es b => by
    cases b <;>
      simp [toJson, Json.isReadable, Json.membersReadable, allReadable_listToJson es, Json.isWord_toNat]

theorem allReadable_listToJson : (es : List Expr) → Json.allReadable (listToJson es) = true
  | [] => rfl
  | e :: es => by simp [listToJson, Json.allReadable, isReadable_toJson e, allReadable_listToJson es]

theorem isReadable_optionToJson : (d : Option Expr) → (optionToJson d).isReadable = true
  | none => rfl
  | some e => isReadable_toJson e

end

theorem isTaggedByKeyword_toJson (e : Expr) : stored.isTaggedByKeyword e.toJson = true := by
  cases e <;> simp [toJson, Json.Alternatives.isTaggedByKeyword, stored, Json.string?]

theorem isNull_toJson (e : Expr) : e.toJson.isNull = false := by
  cases e <;> simp [toJson, Json.isNull]

theorem listToJson_eq (es : List Expr) : listToJson es = es.map toJson := by
  induction es with
  | nil => rfl
  | cons e es ih => simp [listToJson, ih]

/-! ## The parts of an object -/

@[simp] theorem json_part (j : Json) : (part j).json = j := by
  cases j <;> simp [part]

theorem partsOfList_eq (vs : List Json) : partsOfList vs = vs.map part := by
  induction vs with
  | nil => rfl
  | cons v vs ih => simp [partsOfList, ih]

theorem partsOfMembers_eq (ms : List (String × Json)) : partsOfMembers ms = ms.map fun m => (m.1, part m.2) := by
  induction ms with
  | nil => rfl
  | cons m ms ih => simp [partsOfMembers, ih]

theorem filter_partsOfMembers (ms : List (String × Json)) (name : String) :
    (partsOfMembers ms).filter (·.1 == name) = partsOfMembers (ms.filter (·.1 == name)) := by
  simp only [partsOfMembers_eq, List.filter_map]
  rfl

@[simp] theorem get?_partsOfMembers (ms : Members) (name : String) :
    Parts.get? (partsOfMembers ms) name = (ms.required? name).map part := by
  unfold Parts.get? Members.required?
  rw [filter_partsOfMembers]
  generalize ms.filter (·.1 == name) = found
  rcases found with _ | ⟨m, _ | ⟨m', ms'⟩⟩ <;> rfl

@[simp] theorem optional?_partsOfMembers {α : Type} (ms : Members) (name : String) (nullable : Bool) (absent : α)
    (read : Part → Option α) :
    Parts.optional? (partsOfMembers ms) name nullable absent read =
      ms.getD? name absent fun v => if nullable && v.isNull then some absent else read (part v) := by
  unfold Parts.optional? Members.getD?
  rw [filter_partsOfMembers]
  generalize ms.filter (·.1 == name) = found
  rcases found with _ | ⟨m, _ | ⟨m', ms'⟩⟩
  · rfl
  · simp [partsOfMembers]
  · rfl

theorem expr_part_object (ms : List (String × Json)) :
    (part (.object ms)).expr = (stored.ofObject? id ms).bind fun (kind, ms) => ofParts? kind (partsOfMembers ms) := by
  unfold part Json.Alternatives.ofObject?
  rw [filter_partsOfMembers]
  generalize ms.filter (·.1 == stored.tag) = found
  rcases found with _ | ⟨m, _ | ⟨m', ms'⟩⟩
  · rfl
  · cases h : stored.find? m.2 <;> simp [partsOfMembers, h]
  · rfl

/-- With the tag in front and nowhere else, an object stores what its kind makes of the parts. -/
theorem expr_part_tagged {kind : String} {a : Json.Alternative} {ms : Members}
    (ha : stored.find? (.string kind) = some a) (hms : ms.filter (·.1 == "kind") = []) :
    (part (.object (("kind", .string kind) :: ms))).expr =
      ofParts? a.keyword (partsOfMembers (("kind", .string kind) :: ms)) := by
  have htag : (("kind", Json.string kind) :: ms).filter (·.1 == stored.tag) = [("kind", .string kind)] := by
    rw [List.filter_cons_of_pos (by rfl)]
    exact congrArg _ hms
  rw [expr_part_object]
  unfold Json.Alternatives.ofObject?
  rw [htag]
  simp [ha]

/-! ## What is stored comes back -/

/-- The expression is read back wherever it is stored inside another one. -/
def ComesBack (e : Expr) : Prop := (part e.toJson).expr = some e

theorem exprs_part_listToJson {es : List Expr} (h : ∀ e ∈ es, e.ComesBack) :
    (part (.array (listToJson es))).exprs = some es := by
  unfold part
  rw [partsOfList_eq, listToJson_eq, List.map_map]
  induction es with
  | nil => rfl
  | cons e es ih =>
    have he : (part e.toJson).expr = some e := h e List.mem_cons_self
    have hes := ih fun a ha => h a (List.mem_cons_of_mem _ ha)
    simp only at hes
    simp [he, hes]

theorem expr_part_optionToJson {d : Option Expr} (h : ∀ e ∈ d.toList, e.ComesBack) :
    (if (optionToJson d).isNull then some none else (part (optionToJson d)).expr.map some) = some d := by
  cases d with
  | none => rfl
  | some e =>
    have he : (part e.toJson).expr = some e := h e (by simp)
    simp [optionToJson, isNull_toJson, he]

/-- One kind of expression after the other: every member that is written is the one that is looked for. -/
theorem comesBack_of_children {e : Expr} (hself : e.NamesFinite) (h : ∀ a ∈ e.children, a.ComesBack) :
    e.ComesBack := by
  unfold ComesBack
  cases e with
  | ite c t e =>
    have hc : (part c.toJson).expr = some c := h c (by simp [children])
    have ht : (part t.toJson).expr = some t := h t (by simp [children])
    have he : (part e.toJson).expr = some e := h e (by simp [children])
    rw [toJson, expr_part_tagged rfl rfl]
    simp [ofParts?, Parts.expr?, Members.required?, hc, ht, he]
  | binary op l r =>
    have hl : (part l.toJson).expr = some l := h l (by simp [children])
    have hr : (part r.toJson).expr = some r := h r (by simp [children])
    rw [toJson, expr_part_tagged rfl rfl]
    simp [ofParts?, Parts.keyword?, Parts.expr?, Members.required?, Json.keyword?, hl, hr]
  | unary op e =>
    have he : (part e.toJson).expr = some e := h e (by simp [children])
    rw [toJson, expr_part_tagged rfl rfl]
    simp [ofParts?, Parts.keyword?, Parts.expr?, Members.required?, Json.keyword?, he]
  | call f args =>
    have hargs : (part (.array (listToJson args))).exprs = some args := exprs_part_listToJson h
    rw [toJson, expr_part_tagged rfl rfl]
    simp [ofParts?, Parts.keyword?, Parts.exprs?, Members.required?, Json.keyword?, hargs]
  | literal v =>
    rw [toJson, expr_part_tagged rfl rfl]
    simp [ofParts?, Members.required?, Value.ofJson?_toJson hself]
  | constant n t | ident n t | observable n t | property n t =>
    rw [toJson, expr_part_tagged rfl rfl]
    simp [ofParts?, Parts.string?, Parts.type?, Parts.keyword?, Members.required?, Json.keyword?, Json.string?]
  | label n =>
    rw [toJson, expr_part_tagged rfl rfl]
    simp [ofParts?, Parts.string?, Members.required?, Json.string?]
  | formula n d t =>
    have hd := expr_part_optionToJson h
    rw [toJson, expr_part_tagged rfl rfl]
    simp [ofParts?, Parts.string?, Parts.type?, Parts.keyword?, Members.required?, Json.keyword?, Json.string?,
      Parts.optionalExpr?, Members.getD?, hd]
  | var n i t =>
    rw [toJson, expr_part_tagged rfl rfl]
    simp [ofParts?, Parts.string?, Parts.type?, Parts.keyword?, Members.required?, Json.keyword?, Json.string?]
  | filter op e s i x =>
    have he : (part e.toJson).expr = some e := h e (by simp [children])
    have hs := expr_part_optionToJson fun a ha => h a (List.mem_cons_of_mem _ ha)
    rw [toJson, expr_part_tagged rfl rfl]
    simp [ofParts?, Parts.keyword?, Parts.expr?, Members.required?, Json.keyword?, Parts.optionalExpr?, Members.getD?,
      Parts.flag?, Json.bool?, he, hs]
  | quant m q e =>
    have he : (part e.toJson).expr = some e := h e (by simp [children])
    rw [toJson, expr_part_tagged rfl rfl]
    simp [ofParts?, Parts.expr?, Members.required?, Measure.ofJson?_toJson, Query.ofJson?_toJson hself, he]
  | path op es b =>
    have hes : (part (.array (listToJson es))).exprs = some es := exprs_part_listToJson h
    cases b with
    | none =>
      rw [toJson, expr_part_tagged rfl rfl]
      simp [ofParts?, Parts.keyword?, Parts.exprs?, Members.required?, Json.keyword?, Members.getD?, Json.isNull, hes]
    | some k =>
      rw [toJson, expr_part_tagged rfl rfl]
      simp [ofParts?, Parts.keyword?, Parts.exprs?, Members.required?, Json.keyword?, Members.getD?, Json.isNull, hes]

theorem comesBack (e : Expr) (h : e.Throughout NamesFinite) : e.ComesBack :=
  comesBack_of_children h.self fun a ha => comesBack a (h.child ha)
termination_by sizeOf e
decreasing_by exact sizeOf_lt_of_mem_children ha

theorem ofJson?_toJson {e : Expr} (h : e.Throughout NamesFinite) : ofJson? e.toJson = some e := by
  have hwhole : (e.toJson.isReadable && stored.isTaggedByKeyword e.toJson) = true := by
    rw [isReadable_toJson, isTaggedByKeyword_toJson]
    rfl
  unfold ofJson?
  rw [if_pos hwhole]
  exact comesBack e h

/-! ## What is read has finite numbers -/

/-- Whatever a part is read as, its numbers are finite. -/
structure Part.IsFinite (p : Part) : Prop where
  json : p.json.isReadable = true
  expr : ∀ e, p.expr = some e → e.Throughout NamesFinite
  exprs : ∀ es, p.exprs = some es → AllThroughout NamesFinite es

namespace Parts

def AreFinite (ps : Parts) : Prop := ∀ m ∈ ps, m.2.IsFinite

namespace AreFinite

variable {ps : Parts} {name : String}

theorem get? (hps : ps.AreFinite) {p : Part} (h : ps.get? name = some p) : p.IsFinite := by
  unfold Parts.get? at h
  split at h
  · next n q hq =>
    cases h
    exact hps (n, p) (List.mem_of_mem_filter (hq ▸ List.mem_singleton_self _))
  · cases h

theorem expr? (hps : ps.AreFinite) {e : Expr} (h : ps.expr? name = some e) : e.Throughout NamesFinite := by
  obtain ⟨p, hp, he⟩ := Option.bind_eq_some_iff.mp h
  exact (hps.get? hp).expr e he

theorem exprs? (hps : ps.AreFinite) {es : List Expr} (h : ps.exprs? name = some es) :
    AllThroughout NamesFinite es := by
  obtain ⟨p, hp, he⟩ := Option.bind_eq_some_iff.mp h
  exact (hps.get? hp).exprs es he

theorem optionalExpr? (hps : ps.AreFinite) {d : Option Expr} (h : ps.optionalExpr? name = some d) :
    AllThroughout NamesFinite d.toList := by
  unfold Parts.optionalExpr? Parts.optional? at h
  split at h
  · cases h
    exact allThroughout_nil
  · next n p hp =>
    have hp : p.IsFinite := hps (n, p) (List.mem_of_mem_filter (hp ▸ List.mem_singleton_self _))
    split at h
    · cases h
      exact allThroughout_nil
    · obtain ⟨e, he, rfl⟩ := Option.map_eq_some_iff.mp h
      exact allThroughout_cons.mpr ⟨hp.expr e he, allThroughout_nil⟩
  · cases h

end AreFinite

end Parts

/-- One kind of expression after the other: what is made of finite parts is finite. -/
theorem ofParts?_throughout {kind : String} {ps : Parts} {e : Expr} (hps : ps.AreFinite)
    (h : ofParts? kind ps = some e) : e.Throughout NamesFinite := by
  unfold ofParts? at h
  split at h
  case h_16 => cases h
  all_goals simp only [Option.bind_eq_bind, Option.bind_eq_some_iff, Option.pure_def, Option.some.injEq] at h
  · obtain ⟨c, hc, t, ht, e, he, rfl⟩ := h
    refine throughout_iff.mpr ⟨trivial, ?_⟩
    simp [children, hps.expr? hc, hps.expr? ht, hps.expr? he]
  · obtain ⟨k, -, op, -, l, hl, r, hr, rfl⟩ := h
    refine throughout_iff.mpr ⟨trivial, ?_⟩
    simp [children, hps.expr? hl, hps.expr? hr]
  · obtain ⟨k, -, op, -, a, ha, rfl⟩ := h
    refine throughout_iff.mpr ⟨trivial, ?_⟩
    simp [children, hps.expr? ha]
  · obtain ⟨k, -, f, -, es, hes, rfl⟩ := h
    exact throughout_iff.mpr ⟨trivial, hps.exprs? hes⟩
  · obtain ⟨p, hp, v, hv, rfl⟩ := h
    exact throughout_iff.mpr ⟨Value.isFinite_of_ofJson? (hps.get? hp).json hv, allThroughout_nil⟩
  · obtain ⟨n, -, t, -, rfl⟩ := h
    exact throughout_iff.mpr ⟨trivial, allThroughout_nil⟩
  · obtain ⟨n, -, t, -, rfl⟩ := h
    exact throughout_iff.mpr ⟨trivial, allThroughout_nil⟩
  · obtain ⟨n, -, d, hd, t, -, rfl⟩ := h
    exact throughout_iff.mpr ⟨trivial, hps.optionalExpr? hd⟩
  · obtain ⟨n, -, p, -, i, -, t, -, rfl⟩ := h
    exact throughout_iff.mpr ⟨trivial, allThroughout_nil⟩
  · obtain ⟨n, -, t, -, rfl⟩ := h
    exact throughout_iff.mpr ⟨trivial, allThroughout_nil⟩
  · obtain ⟨n, -, rfl⟩ := h
    exact throughout_iff.mpr ⟨trivial, allThroughout_nil⟩
  · obtain ⟨n, -, t, -, rfl⟩ := h
    exact throughout_iff.mpr ⟨trivial, allThroughout_nil⟩
  · obtain ⟨k, -, op, -, a, ha, s, hs, i, -, x, -, rfl⟩ := h
    exact throughout_iff.mpr ⟨trivial, allThroughout_cons.mpr ⟨hps.expr? ha, hps.optionalExpr? hs⟩⟩
  · obtain ⟨p, -, m, -, p', hp', q, hq, a, ha, rfl⟩ := h
    refine throughout_iff.mpr ⟨Query.isFinite_of_ofJson? (hps.get? hp').json hq, ?_⟩
    simp [children, hps.expr? ha]
  · obtain ⟨k, -, op, -, es, hes, b, -, rfl⟩ := h
    exact throughout_iff.mpr ⟨trivial, hps.exprs? hes⟩

theorem allThroughout_of_mapM {ps : List Part} {es : List Expr} (hps : ∀ p ∈ ps, p.IsFinite)
    (h : ps.mapM Part.expr = some es) : AllThroughout NamesFinite es := by
  induction ps generalizing es with
  | nil =>
    cases h
    exact allThroughout_nil
  | cons p ps ih =>
    rw [List.mapM_cons] at h
    obtain ⟨e, he, h⟩ := Option.bind_eq_some_iff.mp h
    obtain ⟨es', hes, h⟩ := Option.bind_eq_some_iff.mp h
    cases h
    exact allThroughout_cons.mpr
      ⟨(hps p List.mem_cons_self).expr e he, ih (fun q hq => hps q (List.mem_cons_of_mem _ hq)) hes⟩

theorem isFinite_part_array {vs : List Json} (hvs : Json.allReadable vs = true)
    (h : ∀ p ∈ partsOfList vs, p.IsFinite) : (part (.array vs)).IsFinite := by
  unfold part
  refine ⟨hvs, fun e he => ?_, fun es hes => allThroughout_of_mapM h hes⟩
  obtain ⟨⟨kind, ps⟩, hps, he⟩ := Option.bind_eq_some_iff.mp he
  exact ofParts?_throughout (fun m hm => h _ (Json.Alternatives.ofArray?_members hps m hm)) he

theorem isFinite_part_object {ms : List (String × Json)} (hms : Json.membersReadable ms = true)
    (h : Parts.AreFinite (partsOfMembers ms)) : (part (.object ms)).IsFinite := by
  unfold part
  refine ⟨hms, fun e he => ?_, fun es hes => by cases hes⟩
  obtain ⟨⟨kind, ps⟩, hps, he⟩ := Option.bind_eq_some_iff.mp he
  cases Json.Alternatives.ofObject?_members hps
  exact ofParts?_throughout h he

mutual

theorem isFinite_part : (j : Json) → j.isReadable = true → (part j).IsFinite
  | .array vs, h => isFinite_part_array h (isFinite_partsOfList vs h)
  | .object ms, h => isFinite_part_object h (areFinite_partsOfMembers ms h)
  | .null, h | .bool _, h | .integer _, h | .double _, h | .string _, h | .unreadable, h =>
    ⟨h, fun _ he => by simp [part] at he, fun _ hes => by simp [part] at hes⟩

theorem isFinite_partsOfList : (vs : List Json) → Json.allReadable vs = true → ∀ p ∈ partsOfList vs, p.IsFinite
  | [], _ => fun _ hp => absurd hp List.not_mem_nil
  | v :: vs, h => by
    have h := Bool.and_eq_true_iff.mp h
    exact List.forall_mem_cons.mpr ⟨isFinite_part v h.1, isFinite_partsOfList vs h.2⟩

theorem areFinite_partsOfMembers :
    (ms : List (String × Json)) → Json.membersReadable ms = true → Parts.AreFinite (partsOfMembers ms)
  | [], _ => fun _ hp => absurd hp List.not_mem_nil
  | (_, v) :: ms, h => by
    have h := Bool.and_eq_true_iff.mp h
    exact List.forall_mem_cons.mpr ⟨isFinite_part v h.1, areFinite_partsOfMembers ms h.2⟩

end

theorem throughout_of_ofJson? {j : Json} {e : Expr} (h : ofJson? j = some e) : e.Throughout NamesFinite := by
  unfold ofJson? at h
  split at h
  · next hwhole => exact (isFinite_part j (Bool.and_eq_true_iff.mp hwhole).1).expr e h
  · cases h

/-! ## Members that are left out -/

/-- The members that may be left out, each with the value that stands for it. -/
def defaults : Members :=
  [("definition", .null), ("selector", .null), ("invisible", .bool false), ("explanation_enabled", .bool true),
    ("bound", .null)]

section

variable {before after : Members} {name : String} {v : Json}

/-- No kind asks for one of these members unless it may be absent, and then the default is what is read. -/
theorem ofParts?_insert_default {kind : String} (h : (name, v) ∈ defaults)
    (hnew : ∀ m ∈ before ++ after, m.1 ≠ name) :
    ofParts? kind (partsOfMembers (before ++ (name, v) :: after)) =
      ofParts? kind (partsOfMembers (before ++ after)) := by
  simp only [defaults, List.mem_cons, Prod.mk.injEq, List.not_mem_nil, or_false] at h
  simp only [ofParts?, Parts.expr?, Parts.exprs?, Parts.string?, Parts.keyword?, Parts.type?, Parts.optionalExpr?,
    Parts.flag?, get?_partsOfMembers, optional?_partsOfMembers]
  rcases h with ⟨rfl, rfl⟩ | ⟨rfl, rfl⟩ | ⟨rfl, rfl⟩ | ⟨rfl, rfl⟩ | ⟨rfl, rfl⟩
  · simp [Members.required?_insert, Members.getD?_insert hnew, Json.isNull]
  · simp [Members.required?_insert, Members.getD?_insert hnew, Json.isNull]
  · simp [Members.required?_insert, Members.getD?_insert hnew, Json.bool?]
  · simp [Members.required?_insert, Members.getD?_insert hnew, Json.bool?]
  · simp [Members.required?_insert, Members.getD?_insert hnew, Json.isNull]

theorem ofJson?_insert_default (h : (name, v) ∈ defaults) (hnew : ∀ m ∈ before ++ after, m.1 ≠ name) :
    ofJson? (.object (before ++ (name, v) :: after)) = ofJson? (.object (before ++ after)) := by
  have hdefault : v.isReadable = true ∧ (name != "kind") = true := by
    simp only [defaults, List.mem_cons, Prod.mk.injEq, List.not_mem_nil, or_false] at h
    rcases h with ⟨rfl, rfl⟩ | ⟨rfl, rfl⟩ | ⟨rfl, rfl⟩ | ⟨rfl, rfl⟩ | ⟨rfl, rfl⟩ <;> exact ⟨rfl, rfl⟩
  have hreadable : (Json.object (before ++ (name, v) :: after)).isReadable =
      (Json.object (before ++ after)).isReadable := by
    rw [Bool.eq_iff_iff]
    simp only [Json.isReadable, Json.membersReadable_iff, List.forall_mem_append, List.forall_mem_cons]
    simp [hdefault.1]
  have htagged : stored.isTaggedByKeyword (.object (before ++ (name, v) :: after)) =
      stored.isTaggedByKeyword (.object (before ++ after)) := by
    simp [Json.Alternatives.isTaggedByKeyword, stored, hdefault.2]
  have hfilter : (before ++ (name, v) :: after).filter (·.1 == stored.tag) =
      (before ++ after).filter (·.1 == stored.tag) := by
    have hne : name ≠ "kind" := bne_iff_ne.mp hdefault.2
    simp [stored, hne]
  have hexpr : (part (.object (before ++ (name, v) :: after))).expr = (part (.object (before ++ after))).expr := by
    rw [expr_part_object, expr_part_object]
    unfold Json.Alternatives.ofObject?
    rw [hfilter]
    split
    · next n tag htag => cases hfind : stored.find? tag <;> simp [ofParts?_insert_default h hnew, hfind]
    · rfl
  unfold ofJson?
  rw [hreadable, htagged, hexpr]

end

/-! ## Round trips -/

/-- The least of two more than a variable, over all states; the two is a double. -/
def leastSum : Expr :=
  filter .min (binary .plus (var "x" 0 .int) (literal (.double (.ofInt 2)))) none false true

/-- The members of `leastSum` that may not be left out. -/
def leastSumMembers : Members :=
  [("kind", .string "filter"), ("op", .string "min"),
    ("operand", .object
      [("kind", .string "binary"), ("op", .string "plus"),
        ("left", .object
          [("kind", .string "var"), ("name", .string "x"), ("index", .integer 0), ("ty", .string "int")]),
        ("right", .object [("kind", .string "literal"), ("value", .double (.ofInt 2))])])]

/-- Exactly the expressions with finite numbers are read back from what is stored of them. Whatever was read is
read again after it has been stored, also if members were left out, for which their defaults might as well have
been written. A double is stored as a number that is no integer, an integer as an integer, and each is read as
what it was. -/
theorem ofJson?_roundTrip :
    (∀ e : Expr, e.Throughout NamesFinite ↔ ofJson? e.toJson = some e) ∧
    (∀ (j : Json) (e : Expr), ofJson? j = some e → ofJson? e.toJson = some e) ∧
    (∀ (before after : Members) (name : String) (v : Json), (name, v) ∈ defaults →
      (∀ m ∈ before ++ after, m.1 ≠ name) →
      ofJson? (.object (before ++ (name, v) :: after)) = ofJson? (.object (before ++ after))) ∧
    (∀ x : Float, x.isFinite = true →
      (Value.double x).toJson = .double x ∧ Value.ofJson? (.double x) = some (.double x) ∧
      (∀ c, (Query.bound c x).toJson =
        .object [("query", .string "bound"), ("relop", .string c.keyword), ("bound", .double x)]) ∧
      (Json.double x).float? = some x) ∧
    (∀ n : Int64, (Value.int n).toJson = .integer n.toInt ∧ Value.ofJson? (.integer n.toInt) = some (.int n)) := by
  refine ⟨fun e => ⟨ofJson?_toJson, throughout_of_ofJson?⟩, fun j e h => ofJson?_toJson (throughout_of_ofJson? h),
    fun _ _ _ _ => ofJson?_insert_default, fun x hx => ?_, fun n => ?_⟩
  · have hdouble := Json.ofFloat_of_isFinite hx
    refine ⟨hdouble, rfl, fun c => ?_, rfl⟩
    rw [Query.toJson, hdouble]
  · exact ⟨rfl, Value.ofJson?_toJson (v := .int n) trivial⟩

theorem ofJson?_roundTrip_leastSum :
    (leastSum.Throughout NamesFinite ∧ ofJson? leastSum.toJson = some leastSum) ∧
    (ofJson? (.object leastSumMembers) = some leastSum ∧ ofJson? leastSum.toJson = some leastSum) ∧
    (("selector", Json.null) ∈ defaults ∧ (∀ m ∈ leastSumMembers ++ [], m.1 ≠ "selector") ∧
      ofJson? (.object (leastSumMembers ++ [("selector", .null)])) = some leastSum) ∧
    ((Float.ofInt 2).isFinite = true ∧ (Value.double (.ofInt 2)).toJson = .double (.ofInt 2)) := by
  obtain ⟨hback, hagain, hdefault, hdouble, -⟩ := ofJson?_roundTrip
  have htwo : (Float.ofInt 2).isFinite = true := Widening.isFinite_ofInt (by decide)
  have hfinite : leastSum.Throughout NamesFinite := by
    simp [leastSum, throughout_iff, children, NamesFinite, Value.IsFinite, htwo]
  have hread : ofJson? (.object leastSumMembers) = some leastSum := by
    have hreadable : (Json.object leastSumMembers).isReadable = true := by
      simp [leastSumMembers, Json.isReadable, Json.membersReadable, Json.isWord, htwo]
    unfold ofJson?
    rw [hreadable]
    rfl
  have hnew : ∀ m ∈ leastSumMembers ++ [], m.1 ≠ "selector" := by simp [leastSumMembers]
  have hselector : ("selector", Json.null) ∈ defaults := by simp [defaults]
  refine ⟨⟨hfinite, (hback _).mp hfinite⟩, ⟨hread, hagain _ _ hread⟩, ⟨hselector, hnew, ?_⟩, htwo, (hdouble _ htwo).1⟩
  rw [hdefault _ _ _ _ hselector hnew, List.append_nil, hread]

end Expr

end Statewise
