import Statewise.Expr.Printer

/-!
# Reading texts back

Trees of operators, negations and conditionals over variables and truth values can be read back from their texts, but
for one thing: a conditional whose condition is a conditional has the text of the one that goes on behind the colon.
`Reads` is how such texts are read, from left to right, and has at most one outcome. The text of a tree is read as the
tree with its conditionals regrouped (`Expr.regroup`), so two trees have the same text exactly if they are regrouped
into the same tree (`Expr.text_eq_iff`).
-/

namespace Statewise

/-! ## Texts as characters -/

namespace Expr

/-- The characters of the text. -/
def letters (e : Expr) : List Char := e.text.toList

/-- The characters of an operand in a place that demands at least the binding strength `least`. -/
def operandLetters (least : Nat) (e : Expr) : List Char :=
  if e.binding < least then '(' :: (e.letters ++ [')']) else e.letters

theorem toList_operandText (least : Nat) (e : Expr) : (operandText least e e.text).toList = e.operandLetters least := by
  unfold operandText operandLetters letters
  split <;> simp [String.toList_append]

theorem letters_ite (c t e : Expr) :
    (ite c t e).letters = c.letters ++ ' ' :: '?' :: ' ' :: (t.letters ++ ' ' :: ':' :: ' ' :: e.letters) := by
  simp [letters, text, String.toList_append]

theorem letters_binary (op : BinaryOp) (l r : Expr) :
    (binary op l r).letters = l.operandLetters op.precedence ++
      ' ' :: (op.symbol.toList ++ ' ' :: r.operandLetters (op.precedence + 1)) := by
  simp [letters, text, String.toList_append, ← toList_operandText]

theorem letters_not (e : Expr) : (unary .not e).letters = '!' :: e.operandLetters tight := by
  simp [letters, text, String.toList_append, ← toList_operandText]

theorem letters_var (name : String) (index : UInt64) (t : ValueType) : (var name index t).letters = name.toList := by
  simp [letters, text]

end Expr

/-! ## Words and symbols -/

namespace Reader

/-- What may stand in a name: anything but blanks, parentheses and the sign of negation. -/
def isWordChar (c : Char) : Bool := c != ' ' && c != '(' && c != ')' && c != '!'

/-- The text is empty or goes on with something else than a name. -/
def Ends (cs : List Char) : Prop := ∀ c ∈ cs.head?, isWordChar c = false

/-- A text has one longest beginning of characters of a kind. -/
theorem span_unique {p : Char → Bool} {a b a' b' : List Char} (ha : ∀ c ∈ a, p c = true) (ha' : ∀ c ∈ a', p c = true)
    (hb : ∀ c ∈ b.head?, p c = false) (hb' : ∀ c ∈ b'.head?, p c = false) (h : a ++ b = a' ++ b') :
    a = a' ∧ b = b' := by
  have htake : ∀ {a b : List Char}, (∀ c ∈ a, p c = true) → (∀ c ∈ b.head?, p c = false) →
      (a ++ b).takeWhile p = a := by
    intro a b ha hb
    rw [List.takeWhile_append_of_pos ha]
    cases b with
    | nil => simp
    | cons c b => rw [List.takeWhile_cons_of_neg (by simp [hb c rfl]), List.append_nil]
  have heq : a = a' := by rw [← htake ha hb, h, htake ha' hb']
  subst heq
  exact ⟨rfl, List.append_cancel_left h⟩

end Reader

open Reader

namespace BinaryOp

theorem symbol_injective {op op' : BinaryOp} (h : op.symbol = op'.symbol) : op = op' := by
  revert h
  cases op <;> cases op' <;> decide

theorem symbol_solid (op : BinaryOp) : ∀ c ∈ op.symbol.toList, (c != ' ') = true := by
  cases op <;> simp [symbol]

/-- The symbol between two blanks, and what follows, can be told from the text. -/
theorem symbol_unique {op op' : BinaryOp} {a b : List Char}
    (h : op.symbol.toList ++ ' ' :: a = op'.symbol.toList ++ ' ' :: b) : op = op' ∧ a = b := by
  obtain ⟨hsymbol, hrest⟩ := span_unique op.symbol_solid op'.symbol_solid (by simp) (by simp) h
  exact ⟨symbol_injective (String.toList_injective hsymbol), (List.cons.inj hrest).2⟩

/-- It is none of the two signs of a conditional. -/
theorem symbol_ne_sign (op : BinaryOp) {sign : Char} (hsign : sign = '?' ∨ sign = ':') {a b : List Char} :
    op.symbol.toList ++ ' ' :: a ≠ sign :: ' ' :: b := by
  intro h
  have h : op.symbol.toList ++ ' ' :: a = [sign] ++ ' ' :: b := h
  have hsolid : ∀ c ∈ [sign], (c != ' ') = true := by rcases hsign with rfl | rfl <;> simp
  obtain ⟨hsymbol, -⟩ := span_unique op.symbol_solid hsolid (by simp) (by simp) h
  rcases hsign with rfl | rfl <;> cases op <;> revert hsymbol <;> decide

end BinaryOp

/-! ## Reading -/

namespace Reader

/-- Where a reader is: before an operand, before an expression that binds at least so tightly, or behind the left part
of one. -/
inductive Place where
  | operand
  | start (least : Nat)
  | behind (least : Nat) (left : Expr)

/-- What a word stands for; variables get no place and no type. -/
def atom (word : List Char) : Expr :=
  if word = "true".toList then .truth
  else if word = "false".toList then .falsity
  else .var (.ofList word) 0 .bool

/-- The text goes on with an operator that binds at least so tightly. -/
def Continues (least : Nat) (cs : List Char) : Prop :=
  (∃ (op : BinaryOp) (rest : List Char), least ≤ op.precedence ∧ cs = ' ' :: (op.symbol.toList ++ ' ' :: rest)) ∨
    least = 0 ∧ ∃ rest, cs = ' ' :: '?' :: ' ' :: rest

/-- At a place an expression is read from the text, and a text is left. Operators of equal strength are grouped to the
left, and a conditional reaches as far as possible. -/
inductive Reads : Place → List Char → Expr → List Char → Prop where
  | word {w rest cs : List Char} (hcs : cs = w ++ rest) (hne : w ≠ []) (hw : ∀ c ∈ w, isWordChar c = true)
      (hrest : Ends rest) : Reads .operand cs (atom w) rest
  | not {cs rest : List Char} {e : Expr} (he : Reads .operand cs e rest) :
      Reads .operand ('!' :: cs) (.unary .not e) rest
  | parens {cs rest : List Char} {e : Expr} (he : Reads (.start 0) cs e (')' :: rest)) :
      Reads .operand ('(' :: cs) e rest
  | start {k : Nat} {cs mid rest : List Char} {l e : Expr} (hl : Reads .operand cs l mid)
      (he : Reads (.behind k l) mid e rest) : Reads (.start k) cs e rest
  | binary {k : Nat} {cs arg mid rest : List Char} {op : BinaryOp} {l r e : Expr}
      (hcs : cs = ' ' :: (op.symbol.toList ++ ' ' :: arg)) (hk : k ≤ op.precedence)
      (hr : Reads (.start (op.precedence + 1)) arg r mid) (he : Reads (.behind k (.binary op l r)) mid e rest) :
      Reads (.behind k l) cs e rest
  | ite {cs mid rest : List Char} {c t e : Expr} (ht : Reads (.start 0) cs t (' ' :: ':' :: ' ' :: mid))
      (he : Reads (.start 0) mid e rest) : Reads (.behind 0 c) (' ' :: '?' :: ' ' :: cs) (.ite c t e) rest
  | stop {k : Nat} {cs : List Char} {l : Expr} (hcs : ¬Continues k cs) : Reads (.behind k l) cs l cs

/-- A word begins with one of its characters. -/
theorem not_word {c : Char} {cs w rest : List Char} (hc : isWordChar c = false) (hcs : c :: cs = w ++ rest)
    (hne : w ≠ []) (hw : ∀ c ∈ w, isWordChar c = true) : False := by
  obtain ⟨d, w, rfl⟩ := List.exists_cons_of_ne_nil hne
  obtain rfl : c = d := (List.cons.inj hcs).1
  exact Bool.false_ne_true (hc.symm.trans (hw c List.mem_cons_self))

/-- Reading has one outcome at most. -/
theorem Reads.unique {p : Place} {cs rest rest' : List Char} {e e' : Expr} (h : Reads p cs e rest)
    (h' : Reads p cs e' rest') : e = e' ∧ rest = rest' := by
  -- The head of the text leaves the second reading one rule; what the two read by it is the same by induction.
  induction h generalizing e' rest' with
  | word hcs hne hw hrest =>
    cases h' with
    | word hcs' hne' hw' hrest' =>
      obtain ⟨rfl, rfl⟩ := span_unique hw hw' hrest hrest' (hcs.symm.trans hcs')
      exact ⟨rfl, rfl⟩
    | not _ => exact (not_word rfl hcs hne hw).elim
    | parens _ => exact (not_word rfl hcs hne hw).elim
  | not he ih =>
    cases h' with
    | word hcs' hne' hw' _ => exact (not_word rfl hcs' hne' hw').elim
    | not he' =>
      obtain ⟨rfl, rfl⟩ := ih he'
      exact ⟨rfl, rfl⟩
  | parens he ih =>
    cases h' with
    | word hcs' hne' hw' _ => exact (not_word rfl hcs' hne' hw').elim
    | parens he' =>
      obtain ⟨rfl, hrest⟩ := ih he'
      exact ⟨rfl, (List.cons.inj hrest).2⟩
  | start hl he ihl ihe =>
    cases h' with
    | start hl' he' =>
      obtain ⟨rfl, rfl⟩ := ihl hl'
      exact ihe he'
  | binary hcs hk hr he ihr ihe =>
    cases h' with
    | binary hcs' hk' hr' he' =>
      obtain ⟨rfl, rfl⟩ := BinaryOp.symbol_unique (List.cons.inj (hcs.symm.trans hcs')).2
      obtain ⟨rfl, rfl⟩ := ihr hr'
      exact ihe he'
    | ite _ _ => exact absurd (List.cons.inj hcs).2.symm (BinaryOp.symbol_ne_sign _ (.inl rfl))
    | stop hstop => exact absurd (.inl ⟨_, _, hk, hcs⟩) hstop
  | ite ht he iht ihe =>
    cases h' with
    | binary hcs' _ _ _ => exact absurd (List.cons.inj hcs').2.symm (BinaryOp.symbol_ne_sign _ (.inl rfl))
    | ite ht' he' =>
      obtain ⟨rfl, hmid⟩ := iht ht'
      obtain rfl := (List.cons.inj (List.cons.inj (List.cons.inj hmid).2).2).2
      obtain ⟨rfl, rfl⟩ := ihe he'
      exact ⟨rfl, rfl⟩
    | stop hstop => exact absurd (.inr ⟨rfl, _, rfl⟩) hstop
  | stop hcs =>
    cases h' with
    | binary hcs' hk' _ _ => exact absurd (.inl ⟨_, _, hk', hcs'⟩) hcs
    | ite _ _ => exact absurd (.inr ⟨rfl, _, rfl⟩) hcs
    | stop _ => exact ⟨rfl, rfl⟩

end Reader

/-! ## Trees of operators -/

namespace Expr

/-- The text of a variable that is no truth value and can be told from its surroundings, as every identifier can. -/
structure IsName (name : String) : Prop where
  nonempty : name.toList ≠ []
  word : ∀ c ∈ name.toList, isWordChar c = true
  ne_true : name ≠ "true"
  ne_false : name ≠ "false"

/-- Variables and truth values, put together by operators, negations and conditionals. -/
inductive IsOperatorTree : Expr → Prop where
  | var {name : String} {index : UInt64} {t : ValueType} (h : IsName name) : IsOperatorTree (.var name index t)
  | bool (b : Bool) : IsOperatorTree (.literal (.bool b))
  | not {e : Expr} (he : IsOperatorTree e) : IsOperatorTree (.unary .not e)
  | binary {op : BinaryOp} {l r : Expr} (hl : IsOperatorTree l) (hr : IsOperatorTree r) :
      IsOperatorTree (.binary op l r)
  | ite {c t e : Expr} (hc : IsOperatorTree c) (ht : IsOperatorTree t) (he : IsOperatorTree e) :
      IsOperatorTree (.ite c t e)

/-- The conditional; if the condition is one itself, then it goes on behind the last colon of the condition. -/
def choose : Expr → Expr → Expr → Expr
  | ite a b c, t, e => ite a b (choose c t e)
  | c, t, e => ite c t e

/-- The tree without places and types of variables. -/
def forget : Expr → Expr
  | ite c t e => ite c.forget t.forget e.forget
  | binary op l r => binary op l.forget r.forget
  | unary op e => unary op e.forget
  | var name _ _ => var name 0 .bool
  | e => e

/-- And with conditionals in place of their conditions. -/
def regroup : Expr → Expr
  | ite c t e => choose c.regroup t.regroup e.regroup
  | binary op l r => binary op l.regroup r.regroup
  | unary op e => unary op e.regroup
  | var name _ _ => var name 0 .bool
  | e => e

/-- No conditional is the condition of another one. -/
def Separate : Expr → Prop
  | ite c t e => (∀ a b d, c ≠ ite a b d) ∧ c.Separate ∧ t.Separate ∧ e.Separate
  | binary _ l r => l.Separate ∧ r.Separate
  | unary _ e => e.Separate
  | _ => True

variable {e : Expr}

theorem choose_of_ne {c : Expr} (hc : ∀ a b d, c ≠ ite a b d) (t e : Expr) : choose c t e = ite c t e := by
  cases c with
  | ite a b d => exact absurd rfl (hc a b d)
  | _ => rfl

/-- Only a conditional is regrouped into one. -/
theorem regroup_ne_ite (he : e.IsOperatorTree) (h : 0 < e.binding) : ∀ a b d, e.regroup ≠ ite a b d := by
  cases he with
  | ite => exact absurd h (Nat.lt_irrefl 0)
  | _ => exact nofun

/-- Trees without conditionals as conditions stay as they are. -/
theorem regroup_of_separate (he : e.IsOperatorTree) (h : e.Separate) : e.regroup = e.forget := by
  induction he with
  | var _ => rfl
  | bool _ => rfl
  | not _ ih => exact congrArg _ (ih h)
  | @binary op l r _ _ ihl ihr =>
    show binary op l.regroup r.regroup = binary op l.forget r.forget
    rw [ihl h.1, ihr h.2]
  | @ite c t e hc ht he ihc iht ihe =>
    obtain ⟨hne, hc', ht', he'⟩ := h
    have hforget : ∀ a b d, c.forget ≠ Expr.ite a b d := by
      cases hc with
      | ite => exact absurd rfl (hne _ _ _)
      | _ => exact nofun
    show choose c.regroup t.regroup e.regroup = ite c.forget t.forget e.forget
    rw [ihc hc', iht ht', ihe he', choose_of_ne hforget]

/-! ### The same text -/

theorem letters_choose (c t e : Expr) : (choose c t e).letters = (ite c t e).letters := by
  fun_induction choose c t e with
  | case1 a b c t e ih =>
    rw [letters_ite, ih]
    simp [letters_ite]
  | case2 => rfl

theorem binding_regroup (he : e.IsOperatorTree) : e.regroup.binding = e.binding := by
  cases he with
  | @ite c t e hc ht he =>
    show (choose c.regroup t.regroup e.regroup).binding = 0
    cases c.regroup <;> rfl
  | _ => rfl

theorem letters_regroup (he : e.IsOperatorTree) : e.regroup.letters = e.letters := by
  have hoperand : ∀ {a : Expr} (least : Nat), a.IsOperatorTree → a.regroup.letters = a.letters →
      a.regroup.operandLetters least = a.operandLetters least := by
    intro a least ha h
    unfold operandLetters
    rw [binding_regroup ha, h]
  induction he with
  | var _ => simp [regroup, letters_var]
  | bool _ => rfl
  | not he ih =>
    show (unary .not _).letters = _
    rw [letters_not, letters_not, hoperand _ he ih]
  | binary hl hr ihl ihr =>
    show (binary _ _ _).letters = _
    rw [letters_binary, letters_binary, hoperand _ hl ihl, hoperand _ hr ihr]
  | ite _ _ _ ihc iht ihe =>
    show (choose _ _ _).letters = _
    rw [letters_choose, letters_ite, letters_ite, ihc, iht, ihe]

end Expr

/-! ## Reading trees -/

namespace Reader

/-- What is read behind a text that has been read: behind a conditional its last branch goes on. -/
def Resumes (k : Nat) : Expr → List Char → Expr → List Char → Prop
  | .ite c t e, cs, x, rest => ∃ y, Resumes k e cs y rest ∧ x = .ite c t y
  | l, cs, x, rest => Reads (.behind k l) cs x rest

/-- The text is empty, or it goes on with something else than a name and an operator that binds more tightly. -/
structure Follows (least : Nat) (cs : List Char) : Prop where
  ends : Ends cs
  loose : ∀ (op : BinaryOp) (rest : List Char), cs = ' ' :: (op.symbol.toList ++ ' ' :: rest) → op.precedence ≤ least

theorem Follows.mono {k n : Nat} {cs : List Char} (h : Follows k cs) (hle : k ≤ n) : Follows n cs :=
  ⟨h.ends, fun op rest hcs => Nat.le_trans (h.loose op rest hcs) hle⟩

theorem follows_closing (k : Nat) (cs : List Char) : Follows k (')' :: cs) := ⟨by simp [Ends, isWordChar], nofun⟩

theorem follows_nil (k : Nat) : Follows k [] := ⟨by simp [Ends], nofun⟩

theorem follows_sign {sign : Char} (hsign : sign = '?' ∨ sign = ':') (k : Nat) (cs : List Char) :
    Follows k (' ' :: sign :: ' ' :: cs) where
  ends := by simp [Ends, isWordChar]
  loose op rest h := absurd (List.cons.inj h).2.symm (op.symbol_ne_sign hsign)

theorem follows_symbol (op : BinaryOp) (cs : List Char) :
    Follows op.precedence (' ' :: (op.symbol.toList ++ ' ' :: cs)) where
  ends := by simp [Ends, isWordChar]
  loose op' rest h := by
    obtain ⟨rfl, -⟩ := BinaryOp.symbol_unique (List.cons.inj h).2
    exact Nat.le_refl _

theorem resumes_of_ne {k : Nat} {l x : Expr} {cs rest : List Char} (hl : ∀ a b d, l ≠ .ite a b d) :
    Resumes k l cs x rest ↔ Reads (.behind k l) cs x rest := by
  cases l with
  | ite a b d => exact absurd rfl (hl a b d)
  | _ => exact Iff.rfl

/-- Where nothing continues it, an expression stays as it is. -/
theorem resumes_stop {k : Nat} {cs : List Char} (hcs : ¬Continues k cs) (e : Expr) : Resumes k e cs e cs := by
  cases e with
  | ite c t e => exact ⟨e, resumes_stop hcs e, rfl⟩
  | _ => exact .stop hcs

/-- Behind a condition that has been read the branches are read, and go on behind the last colon. -/
theorem resumes_choose {c t e x : Expr} {cs mid rest rest' : List Char}
    (ht : Reads (.start 0) cs t (' ' :: ':' :: ' ' :: mid))
    (he : ∀ y, Resumes 0 e rest y rest' → Reads (.start 0) mid y rest') (hx : Resumes 0 (c.choose t e) rest x rest') :
    Resumes 0 c (' ' :: '?' :: ' ' :: cs) x rest' := by
  fun_induction Expr.choose c t e generalizing x with
  | case1 a b c t e ih =>
    obtain ⟨y, hy, rfl⟩ := hx
    exact ⟨y, ih ht he hy, rfl⟩
  | case2 c t e hc =>
    obtain ⟨y, hy, rfl⟩ := hx
    exact (resumes_of_ne hc).mpr (.ite ht (he y hy))

/-- The text of a tree is read as the tree regrouped, at every place that demands no tighter binding. -/
structure ReadsBack (e : Expr) : Prop where
  operand : e.binding = Expr.tight → ∀ {rest}, Ends rest → Reads .operand (e.letters ++ rest) e.regroup rest
  start : ∀ {k}, k ≤ e.binding → ∀ {rest x rest'}, Follows e.binding rest → Resumes k e.regroup rest x rest' →
    Reads (.start k) (e.letters ++ rest) x rest'

theorem not_continues_closing (k : Nat) (cs : List Char) : ¬Continues k (')' :: cs) := by
  rintro (⟨op, rest, -, h⟩ | ⟨-, rest, h⟩)
  · exact absurd (List.cons.inj h).1 (by decide)
  · exact absurd (List.cons.inj h).1 (by decide)

theorem not_continues_nil (k : Nat) : ¬Continues k [] := by
  rintro (⟨op, rest, -, h⟩ | ⟨-, rest, h⟩) <;> cases h

theorem not_continues_colon (k : Nat) (cs : List Char) : ¬Continues k (' ' :: ':' :: ' ' :: cs) := by
  rintro (⟨op, rest, -, h⟩ | ⟨-, rest, h⟩)
  · exact op.symbol_ne_sign (.inr rfl) (List.cons.inj h).2.symm
  · exact absurd (List.cons.inj (List.cons.inj h).2).1 (by decide)

/-- A looser operator does not continue an operand. -/
theorem Follows.not_continues {k : Nat} {cs : List Char} (h : Follows k cs) : ¬Continues (k + 1) cs := by
  rintro (⟨op, rest, hk, hcs⟩ | ⟨hk, -⟩)
  · have := h.loose op rest hcs
    omega
  · omega

namespace ReadsBack

variable {e : Expr} {rest rest' : List Char} {x : Expr} {k : Nat}

theorem parens (he : ReadsBack e) (rest : List Char) :
    Reads .operand ('(' :: (e.letters ++ [')']) ++ rest) e.regroup rest := by
  rw [List.cons_append, List.append_assoc]
  exact .parens (he.start (Nat.zero_le _) (follows_closing _ rest) (resumes_stop (not_continues_closing 0 rest) _))

/-- An operand where something of its own strength is looked for. -/
theorem tightOperand (he : ReadsBack e) (hle : e.binding ≤ Expr.tight) (hrest : Ends rest) :
    Reads .operand (e.operandLetters Expr.tight ++ rest) e.regroup rest := by
  unfold Expr.operandLetters
  split
  · exact he.parens rest
  · next h => exact he.operand (by omega) hrest

/-- An operand of an operator. -/
theorem loosely (he : ReadsBack e) (htree : e.IsOperatorTree) {least : Nat} (hpos : 0 < least) (hk : k ≤ least)
    (hrest : Follows least rest) (hx : Reads (.behind k e.regroup) rest x rest') :
    Reads (.start k) (e.operandLetters least ++ rest) x rest' := by
  unfold Expr.operandLetters
  split
  · exact .start (he.parens rest) hx
  · next h =>
    have hle : least ≤ e.binding := Nat.le_of_not_lt h
    refine he.start (Nat.le_trans hk hle) (hrest.mono hle) ?_
    exact (resumes_of_ne (Expr.regroup_ne_ite htree (Nat.lt_of_lt_of_le hpos hle))).mpr hx

/-- What can be read as an operand can be read wherever an expression starts. -/
theorem of_operand (htree : e.IsOperatorTree) (htight : e.binding = Expr.tight)
    (h : ∀ {rest}, Ends rest → Reads .operand (e.letters ++ rest) e.regroup rest) : ReadsBack e where
  operand _ := h
  start _ _ _ _ hrest hx := by
    have hpos : 0 < e.binding := by rw [htight]; decide
    exact .start (h hrest.ends) ((resumes_of_ne (Expr.regroup_ne_ite htree hpos)).mp hx)

end ReadsBack

theorem binding_le_tight (e : Expr) : e.binding ≤ Expr.tight := by
  cases e with
  | ite => exact Nat.zero_le _
  | path => exact Nat.zero_le _
  | binary op l r =>
    show op.precedence ≤ 255
    cases op <;> decide
  | _ => exact Nat.le_refl _

theorem atom_ne {name : String} (h : Expr.IsName name) : atom name.toList = .var name 0 .bool := by
  have htrue : name.toList ≠ "true".toList := fun heq => h.ne_true (String.toList_injective heq)
  have hfalse : name.toList ≠ "false".toList := fun heq => h.ne_false (String.toList_injective heq)
  unfold atom
  rw [if_neg htrue, if_neg hfalse, String.ofList_toList]

/-- Every tree of operators is read back. -/
theorem readsBack {e : Expr} (he : e.IsOperatorTree) : ReadsBack e := by
  induction he with
  | @var name index t h =>
    refine .of_operand (.var h) rfl fun {rest} hrest => ?_
    rw [Expr.letters_var]
    show Reads .operand _ (.var name 0 .bool) rest
    rw [← atom_ne h]
    exact .word rfl h.nonempty h.word hrest
  | bool b =>
    refine .of_operand (.bool b) rfl fun {rest} hrest => ?_
    cases b with
    | true => exact .word (w := "true".toList) rfl (by simp) (by simp [isWordChar]) hrest
    | false => exact .word (w := "false".toList) rfl (by simp) (by simp [isWordChar]) hrest
  | @not e he ih =>
    refine .of_operand (.not he) rfl fun {rest} hrest => ?_
    rw [Expr.letters_not]
    exact .not (ih.tightOperand (binding_le_tight _) hrest)
  | @binary op l r hl hr ihl ihr =>
    refine ⟨fun htight => ?_, fun {k} hk {rest x rest'} hrest hx => ?_⟩
    · cases op <;> cases htight
    · rw [Expr.letters_binary, List.append_assoc, List.cons_append, List.append_assoc, List.cons_append]
      have hpos : 0 < op.precedence := by cases op <;> decide
      -- The left operand may bind as tightly as the operator, the right one binds more tightly.
      refine ihl.loosely hl hpos hk (follows_symbol op _) (.binary rfl hk ?_ hx)
      exact ihr.loosely hr (Nat.succ_pos _) (Nat.le_refl _) (hrest.mono (Nat.le_succ _)) (.stop hrest.not_continues)
  | @ite c t e hc ht he ihc iht ihe =>
    refine ⟨fun htight => ?_, fun {k} hk {rest x rest'} hrest hx => ?_⟩
    · cases htight
    · obtain rfl : k = 0 := Nat.le_zero.mp hk
      rw [Expr.letters_ite]
      simp only [List.append_assoc, List.cons_append]
      -- If the condition is a conditional, then it is its last branch that takes the branches of this one.
      refine ihc.start (Nat.zero_le _) (follows_sign (.inl rfl) _ _) ?_
      refine resumes_choose ?_ (fun y hy => ihe.start (Nat.zero_le _) (hrest.mono (Nat.zero_le _)) hy) hx
      exact iht.start (Nat.zero_le _) (follows_sign (.inr rfl) _ _) (resumes_stop (not_continues_colon 0 _) _)

end Reader

/-! ## Equal texts -/

namespace Expr

theorem reads_letters {e : Expr} (he : e.IsOperatorTree) : Reads (.start 0) e.letters e.regroup [] := by
  have hread := (readsBack he).start (Nat.zero_le _) (follows_nil _) (resumes_stop (not_continues_nil 0) e.regroup)
  rwa [List.append_nil] at hread

/-- Two trees of operators have the same text exactly if they are the same tree once every conditional that is the
condition of another one goes on behind its last colon. Trees without such conditionals have the same text only if they
are the same, up to the places and the types of variables. -/
theorem text_eq_iff {e e' : Expr} (he : e.IsOperatorTree) (he' : e'.IsOperatorTree) :
    (e.text = e'.text ↔ e.regroup = e'.regroup) ∧
      (e.Separate → e'.Separate → (e.text = e'.text ↔ e.forget = e'.forget)) := by
  have hiff : e.text = e'.text ↔ e.regroup = e'.regroup := by
    constructor
    · intro h
      have hletters : e.letters = e'.letters := congrArg String.toList h
      exact ((reads_letters he).unique (hletters ▸ reads_letters he')).1
    · intro h
      refine String.toList_injective ?_
      show e.letters = e'.letters
      rw [← letters_regroup he, h, letters_regroup he']
  refine ⟨hiff, fun hs hs' => ?_⟩
  rw [hiff, regroup_of_separate he hs, regroup_of_separate he' hs']

/-- A truth value of that name. -/
def flag (name : String) : Expr := .var name 0 .bool

theorem isOperatorTree_flag {name : String} (h : name.toList ≠ [] ∧ name.toList.all isWordChar = true ∧
    name ≠ "true" ∧ name ≠ "false") : (flag name).IsOperatorTree :=
  .var ⟨h.1, List.all_eq_true.mp h.2.1, h.2.2.1, h.2.2.2⟩

/-- Of connectives the grouping can be told from the text, of conditionals it cannot. -/
theorem text_eq_iff_flags :
    (binary .and (flag "p") (binary .or (flag "q") (flag "r"))).IsOperatorTree ∧
    (binary .and (flag "p") (binary .or (flag "q") (flag "r"))).text ≠
      (binary .or (binary .and (flag "p") (flag "q")) (flag "r")).text ∧
    (ite (ite (flag "p") (flag "q") (flag "r")) (flag "s") (flag "t")).text =
      (ite (flag "p") (flag "q") (ite (flag "r") (flag "s") (flag "t"))).text := by
  have hp : (flag "p").IsOperatorTree := isOperatorTree_flag (by decide)
  have hq : (flag "q").IsOperatorTree := isOperatorTree_flag (by decide)
  have hr : (flag "r").IsOperatorTree := isOperatorTree_flag (by decide)
  have hs : (flag "s").IsOperatorTree := isOperatorTree_flag (by decide)
  have ht : (flag "t").IsOperatorTree := isOperatorTree_flag (by decide)
  refine ⟨.binary hp (.binary hq hr), fun h => ?_, ?_⟩
  · have hsame := ((text_eq_iff (.binary hp (.binary hq hr)) (.binary (.binary hp hq) hr)).2 ⟨trivial, trivial, trivial⟩
      ⟨⟨trivial, trivial⟩, trivial⟩).mp h
    cases hsame
  · exact (text_eq_iff (.ite (.ite hp hq hr) hs ht) (.ite hp hq (.ite hr hs ht))).1.mpr rfl

/-- Two trees that differ in more than places and types have one text. -/
theorem text_ite_ite :
    ∃ e e' : Expr, e = ite (ite (flag "p") (flag "q") (flag "r")) (flag "s") (flag "t") ∧
      e' = ite (flag "p") (flag "q") (ite (flag "r") (flag "s") (flag "t")) ∧ e.IsOperatorTree ∧ e'.IsOperatorTree ∧
      e.text = "p ? q : r ? s : t" ∧ e'.text = "p ? q : r ? s : t" ∧ e.forget ≠ e'.forget := by
  have hp : (flag "p").IsOperatorTree := isOperatorTree_flag (by decide)
  have hq : (flag "q").IsOperatorTree := isOperatorTree_flag (by decide)
  have hr : (flag "r").IsOperatorTree := isOperatorTree_flag (by decide)
  have hs : (flag "s").IsOperatorTree := isOperatorTree_flag (by decide)
  have ht : (flag "t").IsOperatorTree := isOperatorTree_flag (by decide)
  refine ⟨_, _, rfl, rfl, .ite (.ite hp hq hr) hs ht, .ite hp hq (.ite hr hs ht), ?_, ?_, nofun⟩
  · decide +kernel
  · decide +kernel

end Expr

end Statewise
