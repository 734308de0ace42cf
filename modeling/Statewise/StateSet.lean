/-!
# Sets of states

A set of states is a strictly increasing list of 32-bit indices, so two sets with the same members are
equal. Indices given from outside keep only their low 32 bits. The combinations walk both lists once;
each has a lemma that says what its members are.
-/

namespace Statewise

/-! ## Increasing lists -/

namespace Increasing

/-- The list with `x` put where it belongs. -/
def insert (x : Nat) : List Nat → List Nat
  | [] => [x]
  | y :: ys => if x < y then x :: y :: ys else if x = y then y :: ys else y :: insert x ys

def inter : List Nat → List Nat → List Nat
  | [], _ => []
  | x :: xs, ys =>
    let ys := ys.dropWhile (· < x)
    if ys.head? = some x then x :: inter xs ys else inter xs ys

def diff : List Nat → List Nat → List Nat
  | [], _ => []
  | x :: xs, ys =>
    let ys := ys.dropWhile (· < x)
    if ys.head? = some x then diff xs ys else x :: diff xs ys

def union : List Nat → List Nat → List Nat
  | [], ys => ys
  | x :: xs, ys => ys.takeWhile (· < x) ++ x :: union xs (ys.dropWhile (· ≤ x))

theorem mem_insert {x z : Nat} {xs : List Nat} : z ∈ insert x xs ↔ z = x ∨ z ∈ xs := by
  induction xs with
  | nil => simp [insert]
  | cons y ys ih => grind [insert]

theorem sorted_insert {x : Nat} {xs : List Nat} (h : xs.Pairwise (· < ·)) :
    (insert x xs).Pairwise (· < ·) := by
  induction xs with
  | nil => simp [insert]
  | cons y ys ih =>
    simp only [insert]
    obtain ⟨hy, hs⟩ := List.pairwise_cons.mp h
    split
    · next hxy =>
      exact List.pairwise_cons.mpr ⟨fun z hz => (List.mem_cons.mp hz).elim (fun e => e ▸ hxy)
        (fun hz => Nat.lt_trans hxy (hy z hz)), h⟩
    · split
      · exact h
      · refine List.pairwise_cons.mpr ⟨fun z hz => ?_, ih hs⟩
        rcases mem_insert.mp hz with rfl | hz
        · omega
        · exact hy z hz

/-- Dropping the smaller members of an increasing list loses none that is not smaller. -/
theorem mem_dropWhile_lt {x z : Nat} {ys : List Nat} (h : ys.Pairwise (· < ·)) :
    z ∈ ys.dropWhile (· < x) ↔ z ∈ ys ∧ x ≤ z := by
  induction ys with
  | nil => simp
  | cons y ys ih =>
    obtain ⟨hy, hs⟩ := List.pairwise_cons.mp h
    rw [List.dropWhile_cons]
    split
    · next hlt => rw [ih hs]; simp at hlt; grind
    · next hlt =>
      simp at hlt
      constructor
      · intro hz
        refine ⟨hz, ?_⟩
        rcases List.mem_cons.mp hz with rfl | hz
        · exact hlt
        · have := hy z hz; omega
      · exact fun hz => hz.1

theorem sorted_dropWhile {p : Nat → Bool} {ys : List Nat} (h : ys.Pairwise (· < ·)) :
    (ys.dropWhile p).Pairwise (· < ·) :=
  h.sublist (List.dropWhile_sublist p)

/-- The head of what is left shows whether `x` is a member. -/
theorem head?_dropWhile_lt {x : Nat} {ys : List Nat} (h : ys.Pairwise (· < ·)) :
    (ys.dropWhile (· < x)).head? = some x ↔ x ∈ ys := by
  constructor
  · intro hh
    exact ((mem_dropWhile_lt h).mp (List.mem_of_mem_head? hh)).1
  · intro hx
    have hm := (mem_dropWhile_lt (x := x) h).mpr ⟨hx, Nat.le_refl x⟩
    have hs := sorted_dropWhile (p := (· < x)) h
    have hall : ∀ z ∈ ys.dropWhile (· < x), x ≤ z := fun z hz => ((mem_dropWhile_lt h).mp hz).2
    generalize ys.dropWhile (· < x) = l at hm hs hall
    cases l with
    | nil => cases hm
    | cons y l =>
      rcases List.mem_cons.mp hm with rfl | hm
      · rfl
      · have := (List.pairwise_cons.mp hs).1 x hm
        have := hall y List.mem_cons_self
        omega

theorem inter_sublist (xs ys : List Nat) : (inter xs ys).Sublist xs := by
  induction xs generalizing ys with
  | nil => simp [inter]
  | cons x xs ih =>
    simp only [inter]
    split
    · exact (ih _).cons_cons x
    · exact (ih _).cons x

theorem diff_sublist (xs ys : List Nat) : (diff xs ys).Sublist xs := by
  induction xs generalizing ys with
  | nil => simp [diff]
  | cons x xs ih =>
    simp only [diff]
    split
    · exact (ih _).cons x
    · exact (ih _).cons_cons x

theorem mem_inter {z : Nat} {xs ys : List Nat} (hx : xs.Pairwise (· < ·)) (hy : ys.Pairwise (· < ·)) :
    z ∈ inter xs ys ↔ z ∈ xs ∧ z ∈ ys := by
  induction xs generalizing ys with
  | nil => simp [inter]
  | cons x xs ih =>
    obtain ⟨hlt, hs⟩ := List.pairwise_cons.mp hx
    simp only [inter, head?_dropWhile_lt hy]
    have ih := ih hs (sorted_dropWhile (p := (· < x)) hy)
    have hd := mem_dropWhile_lt (x := x) (z := z) hy
    split
    · next hm =>
      rw [List.mem_cons, ih, hd, List.mem_cons]
      constructor
      · rintro (rfl | h)
        · exact ⟨Or.inl rfl, hm⟩
        · exact ⟨Or.inr h.1, h.2.1⟩
      · rintro ⟨rfl | h, h'⟩
        · exact Or.inl rfl
        · exact Or.inr ⟨h, h', Nat.le_of_lt (hlt z h)⟩
    · next hm =>
      rw [ih, hd, List.mem_cons]
      constructor
      · exact fun h => ⟨Or.inr h.1, h.2.1⟩
      · rintro ⟨rfl | h, h'⟩
        · exact absurd h' hm
        · exact ⟨h, h', Nat.le_of_lt (hlt z h)⟩

theorem mem_diff {z : Nat} {xs ys : List Nat} (hx : xs.Pairwise (· < ·)) (hy : ys.Pairwise (· < ·)) :
    z ∈ diff xs ys ↔ z ∈ xs ∧ z ∉ ys := by
  induction xs generalizing ys with
  | nil => simp [diff]
  | cons x xs ih =>
    obtain ⟨hlt, hs⟩ := List.pairwise_cons.mp hx
    simp only [diff, head?_dropWhile_lt hy]
    have ih := ih hs (sorted_dropWhile (p := (· < x)) hy)
    have hd := mem_dropWhile_lt (x := x) (z := z) hy
    split
    · next hm =>
      rw [ih, hd, List.mem_cons]
      constructor
      · rintro ⟨h, h'⟩
        exact ⟨Or.inr h, fun hz => h' ⟨hz, Nat.le_of_lt (hlt z h)⟩⟩
      · rintro ⟨rfl | h, h'⟩
        · exact absurd hm h'
        · exact ⟨h, fun hz => h' hz.1⟩
    · next hm =>
      rw [List.mem_cons, ih, hd, List.mem_cons]
      constructor
      · rintro (rfl | ⟨h, h'⟩)
        · exact ⟨Or.inl rfl, hm⟩
        · exact ⟨Or.inr h, fun hz => h' ⟨hz, Nat.le_of_lt (hlt z h)⟩⟩
      · rintro ⟨rfl | h, h'⟩
        · exact Or.inl rfl
        · exact Or.inr ⟨h, fun hz => h' hz.1⟩

theorem mem_union {z : Nat} {xs ys : List Nat} (hy : ys.Pairwise (· < ·)) :
    z ∈ union xs ys ↔ z ∈ xs ∨ z ∈ ys := by
  induction xs generalizing ys with
  | nil => simp [union]
  | cons x xs ih =>
    simp only [union, List.mem_append, List.mem_cons, ih (sorted_dropWhile hy)]
    have hsplit : z ∈ ys ↔ z ∈ ys.takeWhile (· < x) ∨ z ∈ ys.dropWhile (· < x) := by
      rw [← List.mem_append, List.takeWhile_append_dropWhile]
    have hle : z ∈ ys.dropWhile (· ≤ x) ↔ z ∈ ys ∧ x < z := by
      have := mem_dropWhile_lt (x := x + 1) (z := z) hy
      simp only [Nat.lt_succ_iff] at this
      exact this
    have hd := mem_dropWhile_lt (x := x) (z := z) hy
    rw [hle]
    constructor
    · rintro (h | rfl | h | h)
      · exact Or.inr (hsplit.mpr (Or.inl h))
      · exact Or.inl (Or.inl rfl)
      · exact Or.inl (Or.inr h)
      · exact Or.inr h.1
    · rintro ((rfl | h) | h)
      · exact Or.inr (Or.inl rfl)
      · exact Or.inr (Or.inr (Or.inl h))
      · rcases hsplit.mp h with h' | h'
        · exact Or.inl h'
        · have := (hd.mp h').2
          by_cases hz : z = x
          · exact Or.inr (Or.inl hz)
          · exact Or.inr (Or.inr (Or.inr ⟨h, by omega⟩))

theorem sorted_union {xs ys : List Nat} (hx : xs.Pairwise (· < ·)) (hy : ys.Pairwise (· < ·)) :
    (union xs ys).Pairwise (· < ·) := by
  induction xs generalizing ys with
  | nil => simpa [union] using hy
  | cons x xs ih =>
    obtain ⟨hlt, hs⟩ := List.pairwise_cons.mp hx
    have hd : (ys.dropWhile (· ≤ x)).Pairwise (· < ·) := sorted_dropWhile hy
    have above : ∀ z ∈ union xs (ys.dropWhile (· ≤ x)), x < z := by
      intro z hz
      rcases (mem_union hd).mp hz with h | h
      · exact hlt z h
      · have h' : z ∈ ys.dropWhile (· < x + 1) := by simpa [Nat.lt_succ_iff] using h
        have := ((mem_dropWhile_lt hy).mp h').2
        omega
    refine List.pairwise_append.mpr
      ⟨hy.sublist (List.takeWhile_sublist _), List.pairwise_cons.mpr ⟨above, ih hs hd⟩, fun a ha b hb => ?_⟩
    have hax : a < x := by
      simpa using List.all_eq_true.mp (List.all_takeWhile (p := (· < x)) (l := ys)) a ha
    rcases List.mem_cons.mp hb with rfl | hb
    · exact hax
    · have := above b hb; omega

/-- Increasing lists with the same members are equal. -/
theorem eq_of_mem_iff {xs ys : List Nat} (hx : xs.Pairwise (· < ·)) (hy : ys.Pairwise (· < ·))
    (h : ∀ z, z ∈ xs ↔ z ∈ ys) : xs = ys :=
  List.Perm.eq_of_pairwise (fun a b _ _ hab hba => by omega) hx hy
    ((List.perm_ext_iff_of_nodup (hx.imp Nat.ne_of_lt) (hy.imp Nat.ne_of_lt)).mpr h)

end Increasing

/-! ## Sets -/

/-- The number of indices that a set can hold. -/
def stateLimit : Nat := 4294967296

structure StateSet where
  toList : List Nat
  sorted : toList.Pairwise (· < ·)
  bounded : ∀ s ∈ toList, s < stateLimit
deriving DecidableEq

namespace StateSet

instance : Membership Nat StateSet := ⟨fun a s => s ∈ a.toList⟩

theorem mem_def {a : StateSet} {s : Nat} : s ∈ a ↔ s ∈ a.toList := Iff.rfl

instance (a : StateSet) (s : Nat) : Decidable (s ∈ a) := inferInstanceAs (Decidable (s ∈ a.toList))

@[ext] theorem ext {a b : StateSet} (h : ∀ s, s ∈ a ↔ s ∈ b) : a = b := by
  cases a with | mk xs hx bx => cases b with | mk ys hy bys =>
  have : xs = ys := Increasing.eq_of_mem_iff hx hy h
  subst this; rfl

/-- The index of a state as sets keep it. -/
def index (s : Nat) : Nat := s % stateLimit

theorem index_lt (s : Nat) : index s < stateLimit := Nat.mod_lt _ (by decide)

theorem index_of_lt {s : Nat} (h : s < stateLimit) : index s = s := Nat.mod_eq_of_lt h

def empty : StateSet := ⟨[], .nil, by simp⟩

instance : Inhabited StateSet := ⟨empty⟩

/-- The states `0, …, n - 1`. -/
def full (n : Nat) : StateSet :=
  ⟨List.range (index n), List.pairwise_lt_range, fun s hs => by
    have := List.mem_range.mp hs; have := index_lt n; omega⟩

def insert (a : StateSet) (s : Nat) : StateSet :=
  ⟨Increasing.insert (index s) a.toList, Increasing.sorted_insert a.sorted, fun z hz => by
    rcases Increasing.mem_insert.mp hz with rfl | hz
    · exact index_lt s
    · exact a.bounded z hz⟩

def singleton (s : Nat) : StateSet := empty.insert s

def ofList (xs : List Nat) : StateSet := xs.foldr (fun s a => a.insert s) empty

/-- The members that satisfy `p`. -/
def filter (a : StateSet) (p : Nat → Bool) : StateSet :=
  ⟨a.toList.filter p, a.sorted.filter p, fun s hs => a.bounded s (List.mem_filter.mp hs).1⟩

def remove (a : StateSet) (s : Nat) : StateSet := a.filter (· != index s)

def contains (a : StateSet) (s : Nat) : Bool := a.toList.contains (index s)

def size (a : StateSet) : Nat := a.toList.length

def isEmpty (a : StateSet) : Bool := a.toList.isEmpty

/-- The least member. -/
def first? (a : StateSet) : Option Nat := a.toList.head?

/-- Whether the set holds the `n` states of a model: it has `n` members and the greatest is below `n`. -/
def isFull (a : StateSet) (n : Nat) : Bool := a.size == n && a.toList.getLast?.all (· < n)

def inter (a b : StateSet) : StateSet :=
  ⟨Increasing.inter a.toList b.toList, a.sorted.sublist (Increasing.inter_sublist _ _),
    fun s hs => a.bounded s ((Increasing.inter_sublist _ _).subset hs)⟩

def diff (a b : StateSet) : StateSet :=
  ⟨Increasing.diff a.toList b.toList, a.sorted.sublist (Increasing.diff_sublist _ _),
    fun s hs => a.bounded s ((Increasing.diff_sublist _ _).subset hs)⟩

def union (a b : StateSet) : StateSet :=
  ⟨Increasing.union a.toList b.toList, Increasing.sorted_union a.sorted b.sorted, fun s hs => by
    rcases (Increasing.mem_union b.sorted).mp hs with h | h
    · exact a.bounded s h
    · exact b.bounded s h⟩

/-- The states of a model with `n` states that are not in the set. -/
def complement (a : StateSet) (n : Nat) : StateSet := (full n).diff a

/-- The least member alone. -/
def retainFirst (a : StateSet) : StateSet :=
  ⟨a.toList.take 1, a.sorted.sublist (List.take_sublist _ _),
    fun s hs => a.bounded s ((List.take_sublist _ _).subset hs)⟩

def subset (a b : StateSet) : Bool := (a.diff b).isEmpty

/-- The members with commas between them, in braces. -/
def text (a : StateSet) : String := "\x7b" ++ ", ".intercalate (a.toList.map toString) ++ "\x7d"

/-! ## Members -/

@[simp] theorem not_mem_empty (s : Nat) : s ∉ empty := List.not_mem_nil

@[simp] theorem mem_full {n s : Nat} : s ∈ full n ↔ s < index n := List.mem_range

theorem mem_full_of_lt {n s : Nat} (h : n < stateLimit) : s ∈ full n ↔ s < n := by
  rw [mem_full, index_of_lt h]

@[simp] theorem mem_insert {a : StateSet} {s z : Nat} : z ∈ a.insert s ↔ z = index s ∨ z ∈ a :=
  Increasing.mem_insert

@[simp] theorem mem_singleton {s z : Nat} : z ∈ singleton s ↔ z = index s := by simp [singleton]

@[simp] theorem mem_ofList {xs : List Nat} {z : Nat} : z ∈ ofList xs ↔ ∃ s ∈ xs, z = index s := by
  induction xs with
  | nil => simp [ofList]
  | cons x xs ih => simp only [ofList, List.foldr_cons, mem_insert] at ih ⊢; simp [ih]

@[simp] theorem mem_filter {a : StateSet} {p : Nat → Bool} {z : Nat} : z ∈ a.filter p ↔ z ∈ a ∧ p z :=
  List.mem_filter

@[simp] theorem mem_remove {a : StateSet} {s z : Nat} : z ∈ a.remove s ↔ z ∈ a ∧ z ≠ index s := by
  simp [remove]

theorem contains_iff {a : StateSet} {s : Nat} : a.contains s = true ↔ index s ∈ a := by
  simp [contains, mem_def]

theorem contains_eq_decide {a : StateSet} {s : Nat} (h : s < stateLimit) : a.contains s = decide (s ∈ a) := by
  rw [Bool.eq_iff_iff, contains_iff, index_of_lt h]; simp

@[simp] theorem mem_inter {a b : StateSet} {z : Nat} : z ∈ a.inter b ↔ z ∈ a ∧ z ∈ b :=
  Increasing.mem_inter a.sorted b.sorted

@[simp] theorem mem_diff {a b : StateSet} {z : Nat} : z ∈ a.diff b ↔ z ∈ a ∧ z ∉ b :=
  Increasing.mem_diff a.sorted b.sorted

@[simp] theorem mem_union {a b : StateSet} {z : Nat} : z ∈ a.union b ↔ z ∈ a ∨ z ∈ b :=
  Increasing.mem_union b.sorted

@[simp] theorem mem_complement {a : StateSet} {n z : Nat} : z ∈ a.complement n ↔ z < index n ∧ z ∉ a := by
  simp [complement]

theorem isEmpty_iff {a : StateSet} : a.isEmpty = true ↔ ∀ s, s ∉ a := by
  simp [isEmpty, List.isEmpty_iff, List.eq_nil_iff_forall_not_mem, mem_def]

theorem isEmpty_eq_false_iff {a : StateSet} : a.isEmpty = false ↔ ∃ s, s ∈ a := by
  rw [← Bool.not_eq_true, isEmpty_iff]
  simp

theorem subset_iff {a b : StateSet} : a.subset b = true ↔ ∀ s ∈ a, s ∈ b := by
  simp [subset, isEmpty_iff]

end StateSet

end Statewise
