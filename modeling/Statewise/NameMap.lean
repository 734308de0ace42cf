/-!
# Maps from names

A map from names keeps its entries in the order of the names, so listing it is listing it by name.
-/

namespace Statewise

/-- Entries in increasing order of their names. -/
structure NameMap (α : Type) where
  toList : List (String × α)
  sorted : toList.Pairwise (fun a b => a.1 < b.1)

namespace NameMap

variable {α β : Type}

def empty : NameMap α := ⟨[], .nil⟩

instance : Inhabited (NameMap α) := ⟨empty⟩

def names (m : NameMap α) : List String := m.toList.map (·.1)

def isEmpty (m : NameMap α) : Bool := m.toList.isEmpty

def get? (m : NameMap α) (name : String) : Option α := m.toList.lookup name

def contains (m : NameMap α) (name : String) : Bool := (m.get? name).isSome

/-- The map with every value replaced by its image. -/
def map (f : α → β) (m : NameMap α) : NameMap β :=
  ⟨m.toList.map fun e => (e.1, f e.2), List.pairwise_map.mpr m.sorted⟩

/-! ## Inserting -/

/-- The entries with the value of `name` set, in their order. -/
def insertList (name : String) (v : α) : List (String × α) → List (String × α)
  | [] => [(name, v)]
  | (n, w) :: rest =>
    if name < n then (name, v) :: (n, w) :: rest
    else if name = n then (name, v) :: rest
    else (n, w) :: insertList name v rest

theorem lt_of_not_lt_of_ne {a b : String} (h : ¬ a < b) (hne : a ≠ b) : b < a := by
  by_cases hba : b < a
  · exact hba
  · exact absurd (String.le_antisymm (String.not_lt.mp hba) (String.not_lt.mp h)) hne

theorem mem_insertList {name : String} {v : α} {e : String × α} {l : List (String × α)}
    (h : e ∈ insertList name v l) : e = (name, v) ∨ e ∈ l := by
  induction l with
  | nil => exact Or.inl (List.mem_singleton.mp h)
  | cons f rest ih =>
    simp only [insertList] at h
    split at h
    · rcases List.mem_cons.mp h with rfl | h
      · exact Or.inl rfl
      · exact Or.inr h
    · split at h
      · rcases List.mem_cons.mp h with rfl | h
        · exact Or.inl rfl
        · exact Or.inr (List.mem_cons_of_mem _ h)
      · rcases List.mem_cons.mp h with rfl | h
        · exact Or.inr List.mem_cons_self
        · exact (ih h).imp_right (List.mem_cons_of_mem _)

theorem sorted_insertList {name : String} {v : α} {l : List (String × α)}
    (h : l.Pairwise (fun a b => a.1 < b.1)) : (insertList name v l).Pairwise (fun a b => a.1 < b.1) := by
  induction l with
  | nil => simp [insertList]
  | cons f rest ih =>
    obtain ⟨hf, hs⟩ := List.pairwise_cons.mp h
    simp only [insertList]
    split
    · next hlt =>
      exact List.pairwise_cons.mpr ⟨fun e he => (List.mem_cons.mp he).elim (fun q => q ▸ hlt)
        (fun he => String.lt_trans hlt (hf e he)), h⟩
    · next hnlt =>
      split
      · next heq => exact List.pairwise_cons.mpr ⟨fun e he => heq ▸ hf e he, hs⟩
      · next hne =>
        refine List.pairwise_cons.mpr ⟨fun e he => ?_, ih hs⟩
        rcases mem_insertList he with rfl | he
        · exact lt_of_not_lt_of_ne hnlt hne
        · exact hf e he

/-- The map with the value of `name` set. -/
def insert (m : NameMap α) (name : String) (v : α) : NameMap α :=
  ⟨insertList name v m.toList, sorted_insertList m.sorted⟩

/-- The map with the given entries; of two for one name the later one counts. -/
def ofList (l : List (String × α)) : NameMap α := l.foldl (fun m e => m.insert e.1 e.2) empty

theorem get?_insert (m : NameMap α) (name n : String) (v : α) :
    (m.insert name v).get? n = if n = name then some v else m.get? n := by
  unfold get? insert
  simp only
  have hs := m.sorted
  generalize m.toList = l at hs
  induction l with
  | nil =>
    by_cases h : n = name
    · simp [insertList, h]
    · have : (n == name) = false := by simpa using h
      simp [insertList, List.lookup_cons, this, h]
  | cons f rest ih =>
    obtain ⟨k, w⟩ := f
    obtain ⟨hf, hs⟩ := List.pairwise_cons.mp hs
    simp only [insertList]
    split
    · by_cases h : n = name
      · simp [h]
      · have : (n == name) = false := by simpa using h
        simp [List.lookup_cons, this, h]
    · split
      · next heq =>
        subst heq
        by_cases h : n = name
        · simp [h]
        · have : (n == name) = false := by simpa using h
          simp [List.lookup_cons, this, h]
      · next hne =>
        rw [List.lookup_cons, List.lookup_cons, ih hs]
        by_cases hk : n = k
        · have : k ≠ name := fun h => hne h.symm
          simp [hk, this]
        · have : (n == k) = false := by simpa using hk
          simp [this]

/-! ## Replacing values -/

theorem get?_map (f : α → β) (m : NameMap α) (name : String) : (m.map f).get? name = (m.get? name).map f := by
  unfold get? map
  simp only
  induction m.toList with
  | nil => rfl
  | cons e rest ih =>
    rw [List.map_cons, List.lookup_cons, List.lookup_cons, ih]
    cases name == e.1 <;> rfl

end NameMap

end Statewise
