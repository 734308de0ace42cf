/-!
# 64-bit integers

Arithmetic that may leave the 64-bit range is done on `Int` and brought back with
`Int64.ofIntExact?`, which has no answer outside the range; `Int64.saturate` stops at the nearer
end instead.
-/

namespace Int64

/-- The word that denotes `n`, if there is one. -/
def ofIntExact? (n : Int) : Option Int64 :=
  if -9223372036854775808 ≤ n ∧ n ≤ 9223372036854775807 then some (ofInt n) else none

/-- The word nearest to `n`. -/
def saturate (n : Int) : Int64 :=
  if n < -9223372036854775808 then minValue
  else if 9223372036854775807 < n then maxValue
  else ofInt n

theorem toInt_bounds (a : Int64) : -9223372036854775808 ≤ a.toInt ∧ a.toInt ≤ 9223372036854775807 :=
  ⟨by have := a.le_toInt; omega, by have := a.toInt_lt; omega⟩

theorem toInt_ofInt_of_mem {n : Int} (h : -9223372036854775808 ≤ n ∧ n ≤ 9223372036854775807) :
    (ofInt n).toInt = n :=
  toInt_ofInt_of_le (by omega) (by omega)

/-- Every word is brought back from the integer it denotes. -/
@[simp] theorem ofIntExact?_toInt (a : Int64) : ofIntExact? a.toInt = some a := by
  simp [ofIntExact?, toInt_bounds a]

/-- An answer denotes the integer asked for. -/
theorem ofIntExact?_eq_some_iff {n : Int} {a : Int64} : ofIntExact? n = some a ↔ a.toInt = n := by
  constructor
  · intro h
    unfold ofIntExact? at h
    split at h
    · next hn => rw [← Option.some.inj h, toInt_ofInt_of_mem hn]
    · cases h
  · rintro rfl; simp

/-- There is no answer exactly outside the range. -/
theorem ofIntExact?_eq_none_iff {n : Int} :
    ofIntExact? n = none ↔ n < -9223372036854775808 ∨ 9223372036854775807 < n := by
  unfold ofIntExact?
  split <;> simp <;> omega

end Int64
