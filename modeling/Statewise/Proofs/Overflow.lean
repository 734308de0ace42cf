import Statewise.Proofs.Reductions

/-!
# Where integers overflow

The operators on integers compute with whole numbers of any size and bring the result back to 64 bits, so that it is
either exact or refused as an overflow. A power is formed only where it can fit: bases of magnitude 0 and 1 are raised
to a small exponent of the same parity, and the others overflow at every exponent above 64. One thing remains inexact
(`integers_exact`): exponents of more than 32 bits count as an overflow, although the powers of -1, 0 and 1 always fit.
-/

namespace Statewise

open StateVector

namespace Value

/-! ## Exact results -/

/-- The result is the whole number `n` if that fits into 64 bits, and an overflow of the operation exactly if it does
not. -/
structure ComputesExactly (operation : String) (n : Int) (result : Except EvalError Value) : Prop where
  answers : ∀ x : Int64, result = .ok (.int x) ↔ x.toInt = n
  overflows : result = .error (.overflow operation) ↔ ¬FitsWord n

theorem ofExact_exact (operation : String) (n : Int) : ComputesExactly operation n (ofExact operation n) := by
  unfold ofExact
  cases hword : Int64.ofIntExact? n with
  | none =>
    have hfit : ¬FitsWord n := by
      have := Int64.ofIntExact?_eq_none_iff.mp hword
      unfold FitsWord
      omega
    refine ⟨fun x => iff_of_false nofun ?_, iff_of_true rfl hfit⟩
    rintro rfl
    exact hfit x.toInt_bounds
  | some w =>
    have hn : w.toInt = n := Int64.ofIntExact?_eq_some_iff.mp hword
    subst hn
    refine ⟨fun x => ?_, iff_of_false nofun fun hfit => hfit w.toInt_bounds⟩
    rw [Except.ok.injEq, Value.int.injEq, Int64.toInt_inj, eq_comm]

theorem ofExact_of_fits {n : Int} (h : FitsWord n) (operation : String) :
    ofExact operation n = .ok (.int (.ofInt n)) :=
  ((ofExact_exact operation n).answers _).mpr (Int64.toInt_ofInt_of_mem h)

theorem ofExact_of_not_fits {n : Int} (h : ¬FitsWord n) (operation : String) :
    ofExact operation n = .error (.overflow operation) :=
  (ofExact_exact operation n).overflows.mpr h

/-! ## Remainders -/

/-- The number from 0 to below `b` that differs from `a` by a multiple of `b`. -/
def IsResidue (a b r : Int) : Prop := 0 ≤ r ∧ r < b ∧ r ≡ a [ZMOD b]

instance (a b r : Int) : Decidable (IsResidue a b r) :=
  inferInstanceAs (Decidable (0 ≤ r ∧ r < b ∧ r ≡ a [ZMOD b]))

theorem isResidue_iff {a b r : Int} (hb : 0 < b) : IsResidue a b r ↔ r = a % b := by
  constructor
  · rintro ⟨hnonneg, hlt, hcongr⟩
    calc r = r % b := (Int.emod_eq_of_lt hnonneg hlt).symm
      _ = a % b := hcongr
  · rintro rfl
    exact ⟨Int.emod_nonneg a (Int.ne_of_gt hb), Int.emod_lt_of_pos a hb, Int.mod_modEq a b⟩

/-- A remainder is the only residue for a positive divisor, and refused for the others. -/
structure ComputesRemainder (a b : Int64) (result : Except EvalError Value) : Prop where
  exact : 0 < b → ∃ r, (∀ n, IsResidue a.toInt b.toInt n ↔ n = r) ∧ FitsWord r ∧ ComputesExactly "mod" r result
  zero : result = .error .moduloZero ↔ b = 0
  negative : ∀ d, result = .error (.negativeModulus d) ↔ b < 0 ∧ d = b

theorem intMod_exact (a b : Int64) : ComputesRemainder a b (intMod a b) := by
  unfold intMod
  have hzero : (0 : Int64).toInt = 0 := rfl
  by_cases hb : b = 0
  · subst hb
    rw [if_pos rfl]
    exact ⟨fun h => absurd h (by decide), by simp, fun d => iff_of_false nofun fun h => absurd h.1 (by decide)⟩
  · rw [if_neg hb]
    by_cases hneg : b < 0
    · rw [if_pos hneg]
      refine ⟨fun h => ?_, iff_of_false nofun hb, fun d => ?_⟩
      · rw [Int64.lt_iff_toInt_lt] at h hneg
        omega
      · rw [Except.error.injEq, EvalError.negativeModulus.injEq]
        exact ⟨fun h => ⟨hneg, h.symm⟩, fun h => h.2.symm⟩
    · rw [if_neg hneg]
      refine ⟨fun h => ?_, iff_of_false nofun hb, fun d => iff_of_false nofun fun h => hneg h.1⟩
      have hpos : 0 < b.toInt := Int64.lt_iff_toInt_lt.mp h
      have hresidue : IsResidue a.toInt b.toInt (a.toInt % b.toInt) := (isResidue_iff hpos).mpr rfl
      -- The residue is below a divisor that fits.
      have hfit : FitsWord (a.toInt % b.toInt) := by
        obtain ⟨hnonneg, hlt, -⟩ := hresidue
        have := b.toInt_bounds
        exact ⟨by omega, by omega⟩
      refine ⟨_, fun n => isResidue_iff hpos, hfit, ?_⟩
      rw [← ofExact_of_fits hfit "mod"]
      exact ofExact_exact "mod" _

/-! ## Powers -/

/-- Powers of -1, 0 and 1 depend on the parity of the exponent only, unless it is 0. -/
theorem pow_of_natAbs_le_one {m : Int} (hm : m.natAbs ≤ 1) (k : Nat) :
    m ^ (if k = 0 then 0 else 2 - k % 2) = m ^ k := by
  split
  · next hk => rw [hk]
  · next hk =>
    have hcases : m = 0 ∨ m = 1 ∨ m = -1 := by omega
    rcases hcases with rfl | rfl | rfl
    · rw [zero_pow (by omega), zero_pow hk]
    · rw [one_pow, one_pow]
    · rcases Nat.even_or_odd k with heven | hodd
      · rw [Nat.even_iff.mp heven, heven.neg_one_pow]
        rfl
      · rw [Nat.odd_iff.mp hodd, hodd.neg_one_pow]
        rfl

/-- Larger bases leave the 64 bits behind when the exponent is above 64. -/
theorem not_fits_pow {m : Int} {k : Nat} (hm : 2 ≤ m.natAbs) (hk : 64 < k) : ¬FitsWord (m ^ k) := by
  have hlarge : 2 ^ 64 ≤ (m ^ k).natAbs := by
    rw [Int.natAbs_pow]
    calc 2 ^ 64 ≤ 2 ^ k := Nat.pow_le_pow_right (by decide) (by omega)
      _ ≤ m.natAbs ^ k := Nat.pow_le_pow_left hm k
  rintro ⟨hlow, hhigh⟩
  omega

theorem fits_pow_of_natAbs_le_one {m : Int} (hm : m.natAbs ≤ 1) (k : Nat) : FitsWord (m ^ k) := by
  have hsmall : (m ^ k).natAbs ≤ 1 := by
    rw [Int.natAbs_pow]
    exact pow_le_one₀ (Nat.zero_le _) hm
  exact ⟨by omega, by omega⟩

/-- Up to exponents of 32 bits, a power is the exact one brought back to 64 bits. -/
theorem intPow_of_le {a b : Int64} (hb : 0 ≤ b) (hle : b.toInt ≤ 4294967295) :
    intPow a b = ofExact "pow" (a.toInt ^ b.toInt.toNat) := by
  have hnonneg : 0 ≤ b.toInt := Int64.le_iff_toInt_le.mp hb
  unfold intPow
  rw [if_neg (Int64.not_lt.mpr hb), if_neg (Int.not_lt.mpr hle)]
  by_cases hsmall : a.toInt.natAbs ≤ 1
  · rw [if_pos hsmall, ← pow_of_natAbs_le_one hsmall b.toInt.toNat]
    have hzero : b.toInt.toNat = 0 ↔ b.toInt = 0 := by omega
    simp only [hzero]
    rfl
  · rw [if_neg hsmall]
    by_cases hlong : 64 < b.toInt
    · rw [if_pos hlong, ofExact_of_not_fits (not_fits_pow (by omega) (by omega))]
    · rw [if_neg hlong]
      rfl

/-- Longer exponents count as an overflow. -/
theorem intPow_of_lt {a b : Int64} (hlt : 4294967295 < b.toInt) : intPow a b = .error (.overflow "pow") := by
  have hb : ¬b < 0 := fun h => by
    have : b.toInt < 0 := Int64.lt_iff_toInt_lt.mp h
    omega
  unfold intPow
  rw [if_neg hb, if_pos hlt]

theorem intPow_of_neg {a b : Int64} (hb : b < 0) : intPow a b = .error (.negativeExponent b) := if_pos hb

/-- A power to an exponent that is not negative is exact, but for those of -1, 0 and 1 to exponents of more than 32
bits; a negative exponent is refused. -/
structure ComputesPower (a b : Int64) (result : Except EvalError Value) : Prop where
  exact_iff : 0 ≤ b → (ComputesExactly "pow" (a.toInt ^ b.toInt.toNat) result ↔
    b.toInt ≤ 4294967295 ∨ 2 ≤ a.toInt.natAbs)
  long : 4294967295 < b.toInt → result = .error (.overflow "pow")
  negative : ∀ e, result = .error (.negativeExponent e) ↔ b < 0 ∧ e = b

theorem intPow_exact_iff {a b : Int64} (hb : 0 ≤ b) :
    ComputesExactly "pow" (a.toInt ^ b.toInt.toNat) (intPow a b) ↔ b.toInt ≤ 4294967295 ∨ 2 ≤ a.toInt.natAbs := by
  by_cases hle : b.toInt ≤ 4294967295
  · rw [intPow_of_le hb hle]
    exact iff_of_true (ofExact_exact "pow" _) (Or.inl hle)
  · have hlt : 4294967295 < b.toInt := Int.not_le.mp hle
    rw [intPow_of_lt hlt]
    constructor
    · -- The refusal is not exact where the power fits.
      intro h
      refine Or.inr (Nat.lt_of_not_le fun hsmall => ?_)
      exact h.overflows.mp rfl (fits_pow_of_natAbs_le_one hsmall _)
    · rintro (h | hlarge)
      · exact absurd h hle
      · have hover : ¬FitsWord (a.toInt ^ b.toInt.toNat) := not_fits_pow hlarge (by omega)
        rw [← ofExact_of_not_fits hover]
        exact ofExact_exact "pow" _

theorem intPow_computes (a b : Int64) : ComputesPower a b (intPow a b) := by
  refine ⟨intPow_exact_iff, intPow_of_lt, fun e => ?_⟩
  by_cases hb : b < 0
  · rw [intPow_of_neg hb, Except.error.injEq, EvalError.negativeExponent.injEq]
    exact ⟨fun h => ⟨hb, h.symm⟩, fun h => h.2.symm⟩
  · refine iff_of_false ?_ fun h => hb h.1
    have hb : 0 ≤ b := Int64.not_lt.mp hb
    by_cases hle : b.toInt ≤ 4294967295
    · rw [intPow_of_le hb hle]
      unfold ofExact
      split <;> nofun
    · rw [intPow_of_lt (Int.not_le.mp hle)]
      nofun

/-! ## All operations -/

/-- Sum, difference, product and negation are exact, remainders are the residues, and powers are exact as far as their
exponents have 32 bits or their bases a magnitude of 2 at least. -/
theorem integers_exact (a b : Int64) :
    ComputesExactly "+" (a.toInt + b.toInt) (applyBinary .plus (.int a) (.int b)) ∧
      ComputesExactly "-" (a.toInt - b.toInt) (applyBinary .minus (.int a) (.int b)) ∧
      ComputesExactly "*" (a.toInt * b.toInt) (applyBinary .times (.int a) (.int b)) ∧
      ComputesExactly "-" (-a.toInt) (applyUnary .minus (.int a)) ∧
      ComputesRemainder a b (applyFunction2 .mod (.int a) (.int b)) ∧
      ComputesPower a b (applyFunction2 .pow (.int a) (.int b)) :=
  ⟨ofExact_exact "+" _, ofExact_exact "-" _, ofExact_exact "*" _, ofExact_exact "-" _, intMod_exact a b,
    intPow_computes a b⟩

/-- The least word is a power of -2, its negation overflows, and its remainder by the greatest word is not negative. -/
theorem integers_exact_least :
    applyFunction2 .pow (.int (-2)) (.int 63) = .ok (.int (-9223372036854775808)) ∧
      applyUnary .minus (.int (-9223372036854775808)) = .error (.overflow "-") ∧
      applyFunction2 .mod (.int (-9223372036854775808)) (.int 9223372036854775807) =
        .ok (.int 9223372036854775806) := by
  obtain ⟨-, -, -, -, -, hpow⟩ := integers_exact (-2) 63
  obtain ⟨-, -, -, hneg, hmod, -⟩ := integers_exact (-9223372036854775808) 9223372036854775807
  refine ⟨?_, hneg.overflows.mpr (by decide), ?_⟩
  · exact (((hpow.exact_iff (by decide)).mpr (Or.inl (by decide))).answers _).mpr (by decide)
  · obtain ⟨r, hunique, -, hexact⟩ := hmod.exact (by decide)
    exact (hexact.answers _).mpr ((hunique _).mp (by decide))

/-- One to the exponent 4294967296 counts as an overflow, although it is 1. -/
theorem longPower_overflows :
    applyFunction2 .pow (.int 1) (.int 4294967296) = .error (.overflow "pow") ∧
      FitsWord ((1 : Int64).toInt ^ (4294967296 : Int64).toInt.toNat) ∧
      ¬ComputesExactly "pow" ((1 : Int64).toInt ^ (4294967296 : Int64).toInt.toNat)
        (applyFunction2 .pow (.int 1) (.int 4294967296)) := by
  have hpower : applyFunction2 .pow (.int 1) (.int 4294967296) = .error (.overflow "pow") := rfl
  have hfit : FitsWord ((1 : Int64).toInt ^ (4294967296 : Int64).toInt.toNat) := fits_pow_of_natAbs_le_one (by decide) _
  exact ⟨hpower, hfit, fun h => h.overflows.mp hpower hfit⟩

end Value

end Statewise
