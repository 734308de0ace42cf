import Statewise.Number.Binary64
import Statewise.Value
import Mathlib

/-!
# Integers as doubles

`Int64.toDouble` rounds to the nearest double, to the even one of two. This file says which double that
is, as a mantissa of 53 bits and an exponent, and derives that widening keeps the order: it commutes with
the smaller and the greater of two numbers. `Float.ofInt` finds the same double, which is therefore finite
for every integer of 64 bits.
-/

namespace Statewise

namespace Widening

open Float.Model (Format)
open Float.Model.UnpackedFloat (ExtendedMantissa Sign shiftToTargetExponent roundWithAccuracy decreaseExponent)

/-! ## Dropping bits -/

/-- `x / 2 ^ s`, rounded to the nearest whole number and to the even one of two. -/
def halfEven (x s : Nat) : Nat :=
  x / 2 ^ s + if 2 ^ s < 2 * (x % 2 ^ s) ∨ 2 * (x % 2 ^ s) = 2 ^ s ∧ x / 2 ^ s % 2 = 1 then 1 else 0

theorem div_le_halfEven (x s : Nat) : x / 2 ^ s ≤ halfEven x s := Nat.le_add_right _ _

theorem halfEven_le (x s : Nat) : halfEven x s ≤ x / 2 ^ s + 1 := by
  unfold halfEven
  split <;> omega

theorem halfEven_mono (s : Nat) {x y : Nat} (h : x ≤ y) : halfEven x s ≤ halfEven y s := by
  have hq : x / 2 ^ s ≤ y / 2 ^ s := Nat.div_le_div_right h
  -- Numbers with different quotients cannot overtake each other, since rounding adds one at most.
  rcases Nat.lt_or_ge (x / 2 ^ s) (y / 2 ^ s) with hlt | hge
  · exact (halfEven_le x s).trans (hlt.trans_le (div_le_halfEven y s))
  · have heq : x / 2 ^ s = y / 2 ^ s := by omega
    have hr : x % 2 ^ s ≤ y % 2 ^ s := by
      have hx := Nat.div_add_mod x (2 ^ s)
      have hy := Nat.div_add_mod y (2 ^ s)
      rw [heq] at hx
      omega
    unfold halfEven
    rw [heq]
    split <;> split <;> omega

/-- Bits that are all zero are dropped without a trace. -/
theorem halfEven_mul (x s i : Nat) : halfEven (x * 2 ^ i) (s + i) = halfEven x s := by
  have hi : 0 < 2 ^ i := Nat.two_pow_pos i
  have hdiv : x * 2 ^ i / 2 ^ (s + i) = x / 2 ^ s := by
    rw [pow_add, Nat.mul_div_mul_right _ _ hi]
  have hmod : x * 2 ^ i % 2 ^ (s + i) = x % 2 ^ s * 2 ^ i := by
    rw [pow_add, Nat.mul_mod_mul_right]
  have hlt : 2 ^ (s + i) < 2 * (x % 2 ^ s * 2 ^ i) ↔ 2 ^ s < 2 * (x % 2 ^ s) := by
    rw [pow_add, ← Nat.mul_assoc, Nat.mul_lt_mul_right hi]
  have heq : 2 * (x % 2 ^ s * 2 ^ i) = 2 ^ (s + i) ↔ 2 * (x % 2 ^ s) = 2 ^ s := by
    rw [pow_add, ← Nat.mul_assoc, Nat.mul_left_inj hi.ne']
  unfold halfEven
  rw [hdiv, hmod, if_congr (or_congr hlt (and_congr_left' heq)) rfl rfl]

/-- Nothing is rounded if no bits are dropped. -/
theorem halfEven_zero (x : Nat) : halfEven x 0 = x := by
  simp [halfEven, Nat.mod_one]

/-- The mantissa of `x / 2 ^ s` with its residual bits. -/
def extended (x s : Nat) : ExtendedMantissa :=
  ⟨x / 2 ^ s, decide (2 ^ s ≤ 2 * (x % 2 ^ s)), decide (2 * (x % 2 ^ s) % 2 ^ s ≠ 0)⟩

theorem extended_zero (x : Nat) : extended x 0 = ⟨x, false, false⟩ := by
  simp [extended, Nat.mod_one]

theorem shiftRightOne_extended (x s : Nat) : (extended x s).shiftRightOne = extended x (s + 1) := by
  have hr : x % 2 ^ s < 2 ^ s := Nat.mod_lt _ (Nat.two_pow_pos s)
  have hx : x % 2 ^ (s + 1) = x % 2 ^ s + 2 ^ s * (x / 2 ^ s % 2) := by
    rw [pow_succ, Nat.mod_mul]
  have hm : 2 * (x % 2 ^ (s + 1)) % 2 ^ (s + 1) = 2 * (x % 2 ^ s) := by
    rw [hx, pow_succ]
    rcases Nat.mod_two_eq_zero_or_one (x / 2 ^ s) with h | h
    · rw [h, Nat.mul_zero, Nat.add_zero, Nat.mod_eq_of_lt (by omega)]
    · rw [h, show 2 * (x % 2 ^ s + 2 ^ s * 1) = 2 * (x % 2 ^ s) + 2 ^ s * 2 by omega, Nat.add_mod_right,
        Nat.mod_eq_of_lt (by omega)]
  have hdiv : x / 2 ^ s / 2 = x / 2 ^ (s + 1) := by rw [Nat.div_div_eq_div_mul, pow_succ]
  have hround : (x / 2 ^ s % 2 != 0) = decide (2 ^ (s + 1) ≤ 2 * (x % 2 ^ (s + 1))) := by
    rw [hx, pow_succ]
    rcases Nat.mod_two_eq_zero_or_one (x / 2 ^ s) with h | h
    · rw [h, decide_eq_false (by omega)]; rfl
    · rw [h, decide_eq_true (by omega)]; rfl
  have hsticky : (decide (2 ^ s ≤ 2 * (x % 2 ^ s)) || decide (2 * (x % 2 ^ s) % 2 ^ s ≠ 0)) =
      decide (2 * (x % 2 ^ (s + 1)) % 2 ^ (s + 1) ≠ 0) := by
    rw [hm, ← Bool.decide_or, decide_eq_decide]
    rcases Nat.lt_or_ge (2 * (x % 2 ^ s)) (2 ^ s) with h | h
    · rw [Nat.mod_eq_of_lt h]; omega
    · omega
  simp only [extended, ExtendedMantissa.shiftRightOne, hdiv, hround, hsticky]

theorem shiftRight_exact (x s : Nat) :
    ExtendedMantissa.ofMantissaAndAccuracy x .exact >>> s = extended x s := by
  induction s with
  | zero => rw [extended_zero]; rfl
  | succ s ih => rw [← shiftRightOne_extended, ← ih]; rfl

theorem roundedMantissa_extended (x s : Nat) : (extended x s).roundedMantissa = halfEven x s := by
  have hr : x % 2 ^ s < 2 ^ s := Nat.mod_lt _ (Nat.two_pow_pos s)
  unfold extended halfEven
  generalize x / 2 ^ s = q
  generalize x % 2 ^ s = r at *
  generalize 2 ^ s = p at *
  -- Below the half, at the half, where the parity decides, and above it.
  rcases Nat.lt_trichotomy (2 * r) p with h | h | h
  · have hup : ¬(p < 2 * r ∨ 2 * r = p ∧ q % 2 = 1) := by omega
    rw [if_neg hup, decide_eq_false (by omega : ¬p ≤ 2 * r)]
    cases decide (2 * r % p ≠ 0) <;> rfl
  · have hmod : ¬(2 * r % p ≠ 0) := by rw [h, Nat.mod_self]; simp
    rw [decide_eq_true (by omega : p ≤ 2 * r), decide_eq_false hmod]
    rcases Nat.mod_two_eq_zero_or_one q with hq | hq
    · rw [if_neg (by omega)]
      exact congrArg (q + ·) hq
    · rw [if_pos (by omega)]
      exact congrArg (q + ·) hq
  · have hmod : 2 * r % p ≠ 0 := by
      rw [Nat.mod_eq_sub_mod (by omega), Nat.mod_eq_of_lt (by omega)]; omega
    rw [if_pos (Or.inl h), decide_eq_true (by omega : p ≤ 2 * r), decide_eq_true hmod]
    rfl

/-! ## The mantissa and the exponent -/

/-- The number, scaled to 53 bits and rounded. It is `2 ^ 53` if rounding carries into one more bit. -/
def significand (k : Nat) : Nat := halfEven (k * 2 ^ 52) k.log2

/-- The mantissa of the double nearest to a number. -/
def mantissa (k : Nat) : Nat := if significand k = 2 ^ 53 then 2 ^ 52 else significand k

/-- The exponent of the double nearest to a number. -/
def exponent (k : Nat) : Int := if significand k = 2 ^ 53 then k.log2 - 51 else k.log2 - 52

theorem significand_bounds {k : Nat} (hk : k ≠ 0) : 2 ^ 52 ≤ significand k ∧ significand k ≤ 2 ^ 53 := by
  have hlow : 2 ^ k.log2 ≤ k := Nat.log2_self_le hk
  have hhigh : k < 2 ^ (k.log2 + 1) := Nat.lt_log2_self
  have hpos : 0 < 2 ^ k.log2 := Nat.two_pow_pos _
  have hge : 2 ^ 52 ≤ k * 2 ^ 52 / 2 ^ k.log2 := by
    rw [Nat.le_div_iff_mul_le hpos, Nat.mul_comm]
    exact Nat.mul_le_mul_right _ hlow
  have hlt : k * 2 ^ 52 / 2 ^ k.log2 < 2 ^ 53 := by
    rw [Nat.div_lt_iff_lt_mul hpos]
    rw [pow_succ] at hhigh
    omega
  have := div_le_halfEven (k * 2 ^ 52) k.log2
  have := halfEven_le (k * 2 ^ 52) k.log2
  unfold significand
  omega

theorem mantissa_bounds {k : Nat} (hk : k ≠ 0) : 2 ^ 52 ≤ mantissa k ∧ mantissa k < 2 ^ 53 := by
  have := significand_bounds hk
  unfold mantissa
  split <;> omega

theorem mantissa_pos {k : Nat} (hk : k ≠ 0) : 0 < mantissa k := by
  have := mantissa_bounds hk
  omega

/-- A number of at most 53 bits is its own mantissa, up to zeros at the end. -/
theorem mantissa_exponent_of_lt {k : Nat} (h0 : k ≠ 0) (hk : k < 2 ^ 53) :
    mantissa k = k * 2 ^ (52 - k.log2) ∧ exponent k = (k.log2 : Int) - 52 := by
  have hlog : k.log2 < 53 := (Nat.log2_lt h0).mpr hk
  have hsig : significand k = k * 2 ^ (52 - k.log2) := by
    have hsplit : k * 2 ^ 52 = k * 2 ^ (52 - k.log2) * 2 ^ k.log2 := by
      rw [Nat.mul_assoc, ← pow_add, Nat.sub_add_cancel (by omega)]
    have hdrop := halfEven_mul (k * 2 ^ (52 - k.log2)) 0 k.log2
    rw [Nat.zero_add, halfEven_zero] at hdrop
    unfold significand
    rw [hsplit, hdrop]
  have hne : significand k ≠ 2 ^ 53 := by
    have hlt : k * 2 ^ (52 - k.log2) < 2 ^ (k.log2 + 1) * 2 ^ (52 - k.log2) :=
      Nat.mul_lt_mul_of_pos_right Nat.lt_log2_self (Nat.two_pow_pos _)
    rw [← pow_add, show k.log2 + 1 + (52 - k.log2) = 53 by omega] at hlt
    omega
  unfold mantissa exponent
  rw [if_neg hne, if_neg hne]
  exact ⟨hsig, rfl⟩

theorem exponent_bounds {k : Nat} (hk : k < 2 ^ 64) : -52 ≤ exponent k ∧ exponent k ≤ 12 := by
  have hlog : k.log2 < 64 := by
    by_cases h : k = 0
    · subst h; decide
    · exact (Nat.log2_lt h).mpr hk
  unfold exponent
  split <;> omega

/-- A greater number has no smaller exponent, and with the same exponent no smaller mantissa. -/
theorem mantissa_exponent_mono {a b : Nat} (ha : a ≠ 0) (h : a ≤ b) :
    exponent a < exponent b ∨ exponent a = exponent b ∧ mantissa a ≤ mantissa b := by
  have hb : b ≠ 0 := by omega
  have hlog : a.log2 ≤ b.log2 := (Nat.le_log2 hb).mpr ((Nat.log2_self_le ha).trans h)
  have hsa := significand_bounds ha
  have hsb := significand_bounds hb
  have hmono : a.log2 = b.log2 → significand a ≤ significand b := by
    intro heq
    unfold significand
    rw [heq]
    exact halfEven_mono _ (Nat.mul_le_mul_right _ h)
  unfold exponent mantissa
  rcases Nat.lt_or_ge a.log2 b.log2 with hlt | hge
  · split <;> split <;> omega
  · have := hmono (by omega)
    split <;> split <;> omega

/-! ## Rounding a whole number -/

/-- Shifting a number to 53 bits. -/
theorem shiftToTargetExponent_exact {x : Nat} {e : Int} (he : -1000 ≤ e) :
    shiftToTargetExponent .binary64 x e .exact =
      (extended x (x.log2 - 52), e + ((x.log2 - 52 : Nat) : Int)) := by
  have hshift : (Format.binary64.targetExponent (Float.Model.totalExponent x e) - e).toNat = x.log2 - 52 := by
    have hbits : Format.binary64.mantissaBits = 53 := rfl
    have hmin : Format.binary64.minExponent = -1074 := rfl
    unfold Format.targetExponent Float.Model.totalExponent
    rw [hbits, hmin]
    omega
  unfold shiftToTargetExponent Float.Model.UnpackedFloat.shiftToExponent
  simp only [hshift, shiftRight_exact]

theorem log2_significand {k : Nat} (hk : k ≠ 0) :
    (significand k).log2 = if significand k = 2 ^ 53 then 53 else 52 := by
  have hb := significand_bounds hk
  split
  · next h => rw [h, Nat.log2_two_pow]
  · exact (Nat.log2_eq_iff (by omega)).mpr (by omega)

/-- A number of at least 53 bits is rounded once; a carry moves one bit into the exponent. -/
theorem roundWithAccuracy_exact (s : Sign) {x : Nat} {e : Int} (he : -1000 ≤ e) {k : Nat} (hk : k ≠ 0)
    (hsig : halfEven x (x.log2 - 52) = significand k) (hexp : e + ((x.log2 - 52 : Nat) : Int) = k.log2 - 52) :
    roundWithAccuracy .binary64 s x e .exact = .finite s (mantissa k) (exponent k) (mantissa_pos hk) := by
  -- The number is shifted and rounded, and shifted again in case rounding has carried.
  have hfirst := shiftToTargetExponent_exact (x := x) he
  have hsecond := shiftToTargetExponent_exact (x := significand k) (e := (k.log2 - 52 : Int)) (by omega)
  have hlog := log2_significand hk
  have hm : (extended (significand k) ((significand k).log2 - 52)).mantissa = mantissa k := by
    unfold extended mantissa
    rw [hlog]
    split
    · next h =>
      have : 2 ^ 53 / 2 ^ (53 - 52) = 2 ^ 52 := by norm_num
      rw [h, ← this]
    · rw [Nat.sub_self, pow_zero, Nat.div_one]
  have hx : (k.log2 - 52 : Int) + (((significand k).log2 - 52 : Nat) : Int) = exponent k := by
    unfold exponent
    rw [hlog]
    split <;> omega
  rw [hexp] at hfirst
  rw [hx] at hsecond
  unfold roundWithAccuracy
  rw [hfirst]
  simp only [roundedMantissa_extended, hsig, hsecond, hm, dif_neg (mantissa_pos hk).ne']

theorem log2_mul_two_pow {k : Nat} (hk : k ≠ 0) (i : Nat) : (k * 2 ^ i).log2 = k.log2 + i := by
  have hlow : 2 ^ k.log2 ≤ k := Nat.log2_self_le hk
  have hhigh : k < 2 ^ (k.log2 + 1) := Nat.lt_log2_self
  have hpos : 0 < 2 ^ i := Nat.two_pow_pos i
  refine (Nat.log2_eq_iff (Nat.mul_ne_zero hk hpos.ne')).mpr ⟨?_, ?_⟩
  · rw [pow_add]
    exact Nat.mul_le_mul_right _ hlow
  · rw [Nat.add_right_comm, pow_add]
    exact Nat.mul_lt_mul_of_pos_right hhigh hpos

/-- A number with at least 52 zeros behind it is rounded as the number itself. -/
theorem roundWithAccuracy_scaled (s : Sign) {k : Nat} (hk : k ≠ 0) {i : Nat} (hlow : 52 ≤ i) (hhigh : i ≤ 1000) :
    roundWithAccuracy .binary64 s (k * 2 ^ i) (-(i : Int)) .exact =
      .finite s (mantissa k) (exponent k) (mantissa_pos hk) := by
  have hlog : (k * 2 ^ i).log2 - 52 = k.log2 + (i - 52) := by
    rw [log2_mul_two_pow hk]
    omega
  have hsplit : k * 2 ^ i = k * 2 ^ 52 * 2 ^ (i - 52) := by
    rw [Nat.mul_assoc, ← pow_add, Nat.add_sub_cancel' hlow]
  refine roundWithAccuracy_exact s (by omega) hk ?_ ?_
  · rw [hlog, hsplit, halfEven_mul]
    rfl
  · rw [hlog]
    omega

/-- The double nearest to a positive number. -/
theorem round_eq (s : Sign) {k : Nat} (hk : k ≠ 0) :
    Float.Model.UnpackedFloat.round .binary64 s k 0 = .finite s (mantissa k) (exponent k) (mantissa_pos hk) := by
  have hbits : Format.binary64.mantissaBits = 53 := rfl
  have hmin : Format.binary64.minExponent = -1074 := rfl
  have htarget : Format.binary64.targetExponent (Float.Model.totalExponent k 0) = (k.log2 : Int) - 52 := by
    unfold Format.targetExponent Float.Model.totalExponent
    rw [hbits, hmin]
    omega
  have hshift : (0 - ((k.log2 : Int) - 52)).toNat = 52 - k.log2 := by omega
  have hlog : (k * 2 ^ (52 - k.log2)).log2 - 52 = k.log2 - 52 := by
    rw [log2_mul_two_pow hk]
    omega
  have hsig : halfEven (k * 2 ^ (52 - k.log2)) (k.log2 - 52) = significand k := by
    have hpow : 52 - k.log2 + (52 - (52 - k.log2)) = 52 := by omega
    have hdrop : k.log2 - 52 + (52 - (52 - k.log2)) = k.log2 := by omega
    rw [← halfEven_mul _ _ (52 - (52 - k.log2)), Nat.mul_assoc, ← pow_add, hpow, hdrop]
    rfl
  unfold Float.Model.UnpackedFloat.round decreaseExponent
  simp only [htarget, hshift, Nat.shiftLeft_eq]
  refine roundWithAccuracy_exact s (by omega) hk ?_ ?_
  · rw [hlog, hsig]
  · rw [hlog]
    omega

/-! ## Packing -/

/-- A number of 53 bits with an exponent in the middle of the range is packed as a normal number. -/
theorem pack_finite (s : Sign) {m : Nat} {e : Int} (hm : 0 < m) (hlow : 2 ^ 52 ≤ m) (hhigh : m < 2 ^ 53)
    (he : -52 ≤ e ∧ e ≤ 12) :
    Float.Model.UnpackedFloat.pack .binary64 (.finite s m e hm) =
      Float.Model.UnpackedFloat.packComponents .binary64 s (BitVec.ofNat _ (e + 1075).toNat) (BitVec.ofNat _ m) := by
  have hlog : m.log2 + 1 = Format.binary64.mantissaBits := by
    have : m.log2 = 52 := (Nat.log2_eq_iff hm.ne').mpr ⟨hlow, hhigh⟩
    rw [this]
    rfl
  have hbias : e + Format.binary64.exponentBias + Format.binary64.mantissaBitsWithoutImplicit = e + 1075 := by
    have hoffset : Format.binary64.exponentBias = 1023 := rfl
    have hbits : Format.binary64.mantissaBitsWithoutImplicit = 52 := rfl
    rw [hoffset, hbits]
    omega
  have hfit : ¬2 ^ Format.binary64.exponentBits ≤ (e + 1075).toNat + 1 := by
    have : 2 ^ Format.binary64.exponentBits = 2048 := rfl
    rw [this]
    omega
  simp only [Float.Model.UnpackedFloat.pack, hbias, hlog, if_neg hfit, if_true]

/-- Two different numbers of 11 bits are different fields. -/
theorem ofNat_ne_of_lt {k : Nat} {b : BitVec 11} (hk : k < 2048) (h : k ≠ b.toNat) : BitVec.ofNat 11 k ≠ b := by
  rintro rfl
  rw [BitVec.toNat_ofNat, Nat.mod_eq_of_lt hk] at h
  exact h rfl

/-- The bit that is not stored comes back in front of the others. -/
theorem toNat_hiddenBit_append {m : Nat} (hlow : 2 ^ 52 ≤ m) (hhigh : m < 2 ^ 53) :
    (1#1 ++ BitVec.ofNat 52 m).toNat = m := by
  have hmod : m % 2 ^ 52 = m - 2 ^ 52 := by
    rw [Nat.mod_eq_sub_mod hlow, Nat.mod_eq_of_lt (by omega)]
  rw [BitVec.toNat_append, BitVec.toNat_ofNat, BitVec.toNat_ofNat, hmod, Nat.shiftLeft_eq, Nat.mul_comm,
    ← Nat.two_pow_add_eq_or_of_lt (by omega : m - 2 ^ 52 < 2 ^ 52)]
  omega

/-- Such a number is packed without loss. -/
theorem unpack_pack_finite (s : Sign) {m : Nat} {e : Int} (hm : 0 < m) (hlow : 2 ^ 52 ≤ m) (hhigh : m < 2 ^ 53)
    (he : -52 ≤ e ∧ e ≤ 12) :
    (Float.Model.pack (.finite s m e hm)).unpack = .finite s m e hm := by
  have hfield : (e + 1075).toNat < 2048 := by omega
  have hlast : BitVec.ofNat 11 (e + 1075).toNat ≠ -1#11 := by
    refine ofNat_ne_of_lt hfield ?_
    rw [show (-1#11).toNat = 2047 from rfl]
    omega
  have hfirst : BitVec.ofNat 11 (e + 1075).toNat ≠ 0#11 := by
    refine ofNat_ne_of_lt hfield ?_
    rw [show (0#11).toNat = 0 from rfl]
    omega
  have hexp : ((BitVec.ofNat 11 (e + 1075).toNat).toNat : Int) -
      (Format.binary64.exponentBias + Format.binary64.mantissaBitsWithoutImplicit) = e := by
    have hoffset : Format.binary64.exponentBias = 1023 := rfl
    have hbits : Format.binary64.mantissaBitsWithoutImplicit = 52 := rfl
    rw [BitVec.toNat_ofNat, Nat.mod_eq_of_lt hfield, hoffset, hbits]
    omega
  unfold Float.Model.pack Float.Model.unpack Float.Model.UnpackedFloat.unpack
  simp only [pack_finite s hm hlow hhigh he, Float.Model.UnpackedFloat.unpackExponent_packComponents,
    Float.Model.UnpackedFloat.unpackMantissa_packComponents, Float.Model.UnpackedFloat.unpackSign_packComponents,
    Float.Model.UnpackedFloat.Sign.ofBitVec_toBitVec, hexp]
  rw [if_neg hlast, if_neg hfirst]
  simp only [toNat_hiddenBit_append hlow hhigh]

/-! ## Order -/

/-- The double nearest to an integer, taken apart. -/
def nearest (n : Int) : Float.Model.UnpackedFloat :=
  if h : n = 0 then .zero .positive
  else .finite (if n < 0 then .negative else .positive) (mantissa n.natAbs) (exponent n.natAbs)
    (mantissa_pos (Int.natAbs_ne_zero.mpr h))

theorem unpack_pack_nearest {n : Int} (h : n.natAbs < 2 ^ 64) :
    (Float.Model.pack (nearest n)).unpack = nearest n := by
  unfold nearest
  split
  · rfl
  · next hn =>
    have hb := mantissa_bounds (Int.natAbs_ne_zero.mpr hn)
    exact unpack_pack_finite _ _ hb.1 hb.2 (exponent_bounds h)

theorem nearest_natCast {n : Nat} (hn : n ≠ 0) :
    nearest n = .finite .positive (mantissa n) (exponent n) (mantissa_pos hn) := by
  unfold nearest
  rw [dif_neg (by omega), if_neg (by omega)]
  rfl

theorem neg_nearest {n : Nat} (hn : n ≠ 0) : (nearest n).neg = nearest (-(n : Int)) := by
  rw [nearest_natCast hn]
  unfold nearest
  rw [dif_neg (by omega), if_pos (by omega)]
  simp only [Int.natAbs_neg, Int.natAbs_natCast]
  rfl

theorem toFloat_eq (n : Nat) (h : n < 2 ^ 64) : (UInt64.ofNat n).toFloat = .ofModel (.pack (nearest n)) := by
  have hn : (UInt64.ofNat n).toNat = n := UInt64.toNat_ofNat_of_lt h
  unfold UInt64.toFloat Float.Model.ofUInt64 Float.Model.UnpackedFloat.ofUInt64 Float.Model.UnpackedFloat.ofNat
    Float.Model.UnpackedFloat.ofInt Float.Model.UnpackedFloat.normalize nearest
  rw [hn]
  by_cases h0 : n = 0
  · subst h0
    rfl
  · have hgt : compare (n : Int) 0 = .gt := by
      rw [Int.compare_eq_gt]
      omega
    simp only [hgt, Int.toNat_natCast, round_eq _ h0, Int.natAbs_natCast]
    rw [dif_neg (by omega), if_neg (by omega)]

theorem toDouble_eq (n : Int64) : n.toDouble = .ofModel (.pack (nearest n.toInt)) := by
  have hbounds := n.toInt_bounds
  have hlt : n.toInt.natAbs < 2 ^ 64 := by omega
  unfold Int64.toDouble
  simp only [toFloat_eq _ hlt]
  split
  · next hneg =>
    have hneg' : (nearest (n.toInt.natAbs : Int)).neg = nearest n.toInt := by
      rw [neg_nearest (by omega)]
      congr 1
      omega
    have hunpack : (Float.Model.pack (nearest (n.toInt.natAbs : Int))).unpack = nearest (n.toInt.natAbs : Int) :=
      unpack_pack_nearest (by rw [Int.natAbs_natCast]; exact hlt)
    rw [← hneg']
    exact congrArg (fun u => Float.ofModel (.pack u.neg)) hunpack
  · rw [Int.natAbs_of_nonneg (by omega)]

theorem compare_finite {a b : Nat} (ha : a ≠ 0) (h : a ≤ b) :
    exponent a = exponent b ∧ mantissa a = mantissa b ∨
      (compare (exponent a) (exponent b)).then (compare (mantissa a) (mantissa b)) = .lt ∧
        (compare (exponent b) (exponent a)).then (compare (mantissa b) (mantissa a)) = .gt := by
  rcases mantissa_exponent_mono ha h with he | ⟨he, hm⟩
  · right
    rw [Int.compare_eq_lt.mpr he, Int.compare_eq_gt.mpr he]
    exact ⟨rfl, rfl⟩
  · rcases Nat.lt_or_eq_of_le hm with hlt | heq
    · right
      rw [he, Int.compare_eq_eq.mpr rfl, Nat.compare_eq_lt.mpr hlt, Nat.compare_eq_gt.mpr hlt]
      exact ⟨rfl, rfl⟩
    · exact Or.inl ⟨he, heq⟩

theorem compare_nearest {a b : Int} (h : a ≤ b) :
    nearest a = nearest b ∨
      (nearest a).compare (nearest b) = some .lt ∧ (nearest b).compare (nearest a) = some .gt := by
  unfold nearest
  by_cases ha : a = 0 <;> by_cases hb : b = 0
  · rw [dif_pos ha, dif_pos hb]
    exact Or.inl rfl
  · rw [dif_pos ha, dif_neg hb, if_neg (by omega)]
    exact Or.inr ⟨rfl, rfl⟩
  · rw [dif_neg ha, dif_pos hb, if_pos (by omega)]
    exact Or.inr ⟨rfl, rfl⟩
  · rw [dif_neg ha, dif_neg hb]
    by_cases hna : a < 0 <;> by_cases hnb : b < 0
    · simp only [if_pos hna, if_pos hnb, Float.Model.UnpackedFloat.compare]
      rcases compare_finite (Int.natAbs_ne_zero.mpr hb) (by omega : a.natAbs ≥ b.natAbs) with
        ⟨he, hm⟩ | ⟨hlt, hgt⟩
      · left
        simp only [he, hm]
      · right
        rw [hlt, hgt]
        exact ⟨rfl, rfl⟩
    · simp only [if_pos hna, if_neg hnb]
      exact Or.inr ⟨rfl, rfl⟩
    · omega
    · simp only [if_neg hna, if_neg hnb, Float.Model.UnpackedFloat.compare]
      rcases compare_finite (Int.natAbs_ne_zero.mpr ha) (by omega : a.natAbs ≤ b.natAbs) with
        ⟨he, hm⟩ | ⟨hlt, hgt⟩
      · left
        simp only [he, hm]
      · right
        rw [hlt, hgt]
        exact ⟨rfl, rfl⟩

theorem isNaN_toDouble (n : Int64) : n.toDouble.isNaN = false := by
  have hbounds := n.toInt_bounds
  rw [toDouble_eq]
  have hunpack : (Float.Model.pack (nearest n.toInt)).unpack = nearest n.toInt := unpack_pack_nearest (by omega)
  unfold Float.isNaN Float.Model.isNaN
  simp only [hunpack]
  unfold nearest
  split <;> rfl

/-- The float order, read off the parts. -/
theorem toDouble_lt_iff (a b : Int64) :
    a.toDouble < b.toDouble ↔ (nearest a.toInt).compare (nearest b.toInt) = some .lt := by
  have hha := a.toInt_bounds
  have hhb := b.toInt_bounds
  have ha : (Float.Model.pack (nearest a.toInt)).unpack = nearest a.toInt := unpack_pack_nearest (by omega)
  have hb : (Float.Model.pack (nearest b.toInt)).unpack = nearest b.toInt := unpack_pack_nearest (by omega)
  rw [toDouble_eq, toDouble_eq]
  show decide ((Float.Model.lt _ _) = true) = true ↔ _
  rw [decide_eq_true_iff]
  unfold Float.Model.lt
  rw [ha, hb]
  unfold Float.Model.UnpackedFloat.lt
  exact beq_iff_eq

/-- Widening keeps the order, up to numbers that round to one double. -/
theorem toDouble_mono {a b : Int64} (h : a ≤ b) :
    a.toDouble = b.toDouble ∨ a.toDouble < b.toDouble ∧ ¬b.toDouble < a.toDouble := by
  rcases compare_nearest (Int64.le_iff_toInt_le.mp h) with heq | ⟨hlt, hgt⟩
  · left
    rw [toDouble_eq, toDouble_eq, heq]
  · right
    rw [toDouble_lt_iff, toDouble_lt_iff, hlt, hgt]
    simp

/-- Widening commutes with the smaller of two numbers. -/
theorem toDouble_min (a b : Int64) : (min a b).toDouble = a.toDouble.lesser b.toDouble := by
  unfold Float.lesser
  rw [isNaN_toDouble, isNaN_toDouble, if_neg Bool.false_ne_true, if_neg Bool.false_ne_true]
  by_cases h : a ≤ b
  · rw [show min a b = a from if_pos h]
    rcases toDouble_mono h with heq | ⟨-, hnot⟩
    · rw [heq, ite_self]
    · rw [if_neg hnot]
  · rw [show min a b = b from if_neg h]
    rcases toDouble_mono (Int64.le_of_lt (Int64.not_le.mp h)) with heq | ⟨hlt, -⟩
    · rw [heq, ite_self]
    · rw [if_pos hlt]

/-- Widening commutes with the greater of two numbers. -/
theorem toDouble_max (a b : Int64) : (max a b).toDouble = a.toDouble.greater b.toDouble := by
  unfold Float.greater
  rw [isNaN_toDouble, isNaN_toDouble, if_neg Bool.false_ne_true, if_neg Bool.false_ne_true]
  by_cases h : a ≤ b
  · rw [show max a b = b from if_pos h]
    rcases toDouble_mono h with heq | ⟨hlt, -⟩
    · rw [heq, ite_self]
    · rw [if_pos hlt]
  · rw [show max a b = a from if_neg h]
    rcases toDouble_mono (Int64.le_of_lt (Int64.not_le.mp h)) with heq | ⟨-, hnot⟩
    · rw [heq, ite_self]
    · rw [if_neg hnot]

/-! ## Integers of either sign -/

/-- Below `2 ^ 53`, a number is multiplied by one as a double. -/
theorem mul_one_eq {n : Nat} (hn : n < 2 ^ 53) :
    (nearest n).mul .binary64 (.finite .positive (2 ^ 52) (-52) (by decide)) = nearest n := by
  by_cases h0 : n = 0
  · subst h0
    rfl
  · have hlog : n.log2 < 53 := (Nat.log2_lt h0).mpr hn
    have hparts := mantissa_exponent_of_lt h0 hn
    have hm : mantissa n * 2 ^ 52 = n * 2 ^ (104 - n.log2) := by
      rw [hparts.1, Nat.mul_assoc, ← pow_add, show 52 - n.log2 + 52 = 104 - n.log2 by omega]
    have he : exponent n + -52 = -((104 - n.log2 : Nat) : Int) := by
      rw [hparts.2]
      omega
    rw [nearest_natCast h0]
    show roundWithAccuracy .binary64 .positive (mantissa n * 2 ^ 52) (exponent n + -52) .exact = _
    rw [hm, he, roundWithAccuracy_scaled _ h0 (by omega) (by omega)]

/-- From `2 ^ 53` on, a number is rounded after 53 zeros have been put behind it. -/
theorem ofScientific_eq {n : Nat} (hn : n ≠ 0) :
    Float.Model.UnpackedFloat.ofScientific .binary64 n 0 = nearest n := by
  have hrange : ¬(0 : Int) < -((2 ^ Format.binary64.exponentBits : Int) + n.log2) := by
    have : (2 ^ Format.binary64.exponentBits : Int) = 2048 := rfl
    omega
  unfold Float.Model.UnpackedFloat.ofScientific
  rw [dif_neg hn, if_neg (by decide), if_neg hrange, if_pos (Int.le_refl 0), nearest_natCast hn]
  show roundWithAccuracy .binary64 .positive (n <<< 53 * 1) (-53 + 0) .exact = _
  rw [Nat.mul_one, Int.add_zero, Nat.shiftLeft_eq]
  exact roundWithAccuracy_scaled _ hn (by omega) (by omega)

theorem ofNat_eq {n : Nat} (h : n < 2 ^ 64) : Float.ofNat n = .ofModel (.pack (nearest n)) := by
  show Float.ofScientific n false 0 = _
  unfold Float.ofScientific
  by_cases hsmall : n < 2 ^ 53
  · rw [dif_pos ⟨hsmall, by omega⟩, if_neg Bool.false_ne_true]
    show (UInt64.ofNat n).toFloat * Float.ofBits 0x3FF0000000000000 = _
    have hone : (Float.Model.ofBits 0x3FF0000000000000).unpack = .finite .positive (2 ^ 52) (-52) (by decide) := rfl
    rw [toFloat_eq n h]
    show Float.ofModel (.pack ((Float.Model.pack (nearest n)).unpack.mul .binary64
      (Float.Model.ofBits 0x3FF0000000000000).unpack)) = _
    rw [unpack_pack_nearest (by omega), hone, mul_one_eq hsmall]
  · rw [dif_neg fun hc => hsmall hc.1]
    exact congrArg (fun u => Float.ofModel (.pack u)) (ofScientific_eq (by omega))

theorem ofInt_eq {n : Int} (h : n.natAbs < 2 ^ 64) : Float.ofInt n = .ofModel (.pack (nearest n)) := by
  cases n with
  | ofNat n => exact ofNat_eq h
  | negSucc n =>
    have hsucc : n + 1 < 2 ^ 64 := h
    show Float.neg (Float.ofNat (n + 1)) = _
    rw [ofNat_eq hsucc]
    show Float.ofModel (.pack (Float.Model.pack (nearest (n + 1 : Nat))).unpack.neg) = _
    rw [unpack_pack_nearest (by omega), neg_nearest (Nat.succ_ne_zero n)]
    rfl

/-- No integer of 64 bits, signed or unsigned, is too great for a double. -/
theorem isFinite_ofInt {n : Int} (h : n.natAbs < 2 ^ 64) : (Float.ofInt n).isFinite = true := by
  rw [ofInt_eq h]
  show (Float.Model.pack (nearest n)).unpack.isFinite = true
  rw [unpack_pack_nearest h]
  unfold nearest
  split <;> rfl

/-! ## Equality -/

/-- A double equals itself unless it is NaN. -/
theorem beq_self_or_isNaN (x : Float) : (x == x || x.isNaN) = true := by
  show ((x.toModel.unpack.compare x.toModel.unpack == some .eq) || x.toModel.unpack.isNaN) = true
  cases x.toModel.unpack with
  | infinity s => cases s <;> rfl
  | notANumber => rfl
  | zero s => cases s <;> rfl
  | finite s m e hm =>
    cases s <;> simp [Float.Model.UnpackedFloat.compare]

end Widening

/-- Equality of results is reflexive. -/
theorem Value.same_self (v : Value) : v.same v = true := by
  cases v with
  | bool b => exact beq_self_eq_true b
  | int n => exact beq_self_eq_true n
  | double x =>
    have := Widening.beq_self_or_isNaN x
    simpa [Value.same] using this

end Statewise
