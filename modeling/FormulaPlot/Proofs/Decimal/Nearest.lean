/-
The float nearest to a decimal.

A decimal is read in one of two ways.  Few digits and a small power of ten are turned into
floats exactly, and one operation on them rounds; otherwise the power of ten is a whole
number and the operation is on numbers of any size.  Both round once, so both give the
float that the decimal is near.

To say so, a float has to be put together from its sign and its magnitude and taken apart
again.  `Binary.ofFloat` takes it apart, by its bits.  Here it is shown to be what the
arithmetic of floats works on.
-/
import Mathlib
import FormulaPlot.Decimal.Reading
import FormulaPlot.Proofs.Number.Special
import FormulaPlot.Proofs.Number.Rounding

namespace FormulaPlot

open Float.Model (Format UnpackedFloat)
open Float.Model.UnpackedFloat

/-! ### Packing -/

section Packing

variable {s : Sign} {exponent : BitVec 11} {mantissa : BitVec 52} {m : ℕ} {e : ℤ}

/-- A biased exponent that is neither the least nor the greatest stands for a bit in front of the
mantissa. -/
theorem unpack_normal (hspecial : exponent.toNat < 2047) (hzero : 0 < exponent.toNat) :
    unpack Format.binary64 (packComponents Format.binary64 s exponent mantissa) =
      .finite s (2 ^ 52 + mantissa.toNat) (exponent.toNat - 1075) (by omega) := by
  have hspecial' : exponent ≠ -1#11 := by
    rw [ne_eq, ← BitVec.toNat_inj]
    show ¬ exponent.toNat = 2047
    omega
  have hzero' : exponent ≠ 0#11 := by
    rw [ne_eq, ← BitVec.toNat_inj]
    show ¬ exponent.toNat = 0
    omega
  have hfull : (1#1 ++ mantissa).toNat = 2 ^ 52 + mantissa.toNat := by
    rw [BitVec.toNat_append, ← Nat.shiftLeft_add_eq_or_of_lt mantissa.isLt]
    rfl
  unfold unpack
  simp only [unpackMantissa_packComponents, unpackExponent_packComponents,
    unpackSign_packComponents, Sign.ofBitVec_toBitVec, if_neg hspecial', if_neg hzero', hfull]
  rfl

theorem unpack_subnormal (hmantissa : 0 < mantissa.toNat) :
    unpack Format.binary64 (packComponents Format.binary64 s 0#11 mantissa) =
      .finite s mantissa.toNat (-1074) hmantissa := by
  have hne : mantissa ≠ 0#52 := by
    rw [ne_eq, ← BitVec.toNat_inj]
    show ¬ mantissa.toNat = 0
    omega
  have hspecial : (0#11 : BitVec 11) ≠ -1#11 := by decide
  unfold unpack
  simp only [unpackMantissa_packComponents, unpackExponent_packComponents,
    unpackSign_packComponents, Sign.ofBitVec_toBitVec, if_neg hspecial, dif_neg hne]
  rfl

theorem pack_finite (hpos : 0 < m) (hmost : e ≤ 971) :
    pack Format.binary64 (.finite s m e hpos) =
      if m.log2 = 52 then
        packComponents Format.binary64 s (.ofNat 11 (e + 1075).toNat) (.ofNat 52 m)
      else packComponents Format.binary64 s 0#11 (.ofNat 52 m) := by
  have hbiased : e + (Format.binary64.exponentBias : ℤ) +
      (Format.binary64.mantissaBitsWithoutImplicit : ℤ) = e + 1075 := by
    show e + 1023 + 52 = e + 1075
    omega
  have hfits : ¬ 2 ^ Format.binary64.exponentBits ≤ (e + 1075).toNat + 1 := by
    show ¬ 2048 ≤ (e + 1075).toNat + 1
    omega
  have hbits : (m.log2 + 1 = Format.binary64.mantissaBits) = (m.log2 = 52) :=
    propext Nat.succ_inj
  unfold pack
  simp only [hbiased, if_neg hfits, hbits]

end Packing

namespace Decimal.Binary

variable {x : Binary}

/-- The float of a sign and a magnitude. -/
def toFloat (s : Sign) (x : Binary) (h : 0 < x.mantissa) : Float :=
  .ofModel (.pack (.finite s x.mantissa x.exponent h))

/-- Packing loses nothing. -/
theorem Canonical.unpack_toFloat (hx : x.Canonical) (s : Sign) :
    (toFloat s x hx.pos).toModel.unpack = .finite s x.mantissa x.exponent hx.pos := by
  obtain ⟨m, e, narrow⟩ := x
  obtain ⟨hpos, hlt, hleast, hmost, hfull, -⟩ := hx
  dsimp only at hpos hlt hleast hmost hfull
  show unpack Format.binary64 (UInt64.ofBitVec (pack Format.binary64 _)).toBitVec = _
  rw [UInt64.toBitVec_ofBitVec, pack_finite hpos hmost]
  have hexponent : (BitVec.ofNat 11 (e + 1075).toNat).toNat = (e + 1075).toNat := by
    rw [BitVec.toNat_ofNat]
    omega
  by_cases hnormal : 2 ^ 52 ≤ m
  · have hmantissa : 2 ^ 52 + (BitVec.ofNat 52 m).toNat = m := by
      rw [BitVec.toNat_ofNat]
      omega
    rw [if_pos ((Nat.log2_eq_iff hpos.ne').mpr ⟨hnormal, hlt⟩),
      unpack_normal (by omega) (by omega), UnpackedFloat.finite.injEq]
    refine ⟨rfl, hmantissa, ?_⟩
    show ((BitVec.ofNat 11 (e + 1075).toNat).toNat : ℤ) - 1075 = e
    omega
  · have hlog : m.log2 < 52 := (Nat.log2_lt hpos.ne').mpr (by omega)
    have hmantissa : (BitVec.ofNat 52 m).toNat = m := by
      rw [BitVec.toNat_ofNat]
      omega
    rw [if_neg (by omega), unpack_subnormal (by omega), UnpackedFloat.finite.injEq]
    refine ⟨rfl, hmantissa, ?_⟩
    show -1074 = e
    omega

end Decimal.Binary

/-! ### Floats as magnitudes -/

/-- The sign of a float that is a number. -/
def signOf (x : Float) : Sign := if isNegative x then .negative else .positive

namespace Decimal.Binary

variable {f : Float}

/-- The magnitude, with powers in the notation of algebra. -/
theorem ofFloat_eq (f : Float) : ofFloat f =
    if f.toBits.toNat / 2 ^ 52 % 2 ^ 11 = 0 then ⟨f.toBits.toNat % 2 ^ 52, -1074, false⟩
    else ⟨2 ^ 52 + f.toBits.toNat % 2 ^ 52, (f.toBits.toNat / 2 ^ 52 % 2 ^ 11 : ℕ) - 1075,
      f.toBits.toNat % 2 ^ 52 == 0 && f.toBits.toNat / 2 ^ 52 % 2 ^ 11 > 1⟩ := rfl

theorem unpackSign_eq (hnan : f.isNaN = false) :
    Sign.ofBitVec (@unpackSign Format.binary64 f.toBits.toBitVec) = signOf f := by
  have hlt := f.toBits.toNat_lt
  have hsign : (@unpackSign Format.binary64 f.toBits.toBitVec).toNat =
      f.toBits.toNat / 2 ^ 63 % 2 := by
    simp [unpackSign, Nat.shiftRight_eq_div_pow]
  have hiff : isNegative f = true ↔ ¬ @unpackSign Format.binary64 f.toBits.toBitVec = 0#1 := by
    rw [isNegative_iff, hnan, ← BitVec.toNat_inj, hsign]
    simp
    omega
  unfold signOf Sign.ofBitVec
  by_cases hneg : isNegative f = true
  · rw [if_pos hneg, if_neg (hiff.mp hneg)]
  · rw [if_neg hneg, if_pos (not_not.mp (mt hiff.mpr hneg))]

/-- The greatest exponent is that of the numbers that are not finite. -/
theorem biased_lt (hfinite : f.isFinite = true) : f.toBits.toNat / 2 ^ 52 % 2 ^ 11 < 2047 := by
  rw [isFinite_eq, Bool.and_eq_true, Bool.not_eq_true', Bool.not_eq_true', ← Bool.not_eq_true,
    ← Bool.not_eq_true, isNaN_iff, isInf_iff] at hfinite
  have hlt : f.toBits.toNat / 2 ^ 52 % 2 ^ 11 < 2 ^ 11 := Nat.mod_lt _ (by decide)
  omega

/-- What is read off the bits is what the arithmetic of floats works on. -/
theorem unpack_ofFloat (hfinite : f.isFinite = true) (hpos : 0 < (ofFloat f).mantissa) :
    f.toModel.unpack = .finite (signOf f) (ofFloat f).mantissa (ofFloat f).exponent hpos := by
  have hlt := biased_lt hfinite
  have hnan : f.isNaN = false := by
    rw [isFinite_eq, Bool.and_eq_true, Bool.not_eq_true'] at hfinite
    exact hfinite.1
  have hexponent := toNat_unpackExponent f.toBits
  have hmantissa := toNat_unpackMantissa f.toBits
  have hbits := @packComponents_unpackSign_unpackExponent_unpackMantissa Format.binary64
    f.toBits.toBitVec
  show unpack Format.binary64 f.toBits.toBitVec = _
  rw [← hbits, unpackSign_eq hnan]
  by_cases hzero : f.toBits.toNat / 2 ^ 52 % 2 ^ 11 = 0
  · have hparts := (ofFloat_eq f).trans (if_pos hzero)
    have hzero' : @unpackExponent Format.binary64 f.toBits.toBitVec = 0#11 := by
      rw [← BitVec.toNat_inj, hexponent]
      exact hzero
    simp only [hparts] at hpos ⊢
    rw [hzero', unpack_subnormal (hmantissa ▸ hpos), UnpackedFloat.finite.injEq]
    exact ⟨rfl, hmantissa, rfl⟩
  · have hparts := (ofFloat_eq f).trans (if_neg hzero)
    simp only [hparts] at hpos ⊢
    rw [unpack_normal (hexponent ▸ hlt) (hexponent ▸ Nat.pos_of_ne_zero hzero),
      UnpackedFloat.finite.injEq, hexponent, hmantissa]
    exact ⟨rfl, rfl, rfl⟩

theorem canonical_ofFloat (hfinite : f.isFinite = true) (hpos : 0 < (ofFloat f).mantissa) :
    (ofFloat f).Canonical := by
  have hlt := biased_lt hfinite
  have hfraction : f.toBits.toNat % 2 ^ 52 < 2 ^ 52 := Nat.mod_lt _ (by decide)
  rw [ofFloat_eq] at hpos ⊢
  generalize f.toBits.toNat / 2 ^ 52 % 2 ^ 11 = biased at *
  generalize f.toBits.toNat % 2 ^ 52 = fraction at *
  by_cases hzero : biased = 0
  · rw [if_pos hzero] at hpos ⊢
    dsimp only at hpos
    refine ⟨hpos, ?_, ?_, ?_, .inl rfl, ?_⟩ <;> dsimp only <;> first | omega | simp
  · rw [if_neg hzero] at hpos ⊢
    dsimp only at hpos
    refine ⟨hpos, ?_, ?_, ?_, .inr ?_, ?_⟩ <;> dsimp only
    · omega
    · omega
    · omega
    · omega
    · rw [Bool.and_eq_true, beq_iff_eq, decide_eq_true_iff]
      omega

/-- A float is made of its sign and its magnitude. -/
theorem toFloat_ofFloat (hfinite : f.isFinite = true) (hpos : 0 < (ofFloat f).mantissa) :
    toFloat (signOf f) (ofFloat f) hpos = f := by
  refine toBits_injective (UInt64.toBitVec_inj.mp ?_)
  have hunpack := unpack_ofFloat hfinite hpos
  show (UInt64.ofBitVec (pack Format.binary64 _)).toBitVec = _
  rw [UInt64.toBitVec_ofBitVec, ← hunpack]
  exact pack_unpack_of_valid f.toModel.valid

end Decimal.Binary

/-! ### Exact numbers -/

namespace Decimal.Binary

variable {x y : Binary} {v : ℚ} {digits : ℕ}

/-- The number that the magnitude stands for. -/
def value (x : Binary) : ℚ := x.mantissa * 2 ^ x.exponent

theorem below_pos (x : Binary) : 0 < x.below := by
  unfold below
  split <;> norm_num

/-- A float is near itself. -/
theorem near_value (x : Binary) : x.Near x.value := by
  have hunit : (0 : ℚ) < 2 ^ x.exponent := by positivity
  have hbelow := below_pos x
  unfold value
  refine ⟨by nlinarith, by nlinarith, ?_⟩
  rintro (h | h) <;> nlinarith

theorem neg_toFloat (hx : x.Canonical) :
    -toFloat .positive x hx.pos = toFloat .negative x hx.pos := by
  show Float.ofModel (.pack (neg (toFloat .positive x hx.pos).toModel.unpack)) = _
  rw [hx.unpack_toFloat]
  rfl

theorem div_toFloat (hx : x.Canonical) {y z : Binary} (hy : y.Canonical) (hz : z.Canonical)
    (hv : x.Near (y.value / z.value)) :
    toFloat .positive y hy.pos / toFloat .positive z hz.pos = toFloat .positive x hx.pos := by
  show Float.ofModel (.pack (div Format.binary64 (toFloat .positive y hy.pos).toModel.unpack
    (toFloat .positive z hz.pos).toModel.unpack)) = _
  rw [hy.unpack_toFloat, hz.unpack_toFloat, div_eq hx hv]
  rfl

theorem mul_toFloat (hx : x.Canonical) {y z : Binary} (hy : y.Canonical) (hz : z.Canonical)
    (hfull : 2 ^ 52 ≤ y.mantissa) (hv : x.Near (y.value * z.value)) :
    toFloat .positive y hy.pos * toFloat .positive z hz.pos = toFloat .positive x hx.pos := by
  show Float.ofModel (.pack (mul Format.binary64 (toFloat .positive y hy.pos).toModel.unpack
    (toFloat .positive z hz.pos).toModel.unpack)) = _
  rw [hy.unpack_toFloat, hz.unpack_toFloat,
    mul_eq hx hv (hfull.trans (Nat.le_mul_of_pos_right _ hz.pos))]
  rfl

/-- A whole number as the magnitude with the largest mantissa. -/
def whole (digits : ℕ) : Binary :=
  ⟨digits * 2 ^ (52 - digits.log2), -((52 - digits.log2 : ℕ) : ℤ),
    digits * 2 ^ (52 - digits.log2) == 2 ^ 52⟩

/-- The mantissa has fifty-three bits. -/
theorem whole_bounds (hpos : 0 < digits) (hlt : digits < 2 ^ 53) :
    2 ^ 52 ≤ (whole digits).mantissa ∧ (whole digits).mantissa < 2 ^ 53 := by
  have hlog : digits.log2 ≤ 52 := Nat.lt_succ_iff.mp ((Nat.log2_lt hpos.ne').mpr hlt)
  constructor
  · calc 2 ^ 52 = 2 ^ digits.log2 * 2 ^ (52 - digits.log2) := by
          rw [← pow_add, Nat.add_sub_cancel' hlog]
      _ ≤ digits * 2 ^ (52 - digits.log2) := Nat.mul_le_mul_right _ (Nat.log2_self_le hpos.ne')
  · calc digits * 2 ^ (52 - digits.log2) < 2 ^ (digits.log2 + 1) * 2 ^ (52 - digits.log2) :=
          Nat.mul_lt_mul_of_pos_right Nat.lt_log2_self (by positivity)
      _ = 2 ^ 53 := by
          rw [← pow_add]
          congr 1
          omega

theorem canonical_whole (hpos : 0 < digits) (hlt : digits < 2 ^ 53) : (whole digits).Canonical := by
  obtain ⟨hlow, hhigh⟩ := whole_bounds hpos hlt
  refine ⟨Nat.lt_of_lt_of_le (by decide) hlow, hhigh, ?_, ?_, .inr hlow, ?_⟩
  · show -1074 ≤ -((52 - digits.log2 : ℕ) : ℤ)
    omega
  · show -((52 - digits.log2 : ℕ) : ℤ) ≤ 971
    omega
  · show ((whole digits).mantissa == 2 ^ 52) = true ↔
      (whole digits).mantissa = 2 ^ 52 ∧ -1074 < -((52 - digits.log2 : ℕ) : ℤ)
    rw [beq_iff_eq]
    omega

theorem value_whole (digits : ℕ) : (whole digits).value = digits := by
  show ((digits * 2 ^ (52 - digits.log2) : ℕ) : ℚ) * 2 ^ (-((52 - digits.log2 : ℕ) : ℤ)) = digits
  rw [zpow_neg, zpow_natCast]
  push_cast
  field_simp

/-- A whole number with no more bits than a mantissa becomes a float without being rounded. -/
theorem toFloat_whole (hpos : 0 < digits) (hlt : digits < 2 ^ 53) :
    digits.toUInt64.toFloat =
      toFloat .positive (whole digits) (canonical_whole hpos hlt).pos := by
  have hy := canonical_whole hpos hlt
  have hnat : digits.toUInt64.toNat = digits := Nat.mod_eq_of_lt (by omega)
  show Float.ofModel (.pack
    (UnpackedFloat.normalize Format.binary64 (digits.toUInt64.toNat : ℤ) 0 .positive)) = _
  rw [hnat]
  unfold UnpackedFloat.normalize
  rw [Int.compare_eq_gt.mpr (by omega)]
  dsimp only
  unfold UnpackedFloat.round decreaseExponent
  rw [targetExponent_eq, Int.toNat_natCast]
  have hshift : (0 - max ((digits.log2 : ℤ) + 0 - 52) (-1074)).toNat = 52 - digits.log2 := by omega
  dsimp only
  rw [hshift, Nat.shiftLeft_eq, zero_sub]
  have hres : Residue (.ofMantissaAndAccuracy (whole digits).mantissa .exact)
      ((whole digits).value / 2 ^ (whole digits).exponent) := by
    show (whole digits).mantissa * 2 ^ (whole digits).exponent / 2 ^ (whole digits).exponent =
      ((whole digits).mantissa : ℚ)
    field_simp
  have hlog : 52 ≤ (whole digits).mantissa.log2 :=
    (Nat.le_log2 hy.pos.ne').mpr (whole_bounds hpos hlt).1
  have hround := roundWithAccuracy_eq hy (near_value _) hres (by omega) .positive
  exact congrArg (fun u => Float.ofModel (.pack u)) hround

theorem zpow_eq_div {b : ℚ} (hb : b ≠ 0) (i : ℤ) : b ^ i = b ^ i.toNat / b ^ (-i).toNat := by
  rw [eq_div_iff (pow_ne_zero _ hb), ← zpow_natCast, ← zpow_natCast, ← zpow_add₀ hb]
  congr 1
  omega

/-- The table of powers of ten is right. -/
theorem exists_powerOfTen_eq {k : ℕ} (hk : k < Float.exactlyRepresentablePowersOfTen.size) :
    ∃ (z : Binary) (hz : z.Canonical), z.value = 10 ^ k ∧
      Float.exactlyRepresentablePowersOfTen[k] = toFloat .positive z hz.pos := by
  have htable : ∀ k : Fin 23, let f := Float.exactlyRepresentablePowersOfTen[k]
      f.isFinite = true ∧ isNegative f = false ∧ 0 < (ofFloat f).mantissa ∧
        (ofFloat f).mantissa * 2 ^ (ofFloat f).exponent.toNat =
          10 ^ k.val * 2 ^ (-(ofFloat f).exponent).toNat := by
    decide +kernel
  obtain ⟨hfinite, hsign, hpos, hvalue⟩ := htable ⟨k, hk⟩
  refine ⟨_, canonical_ofFloat hfinite hpos, ?_, ?_⟩
  · rw [value, zpow_eq_div two_ne_zero, mul_div_assoc', div_eq_iff (by positivity)]
    exact_mod_cast hvalue
  · have hsame := toFloat_ofFloat hfinite hpos
    unfold signOf at hsame
    rw [hsign] at hsame
    exact hsame.symm

/-- Few digits and a small power of ten are floats, and one operation on them rounds. -/
theorem ofScientific_exact (hx : x.Canonical) {exponent : ℤ} (hpos : 0 < digits)
    (hv : x.Near (digits * 10 ^ exponent)) (hfew : digits < 2 ^ 53)
    (hsmall : exponent.natAbs < Float.exactlyRepresentablePowersOfTen.size) :
    (if exponent < 0 then
      digits.toUInt64.toFloat / Float.exactlyRepresentablePowersOfTen[exponent.natAbs]
    else digits.toUInt64.toFloat * Float.exactlyRepresentablePowersOfTen[exponent.natAbs]) =
      toFloat .positive x hx.pos := by
  have hy := canonical_whole hpos hfew
  obtain ⟨z, hz, hvalue, hpower⟩ := exists_powerOfTen_eq hsmall
  rw [toFloat_whole hpos hfew, hpower]
  by_cases hneg : exponent < 0
  · have hexponent : exponent = -(exponent.natAbs : ℤ) := by omega
    rw [if_pos hneg]
    refine div_toFloat hx hy hz ?_
    rw [hexponent, zpow_neg, zpow_natCast, ← div_eq_mul_inv] at hv
    rwa [value_whole, hvalue]
  · have hexponent : exponent = (exponent.natAbs : ℤ) := by omega
    rw [if_neg hneg]
    refine mul_toFloat hx hy hz (whole_bounds hpos hfew).1 ?_
    rw [hexponent, zpow_natCast] at hv
    rwa [value_whole, hvalue]

/-- Otherwise the power of ten is a whole number, and the operation on it rounds. -/
theorem ofScientific_unpacked (hx : x.Canonical) {exponent : ℤ} (hpos : 0 < digits)
    (hv : x.Near (digits * 10 ^ exponent)) (hlow : -1000 ≤ exponent + digits.log2)
    (hhigh : exponent ≤ 1000) :
    UnpackedFloat.ofScientific Format.binary64 digits exponent =
      .finite .positive x.mantissa x.exponent hx.pos := by
  have hsmall : ¬ exponent > 2 ^ Format.binary64.exponentBits := by
    show ¬ exponent > 2048
    omega
  have hlarge : ¬ exponent < -((2 ^ Format.binary64.exponentBits : ℤ) + digits.log2) := by
    show ¬ exponent < -(2048 + (digits.log2 : ℤ))
    omega
  unfold UnpackedFloat.ofScientific
  rw [dif_neg hpos.ne', if_neg hsmall, if_neg hlarge]
  by_cases hneg : 0 ≤ exponent
  · rw [if_pos hneg]
    have hshift : ((digits <<< Format.binary64.mantissaBits : ℕ) : ℚ) *
        2 ^ (-(Format.binary64.mantissaBits : ℤ)) = digits := by
      rw [Nat.shiftLeft_eq, zpow_neg, zpow_natCast]
      push_cast
      field_simp
    refine mul_eq hx ?_ ?_
    · rw [hshift, zpow_zero, mul_one, Nat.cast_pow, ← zpow_natCast, Int.toNat_of_nonneg hneg]
      exact hv
    · have hwide : 2 ^ 52 ≤ digits <<< Format.binary64.mantissaBits := by
        rw [Nat.shiftLeft_eq]
        exact (show 2 ^ 52 ≤ 2 ^ 53 by decide).trans (Nat.le_mul_of_pos_left _ hpos)
      exact hwide.trans (Nat.le_mul_of_pos_right _ (by positivity))
  · rw [if_neg hneg]
    refine div_eq hx ?_
    rw [zpow_zero, mul_one, mul_one, Nat.cast_pow, ← zpow_natCast, Int.toNat_of_nonneg (by omega),
      zpow_neg, Nat.cast_ofNat, div_inv_eq_mul]
    exact hv

/-- The decimal that is near a float is that float, however it is computed. -/
theorem ofScientific_eq (hx : x.Canonical) {exponent : ℤ} (hpos : 0 < digits)
    (hv : x.Near (digits * 10 ^ exponent)) (hlow : -1000 ≤ exponent + digits.log2)
    (hhigh : exponent ≤ 1000) :
    Float.ofScientific digits (exponent < 0) exponent.natAbs = toFloat .positive x hx.pos := by
  unfold Float.ofScientific
  by_cases hfast : digits < 2 ^ 53 ∧ exponent.natAbs ≤ 22
  · rw [dif_pos hfast]
    simp only [decide_eq_true_eq]
    exact ofScientific_exact hx hpos hv hfast.1 (Nat.lt_succ_of_le hfast.2)
  · have hsigned : (if decide (exponent < 0) = true then Int.negOfNat exponent.natAbs
        else Int.ofNat exponent.natAbs) = exponent := by
      by_cases hneg : exponent < 0
      · rw [if_pos (decide_eq_true hneg), Int.negOfNat_eq, Int.ofNat_eq_natCast]
        omega
      · rw [if_neg (by simpa using hneg), Int.ofNat_eq_natCast]
        omega
    rw [dif_neg hfast]
    dsimp only
    rw [hsigned]
    show Float.ofModel (.pack (UnpackedFloat.ofScientific Format.binary64 digits exponent)) = _
    rw [ofScientific_unpacked hx hpos hv hlow hhigh]
    rfl

theorem two_pow_le_ten_pow (n : ℕ) : (2 : ℚ) ^ (3 * n) ≤ 10 ^ n := by
  rw [pow_mul]
  gcongr
  norm_num

/-- What is near a float is far from the ends of the range in which `nearest` reckons. -/
theorem Near.bounds (hx : x.Canonical) (hv : x.Near v) :
    (10 : ℚ) ^ (-400 : ℤ) < v ∧ v < (10 : ℚ) ^ (400 : ℤ) := by
  have hpos : (1 : ℚ) ≤ x.mantissa := by exact_mod_cast hx.pos
  have hlt : (x.mantissa : ℚ) + 1 ≤ 2 ^ 53 := by exact_mod_cast hx.lt
  have hbelow := below_le x
  have hunit : (0 : ℚ) < 2 ^ x.exponent := by positivity
  have hlow := hv.low
  have hhigh := hv.high
  constructor
  · have hsmall : (10 : ℚ) ^ (-400 : ℤ) ≤ 2 ^ (-1200 : ℤ) :=
      inv_anti₀ (by positivity) (two_pow_le_ten_pow 400)
    have hless : (2 : ℚ) ^ (-1200 : ℤ) < 2 ^ (x.exponent - 1) := by
      have := hx.least
      exact zpow_lt_zpow_right₀ one_lt_two (by omega)
    refine hsmall.trans_lt (hless.trans_le ?_)
    rw [zpow_sub_one₀ two_ne_zero]
    nlinarith
  · have hlarge : (2 : ℚ) ^ (1200 : ℤ) ≤ 10 ^ (400 : ℤ) := two_pow_le_ten_pow 400
    have hless : (2 : ℚ) ^ (x.exponent + 53) < 2 ^ (1200 : ℤ) := by
      have := hx.most
      exact zpow_lt_zpow_right₀ one_lt_two (by omega)
    refine lt_of_le_of_lt ?_ (hless.trans_le hlarge)
    rw [zpow_add₀ two_ne_zero]
    have hbits : (2 : ℚ) ^ (53 : ℤ) = 2 ^ 53 := rfl
    rw [hbits]
    nlinarith

/-- The number of digits is that of the powers of ten. -/
theorem length_repr_bounds (hpos : 0 < digits) :
    10 ^ (digits.repr.length - 1) ≤ digits ∧ digits < 10 ^ digits.repr.length := by
  have hlength : 0 < digits.repr.length := Nat.length_repr_pos
  refine ⟨?_, (Nat.length_repr_le_iff hlength).mp (Nat.le_refl _)⟩
  by_cases hone : digits.repr.length = 1
  · rw [hone]
    exact hpos
  · have hiff := Nat.length_repr_le_iff (n := digits) (k := digits.repr.length - 1) (by omega)
    have := mt hiff.mpr (by omega)
    omega

/-- The decimal that is near a float is read as that float. -/
theorem nearest_eq (hx : x.Canonical) {exponent : ℤ} (hpos : 0 < digits)
    (hv : x.Near (digits * 10 ^ exponent)) :
    nearest digits exponent = toFloat .positive x hx.pos := by
  obtain ⟨hlow, hhigh⟩ := hv.bounds hx
  obtain ⟨hlead, hlength⟩ := length_repr_bounds hpos
  have hlength' : digits.repr.length ≤ digits.log2 + 1 := by
    refine (Nat.length_repr_le_iff (Nat.succ_pos _)).mpr ?_
    exact Nat.lt_of_lt_of_le Nat.lt_log2_self (Nat.pow_le_pow_left (by decide) _)
  have hlength'' : 0 < digits.repr.length := Nat.length_repr_pos
  have hunit : (0 : ℚ) < 10 ^ exponent := by positivity
  have hleast : -400 < exponent + digits.repr.length := by
    have hless : (digits : ℚ) * 10 ^ exponent < 10 ^ (exponent + digits.repr.length) := by
      rw [zpow_add₀ (by norm_num), zpow_natCast, mul_comm]
      gcongr
      exact_mod_cast hlength
    exact (zpow_lt_zpow_iff_right₀ (by norm_num : (1 : ℚ) < 10)).mp (hlow.trans hless)
  have hmost : exponent + digits.repr.length - 1 < 400 := by
    have hless : (10 : ℚ) ^ (exponent + digits.repr.length - 1) ≤ digits * 10 ^ exponent := by
      have hsum : exponent + digits.repr.length - 1 = exponent + (digits.repr.length - 1 : ℕ) := by
        omega
      rw [hsum, zpow_add₀ (by norm_num), zpow_natCast, mul_comm]
      gcongr
      exact_mod_cast hlead
    exact (zpow_lt_zpow_iff_right₀ (by norm_num : (1 : ℚ) < 10)).mp (hless.trans_lt hhigh)
  unfold nearest
  dsimp only
  rw [if_neg (by omega), if_neg (by omega)]
  exact ofScientific_eq hx hpos hv (by omega) (by omega)

end Decimal.Binary

end FormulaPlot
