/-
The numbers that are no real numbers, by their bits.

A float is its sixty-four bits, and of all the patterns that stand for NaN only one
is used.  So there is exactly one NaN and there are exactly two infinities, which the
sign bit tells apart.
-/
import Mathlib
import FormulaPlot.Number.Special

namespace FormulaPlot

open Float.Model (Format UnpackedFloat)
open Float.Model.UnpackedFloat (unpack unpackExponent unpackMantissa packedNaN)

theorem toBits_injective {x y : Float} (h : x.toBits = y.toBits) : x = y := by
  obtain ⟨⟨_, _⟩⟩ := x
  obtain ⟨⟨_, _⟩⟩ := y
  cases h
  rfl

/-! ### The fields of a float -/

theorem toNat_unpackExponent (bits : UInt64) :
    (@unpackExponent Format.binary64 bits.toBitVec).toNat = bits.toNat / 2 ^ 52 % 2 ^ 11 := by
  simp [unpackExponent, Nat.shiftRight_eq_div_pow]

theorem toNat_unpackMantissa (bits : UInt64) :
    (@unpackMantissa Format.binary64 bits.toBitVec).toNat = bits.toNat % 2 ^ 52 := by
  simp [unpackMantissa]

private theorem unpackExponent_eq_iff (bits : UInt64) :
    @unpackExponent Format.binary64 bits.toBitVec = (-1#_) ↔
      bits.toNat / 2 ^ 52 % 2 ^ 11 = 2047 := by
  rw [← BitVec.toNat_inj, toNat_unpackExponent]
  rfl

private theorem unpackMantissa_eq_iff (bits : UInt64) :
    @unpackMantissa Format.binary64 bits.toBitVec = 0#_ ↔
      bits.toNat % 2 ^ 52 = 0 := by
  rw [← BitVec.toNat_inj, toNat_unpackMantissa]
  rfl

theorem isNaN_iff (x : Float) :
    x.isNaN = true ↔ x.toBits.toNat / 2 ^ 52 % 2 ^ 11 = 2047 ∧ ¬ x.toBits.toNat % 2 ^ 52 = 0 := by
  show (unpack Format.binary64 x.toBits.toBitVec).isNaN = true ↔ _
  rw [← unpackExponent_eq_iff, ← unpackMantissa_eq_iff, unpack]
  split
  · split <;> simp_all [UnpackedFloat.isNaN]
  · split
    · split <;> simp_all [UnpackedFloat.isNaN]
    · simp_all [UnpackedFloat.isNaN]

theorem isInf_iff (x : Float) :
    x.isInf = true ↔ x.toBits.toNat / 2 ^ 52 % 2 ^ 11 = 2047 ∧ x.toBits.toNat % 2 ^ 52 = 0 := by
  show (unpack Format.binary64 x.toBits.toBitVec).isInf = true ↔ _
  rw [← unpackExponent_eq_iff, ← unpackMantissa_eq_iff, unpack]
  split
  · split <;> simp_all [UnpackedFloat.isInf]
  · split
    · split <;> simp_all [UnpackedFloat.isInf]
    · simp_all [UnpackedFloat.isInf]

theorem isFinite_eq (x : Float) : x.isFinite = (!x.isNaN && !x.isInf) := by
  show UnpackedFloat.isFinite _ = (!UnpackedFloat.isNaN _ && !UnpackedFloat.isInf _)
  cases x.toModel.unpack <;> rfl

theorem isNegative_iff (x : Float) :
    isNegative x = true ↔ 2 ^ 63 ≤ x.toBits.toNat ∧ x.isNaN = false := by
  have hlt := x.toBits.toNat_lt
  unfold isNegative
  rw [Bool.and_eq_true, beq_iff_eq, ← UInt64.toNat_inj, UInt64.toNat_shiftRight]
  simp [Nat.shiftRight_eq_div_pow]
  omega

/-! ### One NaN, two infinities -/

theorem eq_nan {x : Float} (h : x.isNaN = true) : x = nan := by
  obtain ⟨hexponent, hmantissa⟩ := (isNaN_iff x).mp h
  rw [← unpackExponent_eq_iff] at hexponent
  rw [← unpackMantissa_eq_iff] at hmantissa
  have hx : x.toBits.toBitVec = packedNaN Format.binary64 :=
    x.toModel.valid.eq_packedNaN hexponent hmantissa
  have hnan : nan.toBits.toBitVec = packedNaN Format.binary64 := by decide
  exact toBits_injective (UInt64.toBitVec_inj.mp (hx.trans hnan.symm))

theorem eq_infinity {x : Float} (h : x.isInf = true) :
    x = if isNegative x then -infinity else infinity := by
  obtain ⟨hexponent, hmantissa⟩ := (isInf_iff x).mp h
  have hlt := x.toBits.toNat_lt
  have hnan : x.isNaN = false := by
    rw [← Bool.not_eq_true, isNaN_iff]
    omega
  refine toBits_injective (UInt64.toNat_inj.mp ?_)
  by_cases hneg : isNegative x = true
  · have hbits : (-infinity).toBits.toNat = 2 ^ 63 + 2047 * 2 ^ 52 := by decide
    rw [if_pos hneg, hbits]
    rw [isNegative_iff] at hneg
    omega
  · have hbits : infinity.toBits.toNat = 2047 * 2 ^ 52 := by decide
    rw [if_neg hneg, hbits]
    simp only [isNegative_iff, hnan, and_true] at hneg
    omega

/-- NaN has one pattern of bits already, so there is nothing left to unify. -/
theorem canonical_eq (x : Float) : canonical x = x := by
  unfold canonical
  by_cases h : x.isNaN = true
  · rw [if_pos h, eq_nan h]
  · rw [if_neg h]

end FormulaPlot
