/-
Rounding to the nearest float.

The arithmetic of floats computes a mantissa that may be cut off, together with the two
bits that say how much was cut.  It then shifts the mantissa until fifty-three bits are
left and rounds by the two bits.  `Residue` is what the bits mean, and it survives every
shift, so in the end the number is compared with the halfway points around the mantissa.

What is shown here is not where a given number is rounded to but the converse: for a
float that is known, whatever number lies near it is rounded to it.  That is the form in
which reading a text needs it.  One case is out of line.  Below a power of two the floats
are closer together, so a number that is near the power of two may get a mantissa of its
own with one bit more, which then rounds up and overflows.
-/
import Mathlib
import FormulaPlot.Decimal.Binary

namespace FormulaPlot

open Float.Model (Format totalExponent)
open Float.Model.UnpackedFloat

/-! ### What is cut off -/

/-- The number lies where the mantissa and its two bits say. -/
def Residue (em : ExtendedMantissa) (w : ℚ) : Prop :=
  match em.roundBit, em.stickyBit with
  | false, false => w = em.mantissa
  | false, true => (em.mantissa : ℚ) < w ∧ w < em.mantissa + 1 / 2
  | true, false => w = em.mantissa + 1 / 2
  | true, true => (em.mantissa : ℚ) + 1 / 2 < w ∧ w < em.mantissa + 1

variable {em : ExtendedMantissa} {w : ℚ}

theorem Residue.shiftRightOne (h : Residue em w) : Residue em.shiftRightOne (w / 2) := by
  obtain ⟨mantissa, round, sticky⟩ := em
  have hsplit : ((mantissa / 2 : ℕ) : ℚ) * 2 + (mantissa % 2 : ℕ) = mantissa := by
    exact_mod_cast Nat.div_add_mod' mantissa 2
  unfold Residue ExtendedMantissa.shiftRightOne at *
  dsimp only at h ⊢
  rcases Nat.mod_two_eq_zero_or_one mantissa with hbit | hbit <;> rw [hbit] at hsplit ⊢ <;>
    cases round <;> cases sticky <;> simp at h hsplit ⊢
  all_goals first | linarith | (constructor <;> linarith)

theorem Residue.shiftRight (h : Residue em w) (k : ℕ) : Residue (em >>> k) (w / 2 ^ k) := by
  induction k with
  | zero =>
      rw [pow_zero, div_one]
      exact h
  | succ k ih =>
      rw [pow_succ, ← div_div]
      exact ih.shiftRightOne

theorem Residue.le (h : Residue em w) : (em.mantissa : ℚ) ≤ w := by
  obtain ⟨mantissa, round, sticky⟩ := em
  unfold Residue at h
  cases round <;> cases sticky <;> simp at h ⊢ <;> linarith

theorem Residue.lt (h : Residue em w) : w < em.mantissa + 1 := by
  obtain ⟨mantissa, round, sticky⟩ := em
  unfold Residue at h
  cases round <;> cases sticky <;> simp at h ⊢ <;> linarith

/-- A number is rounded to the one whole number that is near, and to the even one of two. -/
theorem Residue.roundedMantissa_eq (h : Residue em w) {m : ℕ} (hlow : (m : ℚ) - 1 / 2 ≤ w)
    (hhigh : w ≤ m + 1 / 2) (heven : w = m - 1 / 2 ∨ w = m + 1 / 2 → m % 2 = 0) :
    em.roundedMantissa = m := by
  have hle := h.le
  have hlt := h.lt
  have hnear : m = em.mantissa ∨ m = em.mantissa + 1 := by
    have habove : (m : ℚ) < em.mantissa + 2 := by linarith
    have hbelow : (em.mantissa : ℚ) < m + 1 := by linarith
    norm_cast at habove hbelow
    omega
  obtain ⟨mantissa, round, sticky⟩ := em
  unfold Residue at h
  unfold ExtendedMantissa.roundedMantissa ExtendedMantissa.accuracy
  rcases hnear with rfl | rfl
  · cases round <;> cases sticky <;> simp [Accuracy.roundToNearestEven] at *
    · exact heven (.inr h)
    · linarith
  · cases round <;> cases sticky <;> simp [Accuracy.roundToNearestEven] at *
    · linarith
    · linarith
    · have hhalf : w = mantissa + 1 - 2⁻¹ := by linarith
      have := heven (.inl hhalf)
      omega

/-! ### Rounding -/

/-- The least exponent for which a mantissa of fifty-three bits is enough. -/
theorem targetExponent_eq (m : ℕ) (e : ℤ) :
    Format.binary64.targetExponent (totalExponent m e) = max (m.log2 + e - 52) (-1074) := by
  have hbits : Format.binary64.mantissaBits = 53 := rfl
  have hleast : Format.binary64.minExponent = -1074 := rfl
  unfold Format.targetExponent totalExponent
  rw [hbits, hleast]
  congr 1
  push_cast
  ring

/-- A mantissa with enough bits is shifted to the right. -/
theorem shiftToTargetExponent_eq {m : ℕ} {e : ℤ} (he : e ≤ max (m.log2 + e - 52) (-1074))
    (accuracy : Accuracy) :
    ∃ k : ℕ, e + k = max (m.log2 + e - 52) (-1074) ∧
      shiftToTargetExponent Format.binary64 m e accuracy =
        (ExtendedMantissa.ofMantissaAndAccuracy m accuracy >>> k, e + k) := by
  refine ⟨(max ((m.log2 : ℤ) + e - 52) (-1074) - e).toNat, by omega, ?_⟩
  unfold shiftToTargetExponent shiftToExponent
  rw [targetExponent_eq]

/-- A mantissa with few enough bits is not shifted. -/
theorem shiftToTargetExponent_of_lt {m : ℕ} {e : ℤ} (hm : m < 2 ^ 53) (he : -1074 ≤ e) :
    shiftToTargetExponent Format.binary64 m e .exact = (⟨m, false, false⟩, e) := by
  have hlog : m.log2 < 53 := by
    by_cases hzero : m = 0
    · rw [hzero]
      decide
    · exact (Nat.log2_lt hzero).mpr hm
  have hshift : (max ((m.log2 : ℤ) + e - 52) (-1074) - e).toNat = 0 := by omega
  unfold shiftToTargetExponent shiftToExponent
  rw [targetExponent_eq]
  dsimp only
  rw [hshift]
  show (ExtendedMantissa.mk m false false, e + 0) = _
  rw [add_zero]

/-- Rounding up to one bit too many leaves a power of two, which is shifted once. -/
theorem shiftToTargetExponent_two_pow {e : ℤ} (he : -1074 ≤ e) :
    shiftToTargetExponent Format.binary64 (2 ^ 53) e .exact = (⟨2 ^ 52, false, false⟩, e + 1) := by
  have hlog : (2 ^ 53 : ℕ).log2 = 53 := Nat.log2_two_pow
  have hshift : (max (((2 ^ 53 : ℕ).log2 : ℤ) + e - 52) (-1074) - e).toNat = 1 := by
    rw [hlog]
    omega
  unfold shiftToTargetExponent shiftToExponent
  rw [targetExponent_eq]
  dsimp only
  rw [hshift]
  rfl

/-! ### Floats -/

namespace Decimal.Binary

/-- What is read off the bits of a finite float other than zero. -/
structure Canonical (x : Binary) : Prop where
  pos : 0 < x.mantissa
  lt : x.mantissa < 2 ^ 53
  least : -1074 ≤ x.exponent
  most : x.exponent ≤ 971
  full : x.exponent = -1074 ∨ 2 ^ 52 ≤ x.mantissa
  narrow : x.narrowBelow = true ↔ x.mantissa = 2 ^ 52 ∧ -1074 < x.exponent

/-- Half of the gap to the float below, in units of the mantissa. -/
def below (x : Binary) : ℚ := if x.narrowBelow then 1 / 4 else 1 / 2

/-- The number is no farther from `x` than from any other float, and if it is as far from
another one, the mantissa of `x` is even. -/
structure Near (x : Binary) (v : ℚ) : Prop where
  low : (x.mantissa - x.below) * 2 ^ x.exponent ≤ v
  high : v ≤ (x.mantissa + 1 / 2) * 2 ^ x.exponent
  even : v = (x.mantissa - x.below) * 2 ^ x.exponent ∨
    v = (x.mantissa + 1 / 2) * 2 ^ x.exponent → x.mantissa % 2 = 0

end Decimal.Binary

open Decimal (Binary)

variable {x : Binary} {v : ℚ} {m : ℕ} {e : ℤ} {accuracy : Accuracy}

/-- After the first shift the number has at most fifty-three bits before the point, and not
fewer unless the exponent is the least one. -/
theorem shifted_bounds {k : ℕ} (hres : Residue (.ofMantissaAndAccuracy m accuracy) w)
    (hk : e + k = max (m.log2 + e - 52) (-1074)) :
    w / 2 ^ k < 2 ^ 53 ∧ (e + k = -1074 ∨ 2 ^ 52 ≤ w / 2 ^ k) := by
  have hmantissa : (ExtendedMantissa.ofMantissaAndAccuracy m accuracy).mantissa = m := by
    unfold ExtendedMantissa.ofMantissaAndAccuracy
    split <;> rfl
  have hle := hres.le
  have hlt := hres.lt
  rw [hmantissa] at hle hlt
  have hpos : (0 : ℚ) < 2 ^ k := by positivity
  rw [div_lt_iff₀ hpos, le_div_iff₀ hpos, ← pow_add, ← pow_add]
  constructor
  · have hsize : m + 1 ≤ 2 ^ (53 + k) :=
      calc m + 1 ≤ 2 ^ (m.log2 + 1) := Nat.lt_log2_self
        _ ≤ 2 ^ (53 + k) := Nat.pow_le_pow_right (by decide) (by omega)
    have hsize' : (m : ℚ) + 1 ≤ 2 ^ (53 + k) := by exact_mod_cast hsize
    linarith
  · by_cases hleast : e + k = -1074
    · exact .inl hleast
    · right
      have hlog : m.log2 = 52 + k := by omega
      have hne : m ≠ 0 := by
        rintro rfl
        rw [Nat.log2_zero] at hlog
        omega
      have hsize : 2 ^ (52 + k) ≤ m := hlog ▸ Nat.log2_self_le hne
      have hsize' : (2 : ℚ) ^ (52 + k) ≤ m := by exact_mod_cast hsize
      linarith

/-- A mantissa that is one bit too large can only come from rounding up. -/
theorem roundWithAccuracy_of_shift {em : ExtendedMantissa} {exponent : ℤ}
    (hx : x.Canonical) (s : Sign)
    (hshift : shiftToTargetExponent Format.binary64 m e accuracy = (em, exponent))
    (hround : em.roundedMantissa = x.mantissa ∧ exponent = x.exponent ∨
      em.roundedMantissa = 2 ^ 53 ∧ x.mantissa = 2 ^ 52 ∧ exponent + 1 = x.exponent ∧
        -1074 ≤ exponent) :
    roundWithAccuracy Format.binary64 s m e accuracy =
      .finite s x.mantissa x.exponent hx.pos := by
  obtain ⟨mantissa, exponent', narrow⟩ := x
  have hpos := hx.pos
  unfold roundWithAccuracy
  rw [hshift]
  dsimp only at hround hpos ⊢
  rcases hround with ⟨hmantissa, rfl⟩ | ⟨hmantissa, rfl, rfl, hleast⟩
  · rw [hmantissa, shiftToTargetExponent_of_lt hx.lt hx.least]
    exact dif_neg hpos.ne'
  · rw [hmantissa, shiftToTargetExponent_two_pow hleast]
    exact dif_neg hpos.ne'

/-- The float below is at most one unit away. -/
theorem below_le (x : Binary) : x.below ≤ 1 / 2 := by
  unfold Binary.below
  split <;> norm_num

/-- Each step of the exponent doubles the unit. -/
theorem two_zpow_le {i j : ℤ} (n : ℕ) (h : i + n ≤ j) : 2 ^ n * (2 : ℚ) ^ i ≤ 2 ^ j := by
  have hle : (2 : ℚ) ^ (i + n) ≤ 2 ^ j := zpow_le_zpow_right₀ one_le_two h
  rwa [zpow_add₀ two_ne_zero, zpow_natCast, mul_comm] at hle

/-- If a number has fewer bits before the point than a float that it is near, then the float is
a power of two, and the number lies just below it. -/
theorem eq_two_pow_of_lt (hx : x.Canonical) (hv : x.Near v) (hlt : v < 2 ^ 53 * 2 ^ e)
    (hless : e < x.exponent) (hleast : -1074 ≤ e) :
    x.mantissa = 2 ^ 52 ∧ e + 1 = x.exponent ∧ (2 ^ 53 - 1 / 2) * 2 ^ e ≤ v := by
  have hunit : (0 : ℚ) < 2 ^ x.exponent := by positivity
  have hfull : 2 ^ 52 ≤ x.mantissa := by
    rcases hx.full with h | h
    · omega
    · exact h
  have hmantissa : x.mantissa = 2 ^ 52 := by
    by_contra hne
    have hlarge : (2 ^ 52 + 1 : ℚ) ≤ x.mantissa := by
      have : 2 ^ 52 + 1 ≤ x.mantissa := by omega
      exact_mod_cast this
    have htwice := two_zpow_le 1 (show e + (1 : ℕ) ≤ x.exponent by omega)
    have hlow := hv.low
    have hbelow := below_le x
    nlinarith
  have hnarrow : x.below = 1 / 4 := if_pos (hx.narrow.mpr ⟨hmantissa, by omega⟩)
  have hlow := hv.low
  rw [hmantissa, hnarrow] at hlow
  push_cast at hlow
  have hexponent : e + 1 = x.exponent := by
    by_contra hne
    have hquarter := two_zpow_le 2 (show e + (2 : ℕ) ≤ x.exponent by omega)
    linarith
  refine ⟨hmantissa, hexponent, ?_⟩
  rw [← hexponent, zpow_add_one₀ two_ne_zero] at hlow
  linarith

/-- The whole number that a near number is rounded to is the mantissa of the float.  Only below a
power of two may it have one bit more. -/
theorem rounded_of_near {em : ExtendedMantissa} (hx : x.Canonical) (hv : x.Near v)
    (hres : Residue em (v / 2 ^ e)) (hleast : -1074 ≤ e) (hlt : v < 2 ^ 53 * 2 ^ e)
    (hfull : e = -1074 ∨ 2 ^ 52 * 2 ^ e ≤ v) :
    em.roundedMantissa = x.mantissa ∧ e = x.exponent ∨
      em.roundedMantissa = 2 ^ 53 ∧ x.mantissa = 2 ^ 52 ∧ e + 1 = x.exponent ∧ -1074 ≤ e := by
  have hunit : (0 : ℚ) < 2 ^ e := by positivity
  rcases lt_trichotomy e x.exponent with hless | rfl | hgreater
  · -- The number is rounded up to the power of two.
    right
    obtain ⟨hmantissa, hexponent, hlow⟩ := eq_two_pow_of_lt hx hv hlt hless hleast
    refine ⟨hres.roundedMantissa_eq ?_ ?_ (fun _ => by decide), hmantissa, hexponent, hleast⟩
    · rw [le_div_iff₀ hunit]
      exact_mod_cast hlow
    · rw [div_le_iff₀ hunit]
      push_cast
      linarith
  · left
    have hbelow := below_le x
    have hlow := hv.low
    have hhigh := hv.high
    refine ⟨hres.roundedMantissa_eq ?_ ?_ fun htie => hv.even ?_, rfl⟩
    · rw [le_div_iff₀ hunit]
      nlinarith
    · rwa [div_le_iff₀ hunit]
    · rw [div_eq_iff hunit.ne', div_eq_iff hunit.ne'] at htie
      rcases htie with htie | htie
      · left
        nlinarith
      · exact .inr htie
  · -- A number that large is near a float with a larger exponent.
    exfalso
    have hwide : 2 ^ 52 * 2 ^ e ≤ v := by
      rcases hfull with h | h
      · have := hx.least
        omega
      · exact h
    have htwice := two_zpow_le 1 (show x.exponent + (1 : ℕ) ≤ e by omega)
    have hmantissa : (x.mantissa : ℚ) + 1 ≤ 2 ^ 53 := by exact_mod_cast hx.lt
    have hhigh := hv.high
    have hunit' : (0 : ℚ) < 2 ^ x.exponent := by positivity
    nlinarith

/-- A number that is near a float is rounded to it. -/
theorem roundWithAccuracy_eq (hx : x.Canonical) (hv : x.Near v)
    (hres : Residue (.ofMantissaAndAccuracy m accuracy) (v / 2 ^ e))
    (he : e ≤ max (m.log2 + e - 52) (-1074)) (s : Sign) :
    roundWithAccuracy Format.binary64 s m e accuracy =
      .finite s x.mantissa x.exponent hx.pos := by
  obtain ⟨k, hk, hshift⟩ := shiftToTargetExponent_eq he accuracy
  have hleast : -1074 ≤ e + k := by omega
  obtain ⟨hlt, hfull⟩ := shifted_bounds hres hk
  have hscale : v / 2 ^ e / 2 ^ k = v / 2 ^ (e + k) := by
    rw [div_div, zpow_add₀ two_ne_zero, zpow_natCast]
  have hres' := hres.shiftRight k
  have hunit : (0 : ℚ) < 2 ^ (e + k) := by positivity
  rw [hscale] at hres'
  rw [hscale, div_lt_iff₀ hunit] at hlt
  rw [hscale, le_div_iff₀ hunit] at hfull
  exact roundWithAccuracy_of_shift hx s hshift (rounded_of_near hx hv hres' hleast hlt hfull)

/-! ### Products and quotients -/

variable {m' : ℕ} {e' : ℤ}

/-- A product that is near a float is that float, if the mantissas are large enough. -/
theorem mul_eq (hx : x.Canonical) {s t : Sign} {h : 0 < m} {h' : 0 < m'}
    (hv : x.Near (m * 2 ^ e * (m' * 2 ^ e'))) (hfull : 2 ^ 52 ≤ m * m') :
    mul Format.binary64 (.finite s m e h) (.finite t m' e' h') =
      .finite (s * t) x.mantissa x.exponent hx.pos := by
  have hlog : 52 ≤ (m * m').log2 := (Nat.le_log2 (Nat.mul_pos h h').ne').mpr hfull
  refine roundWithAccuracy_eq hx hv ?_ (by omega) (s * t)
  show (m * 2 ^ e * (m' * 2 ^ e') : ℚ) / 2 ^ (e + e') = ((m * m' : ℕ) : ℚ)
  rw [zpow_add₀ two_ne_zero]
  field_simp
  push_cast
  ring

/-- What is left of a division says how far the quotient is cut. -/
theorem residue_div (a : ℕ) {n : ℕ} (hn : 0 < n) :
    Residue (.ofMantissaAndAccuracy (a / n) (accuracyOfFraction (a % n) n)) (a / n) := by
  have hpos : (0 : ℚ) < n := by exact_mod_cast hn
  have hsplit : (a : ℚ) / n = (a / n : ℕ) + (a % n : ℕ) / n := by
    field_simp
    exact_mod_cast (Nat.div_add_mod a n).symm
  have hlt : ((a % n : ℕ) : ℚ) / n < 1 := by
    rw [div_lt_one hpos]
    exact_mod_cast Nat.mod_lt a hn
  rw [hsplit]
  unfold accuracyOfFraction
  by_cases hzero : a % n = 0
  · rw [if_pos hzero, hzero, Nat.cast_zero, zero_div, add_zero]
    exact rfl
  · have hrest : (0 : ℚ) < (a % n : ℕ) / n := by
      have : (0 : ℚ) < (a % n : ℕ) := by exact_mod_cast Nat.pos_of_ne_zero hzero
      positivity
    rw [if_neg hzero]
    rcases lt_trichotomy (2 * (a % n)) n with hhalf | hhalf | hhalf
    · have hhalf' : ((a % n : ℕ) : ℚ) / n < 1 / 2 := by
        rw [div_lt_div_iff₀ hpos two_pos]
        exact_mod_cast (by omega : a % n * 2 < 1 * n)
      rw [Nat.compare_eq_lt.mpr hhalf]
      exact ⟨lt_add_of_pos_right _ hrest, add_lt_add_right hhalf' _⟩
    · have hhalf' : ((a % n : ℕ) : ℚ) / n = 1 / 2 := by
        rw [div_eq_div_iff hpos.ne' two_ne_zero]
        exact_mod_cast (by omega : a % n * 2 = 1 * n)
      rw [Nat.compare_eq_eq.mpr hhalf, hhalf']
      exact rfl
    · have hhalf' : 1 / 2 < ((a % n : ℕ) : ℚ) / n := by
        rw [div_lt_div_iff₀ two_pos hpos]
        exact_mod_cast (by omega : 1 * n < a % n * 2)
      rw [Nat.compare_eq_gt.mpr hhalf]
      exact ⟨add_lt_add_right hhalf' _, add_lt_add_right hlt _⟩

/-- The exponent that the quotient of two numbers has before it is rounded. -/
def quotientExponent (m : ℕ) (e : ℤ) (m' : ℕ) (e' : ℤ) : ℤ :=
  min (e - e') (max ((m.log2 : ℤ) + e - (m'.log2 + e') - 53) (-1074))

/-- The dividend is shifted until the quotient has enough bits. -/
theorem divCore_eq (m : ℕ) (e : ℤ) (m' : ℕ) (e' : ℤ) {shift : ℕ}
    (hshift : e - e' = quotientExponent m e m' e' + shift) :
    divCore Format.binary64 m e m' e' = (m <<< shift / m', quotientExponent m e m' e',
      accuracyOfFraction (m <<< shift % m') m') := by
  have htarget : Format.binary64.targetExponent (totalExponent m e - totalExponent m' e') =
      max ((m.log2 : ℤ) + e - (m'.log2 + e') - 53) (-1074) := by
    have hbits : Format.binary64.mantissaBits = 53 := rfl
    have hleast : Format.binary64.minExponent = -1074 := rfl
    unfold Format.targetExponent totalExponent
    rw [hbits, hleast]
    congr 1
    push_cast
    ring
  have hsame : (e - e' - quotientExponent m e m' e').toNat = shift := by omega
  have hmin : min (e - e') (max ((m.log2 : ℤ) + e - (m'.log2 + e') - 53) (-1074)) =
      quotientExponent m e m' e' := rfl
  unfold divCore
  simp only [htarget, hmin, hsame]

/-- Fifty-three bits of the quotient are enough. -/
theorem quotientExponent_le (h : 0 < m) (h' : 0 < m') {shift : ℕ}
    (hshift : e - e' = quotientExponent m e m' e' + shift) : quotientExponent m e m' e' ≤
      max (((m <<< shift / m').log2 : ℤ) + quotientExponent m e m' e' - 52) (-1074) := by
  by_cases hleast : quotientExponent m e m' e' ≤ -1074
  · omega
  · have hsize : m'.log2 + 1 + 52 ≤ m.log2 + shift := by
      unfold quotientExponent at hshift hleast
      omega
    have hbits : 2 ^ 52 ≤ m <<< shift / m' := by
      rw [Nat.le_div_iff_mul_le h', Nat.shiftLeft_eq]
      calc 2 ^ 52 * m' ≤ 2 ^ 52 * 2 ^ (m'.log2 + 1) :=
            Nat.mul_le_mul_left _ Nat.lt_log2_self.le
        _ ≤ 2 ^ (m.log2 + shift) := by
            rw [← pow_add]
            exact Nat.pow_le_pow_right two_pos (by omega)
        _ ≤ m * 2 ^ shift := by
            rw [pow_add]
            exact Nat.mul_le_mul_right _ (Nat.log2_self_le h.ne')
    have hlog := (Nat.le_log2 (Nat.ne_of_gt (Nat.lt_of_lt_of_le (by decide) hbits))).mpr hbits
    omega

/-- A quotient that is near a float is that float. -/
theorem div_eq (hx : x.Canonical) {s t : Sign} {h : 0 < m} {h' : 0 < m'}
    (hv : x.Near (m * 2 ^ e / (m' * 2 ^ e'))) :
    div Format.binary64 (.finite s m e h) (.finite t m' e' h') =
      .finite (s / t) x.mantissa x.exponent hx.pos := by
  obtain ⟨shift, hshift⟩ : ∃ shift : ℕ, e - e' = quotientExponent m e m' e' + shift := by
    have hle : quotientExponent m e m' e' ≤ e - e' := min_le_left _ _
    exact ⟨(e - e' - quotientExponent m e m' e').toNat, by omega⟩
  have hlarge := quotientExponent_le h h' hshift
  have hcore := divCore_eq m e m' e' hshift
  generalize quotientExponent m e m' e' = exponent at hshift hlarge hcore
  have hvalue : (m * 2 ^ e / (m' * 2 ^ e') : ℚ) / 2 ^ exponent = (m <<< shift : ℕ) / m' := by
    have hpos : (m' : ℚ) ≠ 0 := by exact_mod_cast h'.ne'
    have hsum : e = exponent + shift + e' := by omega
    rw [hsum, zpow_add₀ two_ne_zero, zpow_add₀ two_ne_zero, zpow_natCast, Nat.shiftLeft_eq]
    field_simp
    push_cast
    ring
  have hres := residue_div (m <<< shift) h'
  rw [← hvalue] at hres
  unfold div
  dsimp only
  rw [hcore]
  exact roundWithAccuracy_eq hx hv hres hlarge (s / t)

end FormulaPlot
