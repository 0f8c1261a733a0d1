/-
Rounding to the numbers that floats stand for.

If floats could be as large as one likes, they would stand for the whole numbers with up to
fifty-three bits, times powers of two that are not too small.  These numbers are the grid.
Every operation computes the exact number and rounds it: the result is on the grid, and no
number of the grid is nearer to the exact one.

That is all one needs to know of an operation in order to reckon with errors.  A number of the
grid is not changed by rounding, so rounding goes past no number of the grid; and a number
below a power of two is moved by at most half of the gap between floats there.
-/
import Mathlib
import FormulaPlot.Proofs.Number.Rounding

namespace FormulaPlot

open Float.Model (Format UnpackedFloat)
open Float.Model.UnpackedFloat
open Decimal (Binary)

/-! ### Nearest numbers -/

/-- The numbers that a float could stand for if there were no largest one. -/
def OnGrid (y : ℚ) : Prop := ∃ m e : ℤ, |m| ≤ 2 ^ 53 ∧ -1074 ≤ e ∧ y = m * 2 ^ e

/-- No number of the grid is nearer to the first number than the second one, which is on it. -/
structure Nearest (v q : ℚ) : Prop where
  onGrid : OnGrid q
  le : ∀ y, OnGrid y → |q - v| ≤ |y - v|

variable {v q g : ℚ}

theorem OnGrid.neg (h : OnGrid g) : OnGrid (-g) := by
  obtain ⟨m, e, hm, he, rfl⟩ := h
  refine ⟨-m, e, by rwa [abs_neg], he, ?_⟩
  push_cast
  ring

theorem onGrid_zero : OnGrid 0 := ⟨0, 0, by norm_num, by norm_num, by norm_num⟩

theorem onGrid_two_zpow {k : ℤ} (hk : -1074 ≤ k) : OnGrid (2 ^ k) :=
  ⟨1, k, by norm_num, hk, by norm_num⟩

theorem OnGrid.double (h : OnGrid g) : OnGrid (2 * g) := by
  obtain ⟨m, e, hm, he, rfl⟩ := h
  refine ⟨m, e + 1, hm, by omega, ?_⟩
  rw [zpow_add_one₀ two_ne_zero]
  ring

theorem OnGrid.nearest (h : OnGrid v) : Nearest v v :=
  ⟨h, fun y _ => by rw [sub_self, abs_zero]; exact abs_nonneg _⟩

theorem Nearest.neg (h : Nearest v q) : Nearest (-v) (-q) := by
  refine ⟨h.onGrid.neg, fun y hy => ?_⟩
  have hle := h.le (-y) hy.neg
  rwa [← abs_neg, ← abs_neg (-y - v), neg_sub', neg_sub', neg_neg] at hle

/-- A number of the grid stays. -/
theorem Nearest.eq_of_onGrid (h : Nearest v q) (hv : OnGrid v) : q = v := by
  have hle := h.le v hv
  rw [sub_self, abs_zero] at hle
  exact sub_eq_zero.mp (abs_nonpos_iff.mp hle)

/-- Rounding does not go past a number of the grid. -/
theorem Nearest.le_of_le (h : Nearest v q) (hg : OnGrid g) (hle : v ≤ g) : q ≤ g := by
  by_contra hlt
  have hnear := h.le g hg
  rw [abs_of_nonneg (by linarith), abs_of_nonneg (by linarith)] at hnear
  linarith

theorem Nearest.ge_of_ge (h : Nearest v q) (hg : OnGrid g) (hle : g ≤ v) : g ≤ q :=
  neg_le_neg_iff.mp (h.neg.le_of_le hg.neg (neg_le_neg hle))

/-- Rounding a number below a power of two moves it by half of the gap between floats there. -/
theorem Nearest.abs_sub_le {k : ℤ} (h : Nearest v q) (hk : -1021 ≤ k) (hv : |v| ≤ 2 ^ k) :
    |q - v| ≤ 2 ^ (k - 54) := by
  have hunit : (0 : ℚ) < 2 ^ (k - 53) := by positivity
  obtain ⟨r, hround⟩ : ∃ r : ℤ, |v / 2 ^ (k - 53) - r| ≤ 1 / 2 := ⟨_, abs_sub_round _⟩
  have hsize : |v / 2 ^ (k - 53)| ≤ 2 ^ 53 := by
    rw [abs_div, abs_of_pos hunit, div_le_iff₀ hunit, ← zpow_natCast, ← zpow_add₀ two_ne_zero]
    simpa using hv
  have hgrid : OnGrid (r * 2 ^ (k - 53)) := by
    refine ⟨r, k - 53, ?_, by omega, rfl⟩
    have hless : |(r : ℚ)| < 2 ^ 53 + 1 := by
      rw [abs_lt]
      rw [abs_le] at hround hsize
      constructor <;> linarith
    exact_mod_cast Int.lt_add_one_iff.mp (by exact_mod_cast hless)
  have hhalf : (2 : ℚ) ^ (k - 54) = 1 / 2 * 2 ^ (k - 53) := by
    rw [show k - 53 = k - 54 + 1 by ring, zpow_add_one₀ two_ne_zero]
    ring
  calc |q - v| ≤ |r * 2 ^ (k - 53) - v| := h.le _ hgrid
    _ = |v / 2 ^ (k - 53) - r| * 2 ^ (k - 53) := by
        rw [← abs_of_pos hunit, ← abs_mul, abs_of_pos hunit, sub_mul, div_mul_cancel₀ _ hunit.ne',
          abs_sub_comm]
    _ ≤ 2 ^ (k - 54) := by
        rw [hhalf]
        exact mul_le_mul_of_nonneg_right hround hunit.le

/-- Halving loses nothing, but for the last digit of the very smallest numbers. -/
theorem Nearest.abs_sub_half_le {s : ℚ} (h : Nearest (s / 2) q) (hs : OnGrid s) :
    |q - s / 2| ≤ 2 ^ (-30 : ℤ) := by
  obtain ⟨m, e, hm, he, rfl⟩ := hs
  have hhalf : (m * 2 ^ e / 2 : ℚ) = m * 2 ^ (e - 1) := by
    rw [zpow_sub_one₀ two_ne_zero]
    ring
  by_cases hleast : -1074 ≤ e - 1
  · rw [h.eq_of_onGrid ⟨m, e - 1, hm, hleast, hhalf⟩, sub_self, abs_zero]
    positivity
  · have hexponent : e - 1 = -1075 := by omega
    have hsmall : |(m * 2 ^ e / 2 : ℚ)| ≤ 2 ^ (-1021 : ℤ) := by
      have hm' : |(m : ℚ)| ≤ 2 ^ (54 : ℤ) := by
        have hm'' : |(m : ℚ)| ≤ 2 ^ 53 := by exact_mod_cast hm
        refine hm''.trans ?_
        norm_num
      rw [hhalf, hexponent, abs_mul, abs_of_pos (by positivity : (0 : ℚ) < 2 ^ (-1075 : ℤ)),
        show (-1021 : ℤ) = 54 + -1075 by norm_num, zpow_add₀ two_ne_zero]
      exact mul_le_mul_of_nonneg_right hm' (by positivity)
    exact (h.abs_sub_le le_rfl hsmall).trans (zpow_le_zpow_right₀ one_le_two (by norm_num))

/-- Large numbers of the grid are multiples of a unit. -/
theorem OnGrid.exists_multiple {k : ℤ} (hg : OnGrid g) (hlarge : 2 ^ (k + 52) < g) :
    ∃ n : ℤ, g = n * 2 ^ k := by
  obtain ⟨m, e, hm, -, rfl⟩ := hg
  have hexponent : k ≤ e := by
    have hmost : m ≤ 2 ^ 53 := (le_abs_self m).trans hm
    have hmost' : (m : ℚ) ≤ 2 ^ 53 := by exact_mod_cast hmost
    have hless : (2 : ℚ) ^ (k + 52) < 2 ^ (e + 53) :=
      calc (2 : ℚ) ^ (k + 52) < m * 2 ^ e := hlarge
        _ ≤ 2 ^ 53 * 2 ^ e := mul_le_mul_of_nonneg_right hmost' (by positivity)
        _ = 2 ^ (e + 53) := by
            rw [zpow_add₀ two_ne_zero, mul_comm]
            rfl
    have := (zpow_lt_zpow_iff_right₀ one_lt_two).mp hless
    omega
  obtain ⟨n, rfl⟩ : ∃ n : ℕ, e = k + n := ⟨(e - k).toNat, by omega⟩
  refine ⟨m * 2 ^ n, ?_⟩
  rw [zpow_add₀ two_ne_zero, zpow_natCast]
  push_cast
  ring

/-- Above a power of two, numbers of the grid are at least a unit apart. -/
theorem OnGrid.gap {k : ℤ} {h : ℚ} (hg : OnGrid g) (hh : OnGrid h) (hless : g < h)
    (hlarge : 2 ^ (k + 52) < h) : g + 2 ^ k ≤ h := by
  have hunit : (0 : ℚ) < 2 ^ k := by positivity
  have hstep : ∀ i j : ℤ, (i * 2 ^ k : ℚ) < j * 2 ^ k → (i * 2 ^ k : ℚ) + 2 ^ k ≤ j * 2 ^ k := by
    intro i j hij
    have hsucc : i + 1 ≤ j := by exact_mod_cast lt_of_mul_lt_mul_right hij hunit.le
    have hsucc' : (i + 1 : ℚ) ≤ j := by exact_mod_cast hsucc
    rw [← add_one_mul]
    exact mul_le_mul_of_nonneg_right hsucc' hunit.le
  obtain ⟨j, rfl⟩ := hh.exists_multiple hlarge
  rcases le_or_gt g (2 ^ (k + 52)) with hle | hgt
  · have hpower : (2 : ℚ) ^ (k + 52) = ((2 ^ 52 : ℤ) : ℚ) * 2 ^ k := by
      rw [zpow_add₀ two_ne_zero, mul_comm]
      push_cast
      rfl
    rw [hpower] at hle hlarge
    exact (add_le_add_left hle _).trans (hstep _ _ hlarge)
  · obtain ⟨i, rfl⟩ := hg.exists_multiple hgt
    exact hstep _ _ hless

/-! ### Rounding -/

variable {m : ℕ} {e : ℤ} {s t : Sign} {accuracy : Accuracy} {em : ExtendedMantissa} {w : ℚ}

theorem Residue.abs_sub_le (h : Residue em w) : |(em.roundedMantissa : ℚ) - w| ≤ 1 / 2 := by
  obtain ⟨mantissa, round, sticky⟩ := em
  unfold Residue at h
  unfold ExtendedMantissa.roundedMantissa ExtendedMantissa.accuracy
  rw [abs_le]
  rcases Nat.mod_two_eq_zero_or_one mantissa with hbit | hbit <;> cases round <;> cases sticky <;>
    simp [Accuracy.roundToNearestEven, hbit] at h ⊢ <;> constructor <;> linarith

/-- The sign as a factor. -/
def factor : Sign → ℚ
  | .negative => -1
  | .positive => 1

theorem factor_mul (s t : Sign) : factor (s * t) = factor s * factor t := by
  cases s <;> cases t <;> simp [factor]

theorem factor_neg (s : Sign) : factor (-s) = -factor s := by
  cases s <;> simp [factor]

theorem cast_apply (s : Sign) (n : ℤ) : (s.apply n : ℚ) = factor s * n := by
  cases s <;> simp [factor, Sign.apply]

/-- What a finite float stands for. -/
def number : UnpackedFloat → ℚ
  | .finite s m e _ => factor s * (m * 2 ^ e)
  | _ => 0

/-- A finite float with as few bits as there are, and with no fewer unless the exponent is the
least one. -/
def Reduced : UnpackedFloat → Prop
  | .finite _ m e _ => m < 2 ^ 53 ∧ -1074 ≤ e ∧ (e = -1074 ∨ 2 ^ 52 ≤ m)
  | .zero _ => True
  | _ => False

theorem Nearest.factor_mul (h : Nearest v q) (s : Sign) :
    Nearest (factor s * v) (factor s * q) := by
  cases s
  · simpa [factor] using h.neg
  · simpa [factor] using h

/-- Numbers that are rounded to whole ones in units of the last bit are rounded to the grid. -/
theorem nearest_of_units {r : ℕ} {u : ℚ} (hleast : -1074 ≤ e) (hlt : u < 2 ^ 53)
    (hfull : e = -1074 ∨ 2 ^ 52 ≤ u) (hround : |(r : ℚ) - u| ≤ 1 / 2) :
    Nearest (u * 2 ^ e) (r * 2 ^ e) := by
  have hunit : (0 : ℚ) < 2 ^ e := by positivity
  have hscale : ∀ a : ℚ, |a * 2 ^ e - u * 2 ^ e| = |a - u| * 2 ^ e := fun a => by
    rw [← sub_mul, abs_mul, abs_of_pos hunit]
  have hwhole : ∀ j : ℤ, |(r : ℚ) - u| ≤ |j - u| := by
    intro j
    by_cases hj : j = r
    · rw [hj, Int.cast_natCast]
    · have hone : (1 : ℚ) ≤ |(j : ℚ) - r| := by
        exact_mod_cast Int.one_le_abs (sub_ne_zero.mpr hj)
      have htri := abs_sub_le (j : ℚ) u r
      rw [abs_sub_comm u] at htri
      linarith
  refine ⟨⟨r, e, ?_, hleast, by push_cast; rfl⟩, ?_⟩
  · have hless : (r : ℚ) < 2 ^ 53 + 1 := by
      rw [abs_le] at hround
      linarith
    have hle : r ≤ 2 ^ 53 := Nat.lt_succ_iff.mp (by exact_mod_cast hless)
    rw [abs_of_nonneg (by positivity)]
    exact_mod_cast hle
  · rintro y ⟨m', e', hm', he', rfl⟩
    rw [hscale]
    by_cases hcoarse : e ≤ e'
    · -- The number is a whole one in these units.
      obtain ⟨n, rfl⟩ : ∃ n : ℕ, e' = e + n := ⟨(e' - e).toNat, by omega⟩
      have hy : (m' * 2 ^ (e + n) : ℚ) = ((m' * 2 ^ n : ℤ) : ℚ) * 2 ^ e := by
        rw [zpow_add₀ two_ne_zero, zpow_natCast]
        push_cast
        ring
      rw [hy, hscale]
      exact mul_le_mul_of_nonneg_right (hwhole _) hunit.le
    · -- The number is no larger than the least one with all bits.
      have hbits : (2 : ℚ) ^ 52 ≤ u := hfull.resolve_left (by omega)
      have hy : (m' * 2 ^ e' : ℚ) ≤ 2 ^ 52 * 2 ^ e := by
        have hmost : m' ≤ 2 ^ 53 := (le_abs_self m').trans hm'
        have hmost' : (m' : ℚ) ≤ 2 ^ 53 := by exact_mod_cast hmost
        calc (m' * 2 ^ e' : ℚ) ≤ 2 ^ 53 * 2 ^ e' :=
              mul_le_mul_of_nonneg_right hmost' (by positivity)
          _ = 2 ^ 52 * (2 ^ 1 * 2 ^ e') := by ring
          _ ≤ 2 ^ 52 * 2 ^ e :=
              mul_le_mul_of_nonneg_left (two_zpow_le 1 (by omega)) (by norm_num)
      have hnear : |(r : ℚ) - u| ≤ |2 ^ 52 - u| := by
        rw [show (2 ^ 52 : ℚ) = ((2 ^ 52 : ℤ) : ℚ) by norm_num]
        exact hwhole _
      calc |(r : ℚ) - u| * 2 ^ e ≤ |2 ^ 52 - u| * 2 ^ e :=
            mul_le_mul_of_nonneg_right hnear hunit.le
        _ = u * 2 ^ e - 2 ^ 52 * 2 ^ e := by
            rw [abs_of_nonpos (by linarith)]
            ring
        _ ≤ |m' * 2 ^ e' - u * 2 ^ e| := by
            rw [abs_sub_comm]
            exact (sub_le_sub_left hy _).trans (le_abs_self _)

/-- A float that a number is rounded to is a nearest one. -/
theorem roundWithAccuracy_spec (hres : Residue (.ofMantissaAndAccuracy m accuracy) w)
    (he : e ≤ max (m.log2 + e - 52) (-1074)) (s : Sign) :
    Reduced (roundWithAccuracy Format.binary64 s m e accuracy) ∧
      Nearest (factor s * (w * 2 ^ e))
        (number (roundWithAccuracy Format.binary64 s m e accuracy)) := by
  obtain ⟨k, hk, hshift⟩ := shiftToTargetExponent_eq he accuracy
  have hleast : -1074 ≤ e + k := by omega
  obtain ⟨hlt, hfull⟩ := shifted_bounds hres hk
  have hround := (hres.shiftRight k).abs_sub_le
  have hvalue : w * 2 ^ e = w / 2 ^ k * 2 ^ (e + k) := by
    rw [zpow_add₀ two_ne_zero, zpow_natCast]
    field_simp
  have hnear := (nearest_of_units hleast hlt hfull hround).factor_mul s
  rw [← hvalue] at hnear
  unfold roundWithAccuracy
  rw [hshift]
  dsimp only
  generalize (ExtendedMantissa.ofMantissaAndAccuracy m accuracy >>> k).roundedMantissa = r at *
  rw [abs_le] at hround
  have hmost : r ≤ 2 ^ 53 := by
    have hless : (r : ℚ) < 2 ^ 53 + 1 := by linarith
    exact Nat.lt_succ_iff.mp (by exact_mod_cast hless)
  have hbits : e + k = -1074 ∨ 2 ^ 52 ≤ r := by
    refine hfull.imp_right fun hwide => ?_
    have hless : (2 ^ 52 : ℚ) < r + 1 := by linarith
    exact Nat.lt_succ_iff.mp (by exact_mod_cast hless)
  rcases hmost.lt_or_eq with hless | rfl
  · rw [shiftToTargetExponent_of_lt hless hleast]
    by_cases hzero : r = 0
    · subst hzero
      rw [Nat.cast_zero, zero_mul, mul_zero] at hnear
      exact ⟨trivial, hnear⟩
    · rw [dif_neg hzero]
      exact ⟨⟨hless, hleast, hbits⟩, hnear⟩
  · rw [shiftToTargetExponent_two_pow hleast, dif_neg (by norm_num)]
    refine ⟨⟨by norm_num, by omega, .inr le_rfl⟩, ?_⟩
    have hsame : ((2 ^ 53 : ℕ) : ℚ) * 2 ^ (e + k) = ((2 ^ 52 : ℕ) : ℚ) * 2 ^ (e + k + 1) := by
      rw [zpow_add_one₀ two_ne_zero]
      push_cast
      ring
    rwa [hsame] at hnear

/-- A whole number has nothing cut off. -/
theorem residue_exact (m : ℕ) : Residue (.ofMantissaAndAccuracy m .exact) m :=
  show (m : ℚ) = m from rfl

/-- The number of a mantissa with a sign is rounded, whether the exponent is too large or too
small. -/
theorem round_spec (hpos : 0 < m) (e : ℤ) (s : Sign) :
    Reduced (UnpackedFloat.round Format.binary64 s m e) ∧
      Nearest (factor s * (m * 2 ^ e)) (number (UnpackedFloat.round Format.binary64 s m e)) := by
  let k := (e - max ((m.log2 : ℤ) + e - 52) (-1074)).toNat
  have hround : UnpackedFloat.round Format.binary64 s m e =
      roundWithAccuracy Format.binary64 s (m <<< k) (e - k) .exact := by
    unfold UnpackedFloat.round decreaseExponent
    rw [targetExponent_eq]
  have hlog : (m <<< k).log2 = m.log2 + k := by
    rw [Nat.shiftLeft_eq, Nat.log2_eq_iff (by positivity), pow_add, add_right_comm, pow_add]
    exact ⟨Nat.mul_le_mul_right _ (Nat.log2_self_le hpos.ne'),
      Nat.mul_lt_mul_of_pos_right Nat.lt_log2_self (by positivity)⟩
  have hvalue : (m * 2 ^ e : ℚ) = (m <<< k : ℕ) * 2 ^ (e - k) := by
    rw [Nat.shiftLeft_eq, zpow_sub₀ two_ne_zero, zpow_natCast]
    push_cast
    field_simp
  rw [hround, hvalue]
  exact roundWithAccuracy_spec (residue_exact _) (by omega) s

theorem normalize_spec (n e : ℤ) (s : Sign) :
    Reduced (UnpackedFloat.normalize Format.binary64 n e s) ∧
      Nearest (n * 2 ^ e) (number (UnpackedFloat.normalize Format.binary64 n e s)) := by
  have habs : ∀ {t : Sign} {j : ℤ}, n = t.apply j → 0 < j →
      Reduced (UnpackedFloat.round Format.binary64 t j.toNat e) ∧
        Nearest (n * 2 ^ e) (number (UnpackedFloat.round Format.binary64 t j.toNat e)) := by
    intro t j hn hj
    have hcast : ((j.toNat : ℕ) : ℚ) = j := by exact_mod_cast Int.toNat_of_nonneg hj.le
    have hspec := round_spec (m := j.toNat) (by omega) e t
    rwa [hcast, ← mul_assoc, ← cast_apply, ← hn] at hspec
  unfold UnpackedFloat.normalize
  rcases lt_trichotomy n 0 with hneg | rfl | hpos
  · rw [Int.compare_eq_lt.mpr hneg]
    exact habs (t := .negative) (neg_neg n).symm (by omega)
  · rw [Int.compare_eq_eq.mpr rfl]
    rw [Int.cast_zero, zero_mul]
    exact ⟨trivial, onGrid_zero.nearest⟩
  · rw [Int.compare_eq_gt.mpr hpos]
    exact habs (t := .positive) rfl hpos

/-! ### Operations -/

variable {a b : UnpackedFloat}

theorem Reduced.onGrid (ha : Reduced a) : OnGrid (number a) := by
  rcases a with _ | _ | _ | ⟨s, m, e, _⟩
  · exact ha.elim
  · exact ha.elim
  · exact onGrid_zero
  · obtain ⟨hlt, hleast, -⟩ := ha
    refine ⟨s.apply m, e, ?_, hleast, ?_⟩
    · have hle : (m : ℤ) ≤ 2 ^ 53 := by exact_mod_cast hlt.le
      cases s <;> simpa [Sign.apply] using hle
    · rw [number, cast_apply, Int.cast_natCast, mul_assoc]

/-- Finite floats are negated by their sign. -/
theorem number_neg (a : UnpackedFloat) : number (neg a) = -number a := by
  rcases a with _ | _ | _ | ⟨s, m, e, _⟩ <;> simp [neg, number, factor_neg]

theorem Reduced.neg (ha : Reduced a) : Reduced (UnpackedFloat.neg a) := by
  rcases a with _ | _ | _ | ⟨s, m, e, _⟩ <;> exact ha

/-- Two numbers are added in units of the smaller one. -/
theorem aligned (n : ℕ) {e i : ℤ} (h : i ≤ e) :
    (((decreaseExponent n e i).1 : ℕ) : ℚ) * 2 ^ i = n * 2 ^ e := by
  obtain ⟨k, rfl⟩ : ∃ k : ℕ, e = i + k := ⟨(e - i).toNat, by omega⟩
  have hshift : (i + k - i).toNat = k := by omega
  show ((n <<< (i + k - i).toNat : ℕ) : ℚ) * 2 ^ i = _
  rw [hshift, Nat.shiftLeft_eq, zpow_add₀ two_ne_zero, zpow_natCast]
  push_cast
  ring

theorem add_spec (ha : Reduced a) (hb : Reduced b) :
    Reduced (add Format.binary64 a b) ∧
      Nearest (number a + number b) (number (add Format.binary64 a b)) := by
  rcases a with _ | _ | s | ⟨s, m, e, hm⟩
  · exact ha.elim
  · exact ha.elim
  · -- Nothing is added, so nothing is rounded.
    have hzero : number (.zero s) + number b = number b := zero_add _
    rcases b with _ | _ | t | ⟨t, n, f, hn⟩
    · exact hb.elim
    · exact hb.elim
    · have hadd : ∃ r, add Format.binary64 (.zero s) (.zero t) = .zero r := by
        cases s <;> cases t <;> exact ⟨_, rfl⟩
      obtain ⟨r, hr⟩ := hadd
      rw [hr, hzero]
      exact ⟨trivial, hb.onGrid.nearest⟩
    · rw [hzero]
      exact ⟨hb, hb.onGrid.nearest⟩
  · rcases b with _ | _ | t | ⟨t, n, f, hn⟩
    · exact hb.elim
    · exact hb.elim
    · have hzero : number (.finite s m e hm) + number (.zero t) = number (.finite s m e hm) :=
        add_zero _
      rw [hzero]
      exact ⟨ha, ha.onGrid.nearest⟩
    · have hsum : number (.finite s m e hm) + number (.finite t n f hn) =
          (s.apply (decreaseExponent m e (min e f)).1 +
            t.apply (decreaseExponent n f (min e f)).1 : ℤ) * 2 ^ min e f := by
        push_cast
        rw [cast_apply, cast_apply, add_mul, mul_assoc, mul_assoc, Int.cast_natCast,
          Int.cast_natCast, aligned m (min_le_left e f), aligned n (min_le_right e f)]
        rfl
      rw [hsum]
      exact normalize_spec _ _ _

/-- A difference is the sum with the negated number. -/
theorem sub_eq_add (f : Format) (a b : UnpackedFloat) : sub f a b = add f a (neg b) := by
  have happly : ∀ (t : Sign) (n : ℤ), (-t).apply n = -t.apply n := by
    rintro (_ | _) n
    · exact (neg_neg n).symm
    · rfl
  rcases a with s | _ | s | ⟨s, m, e, hm⟩ <;> rcases b with t | _ | t | ⟨t, n, i, hn⟩ <;>
    try rfl
  simp only [sub, add, neg, happly, sub_eq_add_neg]

theorem sub_spec (ha : Reduced a) (hb : Reduced b) :
    Reduced (sub Format.binary64 a b) ∧
      Nearest (number a - number b) (number (sub Format.binary64 a b)) := by
  have hspec := add_spec ha hb.neg
  rwa [number_neg, ← sub_eq_add_neg, ← sub_eq_add] at hspec

theorem mul_spec (ha : Reduced a) (hb : Reduced b) :
    Reduced (mul Format.binary64 a b) ∧
      Nearest (number a * number b) (number (mul Format.binary64 a b)) := by
  have hnothing : ∀ {r : Sign}, Reduced (.zero r) ∧ Nearest 0 (number (.zero r)) :=
    ⟨trivial, onGrid_zero.nearest⟩
  rcases a with _ | _ | s | ⟨s, m, e, hm⟩
  · exact ha.elim
  · exact ha.elim
  · have hzero : number (.zero s) * number b = 0 := zero_mul _
    rw [hzero]
    rcases b with _ | _ | t | ⟨t, n, f, hn⟩
    · exact hb.elim
    · exact hb.elim
    · exact hnothing
    · exact hnothing
  · rcases b with _ | _ | t | ⟨t, n, f, hn⟩
    · exact hb.elim
    · exact hb.elim
    · have hzero : number (.finite s m e hm) * number (.zero t) = 0 := mul_zero _
      rw [hzero]
      exact hnothing
    · have hproduct : number (.finite s m e hm) * number (.finite t n f hn) =
          factor (s * t) * ((m * n : ℕ) * 2 ^ (e + f)) := by
        simp only [number]
        rw [factor_mul, zpow_add₀ two_ne_zero]
        push_cast
        ring
      have hexponent : e + f ≤ max (((m * n).log2 : ℤ) + (e + f) - 52) (-1074) := by
        obtain ⟨-, -, hm'⟩ := ha
        obtain ⟨-, -, hn'⟩ := hb
        by_cases hbits : 2 ^ 52 ≤ m * n
        · have hlog := (Nat.le_log2 (Nat.mul_pos hm hn).ne').mpr hbits
          omega
        · have hm'' : ¬ 2 ^ 52 ≤ m := fun h => hbits (h.trans (Nat.le_mul_of_pos_right m hn))
          have hn'' : ¬ 2 ^ 52 ≤ n := fun h => hbits (h.trans (Nat.le_mul_of_pos_left n hm))
          omega
      rw [hproduct]
      exact roundWithAccuracy_spec (residue_exact _) hexponent (s * t)

end FormulaPlot
