/-
The arithmetic of floats as rounded arithmetic.

A finite float stands for a number of the grid, and the sum, the difference and the product
of two of them are what the exact result is rounded to, or an infinity where that is too
large.  Comparing finite floats compares the numbers that they stand for.

So a computation on floats can be followed in exact numbers, with the errors on the side.
-/
import Mathlib
import FormulaPlot.Proofs.Decimal.Nearest
import FormulaPlot.Proofs.Number.Grid
import FormulaPlot.Proofs.Number.Order

namespace FormulaPlot

open Float.Model (Format UnpackedFloat)
open Float.Model.UnpackedFloat
open Decimal (Binary)

/-! ### What floats stand for -/

/-- What a finite float stands for. -/
def toRat (x : Float) : ℚ := number x.toModel.unpack

variable {x y z : Float} {v : ℚ} {a b u : UnpackedFloat}

/-- A finite float is a zero or has a magnitude. -/
theorem unpack_of_isFinite (hx : x.isFinite = true) :
    (∃ s, x.toModel.unpack = .zero s) ∨
      ∃ (s : Sign) (b : Binary) (hb : b.Canonical),
        x.toModel.unpack = .finite s b.mantissa b.exponent hb.pos := by
  by_cases hpos : 0 < (Binary.ofFloat x).mantissa
  · exact .inr ⟨signOf x, _, Binary.canonical_ofFloat hx hpos, Binary.unpack_ofFloat hx hpos⟩
  · left
    rw [Binary.ofFloat_eq] at hpos
    by_cases hbiased : x.toBits.toNat / 2 ^ 52 % 2 ^ 11 = 0
    · rw [if_pos hbiased] at hpos
      have hexponent : @unpackExponent Format.binary64 x.toBits.toBitVec = 0#11 := by
        rw [← BitVec.toNat_inj, toNat_unpackExponent]
        exact hbiased
      have hmantissa : @unpackMantissa Format.binary64 x.toBits.toBitVec = 0#52 := by
        rw [← BitVec.toNat_inj, toNat_unpackMantissa]
        exact Nat.eq_zero_of_not_pos hpos
      have hspecial : (0#11 : BitVec 11) ≠ -1#11 := by decide
      refine ⟨Sign.ofBitVec (@unpackSign Format.binary64 x.toBits.toBitVec), ?_⟩
      show unpack Format.binary64 x.toBits.toBitVec = _
      unfold unpack
      simp only [hexponent, hmantissa, if_neg hspecial, if_true, dif_pos]
    · rw [if_neg hbiased] at hpos
      exact absurd (Nat.add_pos_left (by decide) _) hpos

theorem reduced_unpack (hx : x.isFinite = true) : Reduced x.toModel.unpack := by
  rcases unpack_of_isFinite hx with ⟨s, hs⟩ | ⟨s, b, hb, hs⟩
  · rw [hs]
    trivial
  · rw [hs]
    exact ⟨hb.lt, hb.least, hb.full⟩

theorem toRat_of_unpack {m : ℕ} {e : ℤ} {hm : 0 < m}
    (h : x.toModel.unpack = .finite .positive m e hm) : toRat x = m * 2 ^ e := by
  rw [toRat, h, number, factor, one_mul]

theorem onGrid_toRat (hx : x.isFinite = true) : OnGrid (toRat x) := (reduced_unpack hx).onGrid

/-- No float is as large as the first power of two that is rounded to infinity. -/
theorem toRat_lt (hx : x.isFinite = true) : toRat x < 2 ^ (1024 : ℤ) := by
  rcases unpack_of_isFinite hx with ⟨s, hs⟩ | ⟨s, b, hb, hs⟩
  · rw [toRat, hs]
    show (0 : ℚ) < _
    positivity
  · have hmantissa : (b.mantissa : ℚ) < 2 ^ 53 := by exact_mod_cast hb.lt
    have hfactor : factor s ≤ 1 := by cases s <;> norm_num [factor]
    have hmagnitude : (0 : ℚ) ≤ b.mantissa * 2 ^ b.exponent := by positivity
    have hmost := hb.most
    rw [toRat, hs, number]
    calc factor s * (b.mantissa * 2 ^ b.exponent)
        ≤ b.mantissa * 2 ^ b.exponent := mul_le_of_le_one_left hmagnitude hfactor
      _ < 2 ^ 53 * 2 ^ b.exponent := mul_lt_mul_of_pos_right hmantissa (by positivity)
      _ = 2 ^ (53 + b.exponent) := by
          rw [zpow_add₀ two_ne_zero]
          rfl
      _ ≤ 2 ^ (1024 : ℤ) := zpow_le_zpow_right₀ one_le_two (by omega)

theorem ofModel_pack_of_bits (h : pack Format.binary64 u = x.toBits.toBitVec) :
    Float.ofModel (.pack u) = x := by
  refine toBits_injective (UInt64.toBitVec_inj.mp ?_)
  show (UInt64.ofBitVec (pack Format.binary64 u)).toBitVec = _
  rw [UInt64.toBitVec_ofBitVec, h]

/-- A float is packed from its parts. -/
theorem ofModel_pack (h : u = x.toModel.unpack) : Float.ofModel (.pack u) = x := by
  refine ofModel_pack_of_bits ?_
  rw [h]
  exact pack_unpack_of_valid x.toModel.valid

/-! ### Rounding -/

/-- The float is what a number is rounded to.  If there is no float that large, it is infinite. -/
inductive Rounds (v : ℚ) (z : Float) : Prop where
  | finite (h : z.isFinite = true) (near : Nearest v (toRat z))
  | above (h : z = infinity) {q : ℚ} (near : Nearest v q) (large : 2 ^ (1024 : ℤ) ≤ q)
  | below (h : z = -infinity) {q : ℚ} (near : Nearest v q) (large : q ≤ -2 ^ (1024 : ℤ))

/-- The float that a result is packed into. -/
theorem rounds_pack (hu : Reduced u ∧ Nearest v (number u)) :
    Rounds v (.ofModel (.pack u)) := by
  obtain ⟨hu, hnear⟩ := hu
  rcases u with _ | _ | s | ⟨s, m, e, hm⟩
  · exact hu.elim
  · exact hu.elim
  · have hunpack : (Float.ofModel (.pack (.zero s))).toModel.unpack = .zero s := by
      cases s <;> rfl
    refine .finite ?_ ?_
    · show UnpackedFloat.isFinite (Float.ofModel (.pack (.zero s))).toModel.unpack = true
      rw [hunpack]
      rfl
    · rw [toRat, hunpack]
      exact hnear
  · obtain ⟨hlt, hleast, hfull⟩ := hu
    by_cases hmost : e ≤ 971
    · have hb : Binary.Canonical ⟨m, e, decide (m = 2 ^ 52 ∧ -1074 < e)⟩ :=
        ⟨hm, hlt, hleast, hmost, hfull, decide_eq_true_iff⟩
      have hunpack := hb.unpack_toFloat s
      refine .finite ?_ ?_
      · show UnpackedFloat.isFinite (Binary.toFloat s _ hb.pos).toModel.unpack = true
        rw [hunpack]
        rfl
      · show Nearest v (number (Binary.toFloat s _ hb.pos).toModel.unpack)
        rw [hunpack]
        exact hnear
    · have hinfinite : pack Format.binary64 (.finite s m e hm) =
          packedInfinity Format.binary64 s := by
        have hbiased : e + (Format.binary64.exponentBias : ℤ) +
            (Format.binary64.mantissaBitsWithoutImplicit : ℤ) = e + 1075 := by
          show e + 1023 + 52 = e + 1075
          omega
        have hfits : 2 ^ Format.binary64.exponentBits ≤ (e + 1075).toNat + 1 := by
          show 2048 ≤ (e + 1075).toNat + 1
          omega
        unfold pack
        simp only [hbiased, if_pos hfits]
      have hlarge : (2 : ℚ) ^ (1024 : ℤ) ≤ m * 2 ^ e := by
        have hbits : (2 : ℚ) ^ 52 ≤ m := by exact_mod_cast hfull.resolve_left (by omega)
        calc (2 : ℚ) ^ (1024 : ℤ) ≤ 2 ^ (52 + e) := zpow_le_zpow_right₀ one_le_two (by omega)
          _ = 2 ^ 52 * 2 ^ e := by
              rw [zpow_add₀ two_ne_zero]
              rfl
          _ ≤ (m : ℚ) * 2 ^ e := mul_le_mul_of_nonneg_right hbits (by positivity)
      cases s with
      | negative =>
        have hbits : (-infinity).toBits.toBitVec = packedInfinity Format.binary64 .negative := by
          decide
        refine .below (ofModel_pack_of_bits (hinfinite.trans hbits.symm)) hnear ?_
        show -1 * (m * 2 ^ e : ℚ) ≤ _
        rw [neg_one_mul]
        exact neg_le_neg hlarge
      | positive =>
        have hbits : infinity.toBits.toBitVec = packedInfinity Format.binary64 .positive := by
          decide
        refine .above (ofModel_pack_of_bits (hinfinite.trans hbits.symm)) hnear ?_
        show _ ≤ 1 * (m * 2 ^ e : ℚ)
        rwa [one_mul]

theorem rounds_add (hx : x.isFinite = true) (hy : y.isFinite = true) :
    Rounds (toRat x + toRat y) (x + y) :=
  rounds_pack (add_spec (reduced_unpack hx) (reduced_unpack hy))

theorem rounds_sub (hx : x.isFinite = true) (hy : y.isFinite = true) :
    Rounds (toRat x - toRat y) (x - y) :=
  rounds_pack (sub_spec (reduced_unpack hx) (reduced_unpack hy))

theorem rounds_mul (hx : x.isFinite = true) (hy : y.isFinite = true) :
    Rounds (toRat x * toRat y) (x * y) :=
  rounds_pack (mul_spec (reduced_unpack hx) (reduced_unpack hy))

/-- What lies between numbers of the grid that are not too large is rounded to a finite float. -/
theorem Rounds.isFinite {low high : ℚ} (h : Rounds v z) (hlow : OnGrid low) (hhigh : OnGrid high)
    (hv : low ≤ v ∧ v ≤ high) (hsize : -2 ^ (1024 : ℤ) < low ∧ high < 2 ^ (1024 : ℤ)) :
    z.isFinite = true ∧ Nearest v (toRat z) := by
  rcases h with ⟨hfinite, hnear⟩ | @⟨-, q, hnear, hlarge⟩ | @⟨-, q, hnear, hlarge⟩
  · exact ⟨hfinite, hnear⟩
  · have := hnear.le_of_le hhigh hv.2
    linarith
  · have := hnear.ge_of_ge hlow hv.1
    linarith

/-- What is at least a number of the grid is rounded to a float that is as large, if not
infinite. -/
theorem Rounds.ge {low : ℚ} (h : Rounds v z) (hlow : OnGrid low) (hv : low ≤ v)
    (hpos : 0 ≤ low) : z.isFinite = true ∧ low ≤ toRat z ∨ z = infinity := by
  rcases h with ⟨hfinite, hnear⟩ | ⟨hz, -, -⟩ | @⟨-, q, hnear, hlarge⟩
  · exact .inl ⟨hfinite, hnear.ge_of_ge hlow hv⟩
  · exact .inr hz
  · have hneg : -2 ^ (1024 : ℤ) < (0 : ℚ) := neg_lt_zero.mpr (by positivity)
    exact absurd (hpos.trans (hnear.ge_of_ge hlow hv)) (not_le.mpr (hlarge.trans_lt hneg))

/-! ### The order of floats -/

variable {m n : ℕ} {e f : ℤ}

/-- Magnitudes are compared by their exponents first. -/
theorem scaled_lt (hm : m < 2 ^ 53) (he : -1074 ≤ e) (hn : f = -1074 ∨ 2 ^ 52 ≤ n)
    (h : e < f ∨ e = f ∧ m < n) : (m * 2 ^ e : ℚ) < n * 2 ^ f := by
  rcases h with hless | ⟨rfl, hless⟩
  · have hbits : (2 : ℚ) ^ 52 ≤ n := by exact_mod_cast hn.resolve_left (by omega)
    have hm' : (m : ℚ) < 2 ^ 53 := by exact_mod_cast hm
    calc (m * 2 ^ e : ℚ) < 2 ^ 53 * 2 ^ e := mul_lt_mul_of_pos_right hm' (by positivity)
      _ = 2 ^ 52 * (2 ^ 1 * 2 ^ e) := by ring
      _ ≤ 2 ^ 52 * 2 ^ f := mul_le_mul_of_nonneg_left (two_zpow_le 1 (by omega)) (by norm_num)
      _ ≤ n * 2 ^ f := mul_le_mul_of_nonneg_right hbits (by positivity)
  · exact mul_lt_mul_of_pos_right (by exact_mod_cast hless) (by positivity)

theorem scaled_lt_iff (hm : m < 2 ^ 53 ∧ -1074 ≤ e ∧ (e = -1074 ∨ 2 ^ 52 ≤ m))
    (hn : n < 2 ^ 53 ∧ -1074 ≤ f ∧ (f = -1074 ∨ 2 ^ 52 ≤ n)) :
    (m * 2 ^ e : ℚ) < n * 2 ^ f ↔ e < f ∨ e = f ∧ m < n := by
  refine ⟨fun hless => ?_, scaled_lt hm.1 hm.2.1 hn.2.2⟩
  by_contra hge
  have hcases : (f < e ∨ f = e ∧ n < m) ∨ f = e ∧ n = m := by omega
  rcases hcases with hgreater | ⟨rfl, rfl⟩
  · exact lt_asymm hless (scaled_lt hn.1 hn.2.1 hm.2.2 hgreater)
  · exact lt_irrefl _ hless

/-- Comparing the parts of finite floats compares what they stand for. -/
theorem unpacked_lt_iff (ha : Reduced a) (hb : Reduced b) :
    a.lt b = true ↔ number a < number b := by
  have hpos : ∀ {m : ℕ} (e : ℤ), 0 < m → (0 : ℚ) < m * 2 ^ e := fun e h => by positivity
  rcases a with _ | _ | s | ⟨s, m, e, hm⟩
  · exact ha.elim
  · exact ha.elim
  · rcases b with _ | _ | t | ⟨t, n, f, hn⟩
    · exact hb.elim
    · exact hb.elim
    · simp [UnpackedFloat.lt, UnpackedFloat.compare, number]
    · have hn' := hpos f hn
      cases t
      · simp [UnpackedFloat.lt, UnpackedFloat.compare, number, factor, hn'.le]
      · simp [UnpackedFloat.lt, UnpackedFloat.compare, number, factor, hn']
  · rcases b with _ | _ | t | ⟨t, n, f, hn⟩
    · exact hb.elim
    · exact hb.elim
    · have hm' := hpos e hm
      cases s
      · simp [UnpackedFloat.lt, UnpackedFloat.compare, number, factor, hm']
      · simp [UnpackedFloat.lt, UnpackedFloat.compare, number, factor, hm'.le]
    · have hm' := hpos e hm
      have hn' := hpos f hn
      cases s <;> cases t
      · have hiff := scaled_lt_iff hb ha
        simp [UnpackedFloat.lt, UnpackedFloat.compare, number, factor, hiff,
          Ordering.then_eq_gt, Int.compare_eq_gt, Nat.compare_eq_gt]
        grind
      · simp [UnpackedFloat.lt, UnpackedFloat.compare, number, factor]
        linarith
      · simp [UnpackedFloat.lt, UnpackedFloat.compare, number, factor]
        linarith
      · have hiff := scaled_lt_iff ha hb
        simp [UnpackedFloat.lt, UnpackedFloat.compare, number, factor, hiff,
          Ordering.then_eq_lt, Int.compare_eq_lt, Nat.compare_eq_lt]

/-- Without NaN the order is total. -/
theorem le_eq_not_lt (ha : a.isNaN = false) (hb : b.isNaN = false) : a.le b = !b.lt a := by
  obtain ⟨o, ho⟩ : ∃ o, a.compare b = some o := by
    rcases a with s | _ | s | ⟨s, m, e, hm⟩
    on_goal 2 => cases ha
    all_goals rcases b with t | _ | t | ⟨t, n, f, hn⟩
    any_goals cases hb
    all_goals cases s <;> cases t <;> exact ⟨_, rfl⟩
  rw [UnpackedFloat.le, UnpackedFloat.lt, compare_swap a b, ho]
  cases o <;> rfl

theorem Reduced.isNaN_eq (ha : Reduced a) : a.isNaN = false := by
  rcases a with _ | _ | _ | _
  · exact ha.elim
  · exact ha.elim
  · rfl
  · rfl

theorem lt_iff_toRat (hx : x.isFinite = true) (hy : y.isFinite = true) :
    Scalar.lt x y = true ↔ toRat x < toRat y :=
  (scalar_lt_iff x y).trans (unpacked_lt_iff (reduced_unpack hx) (reduced_unpack hy))

theorem le_iff_toRat (hx : x.isFinite = true) (hy : y.isFinite = true) :
    Scalar.le x y = true ↔ toRat x ≤ toRat y := by
  have hx' := reduced_unpack hx
  have hy' := reduced_unpack hy
  rw [scalar_le_iff, le_eq_not_lt hx'.isNaN_eq hy'.isNaN_eq, Bool.not_eq_true', ← Bool.not_eq_true,
    unpacked_lt_iff hy' hx', not_lt]
  rfl

/-- Numbers other than zero have one form. -/
theorem Reduced.eq_of_number_eq (ha : Reduced a) (hb : Reduced b) (h : number a = number b)
    (hne : number b ≠ 0) : a = b := by
  have hle : ∀ {c d : UnpackedFloat}, Reduced c → Reduced d → number c = number d →
      rank c ≤ rank d := by
    intro c d hc hd heq
    by_contra hlt
    have hless := (lt_iff_rank d c).mpr ⟨hd.isNaN_eq, hc.isNaN_eq, not_le.mp hlt⟩
    exact (ne_of_lt ((unpacked_lt_iff hd hc).mp hless)) heq.symm
  have hrank := le_antisymm (hle ha hb h) (hle hb ha h.symm)
  rcases a with _ | _ | _ | ⟨s, m, e, hm⟩
  · exact ha.elim
  · exact ha.elim
  · exact absurd h.symm hne
  · rcases b with _ | _ | _ | ⟨t, n, f, hn⟩
    · exact hb.elim
    · exact hb.elim
    · exact absurd rfl hne
    · cases s <;> cases t <;> simp_all [rank]

/-- Only the two zeros stand for the same. -/
theorem eq_of_toRat_eq (hx : x.isFinite = true) (hy : y.isFinite = true)
    (h : toRat x = toRat y) (hne : toRat y ≠ 0) : x = y := by
  have hparts := (reduced_unpack hx).eq_of_number_eq (reduced_unpack hy) h hne
  exact (ofModel_pack rfl).symm.trans (ofModel_pack hparts)

/-! ### Operations that change nothing -/

theorem float_sub_zero (x : Float) : x - 0 = x := by
  have hsub : sub Format.binary64 x.toModel.unpack (.zero .positive) = x.toModel.unpack := by
    rcases x.toModel.unpack with _ | _ | s | _
    · rfl
    · rfl
    · cases s <;> rfl
    · rfl
  exact ofModel_pack hsub

theorem float_div_one (x : Float) : x / 1 = x := by
  have hone : (1 : Float).toModel.unpack = .finite .positive (2 ^ 52) (-52) (by decide) := by rfl
  have hdiv : div Format.binary64 x.toModel.unpack (.finite .positive (2 ^ 52) (-52) (by decide)) =
      x.toModel.unpack := by
    by_cases hx : x.isFinite = true
    · rcases unpack_of_isFinite hx with ⟨s, hs⟩ | ⟨s, b, hb, hs⟩
      · rw [hs]
        cases s <;> rfl
      · have hnear : b.Near (b.mantissa * 2 ^ b.exponent / ((2 ^ 52 : ℕ) * 2 ^ (-52 : ℤ))) := by
          have hsame : (((2 ^ 52 : ℕ) : ℚ) * 2 ^ (-52 : ℤ)) = 1 := by norm_num
          rw [hsame, div_one]
          exact Binary.near_value b
        rw [hs, div_eq hb hnear]
        cases s <;> rfl
    · revert hx
      show ¬ UnpackedFloat.isFinite x.toModel.unpack = true → _
      rcases x.toModel.unpack with s | _ | s | _
      · intro
        cases s <;> rfl
      · intro
        rfl
      · exact fun h => absurd rfl h
      · exact fun h => absurd rfl h
  rw [← hone] at hdiv
  exact ofModel_pack hdiv

/-- Nothing finite can be done about infinity. -/
theorem add_infinity (hx : x.isFinite = true) : x + infinity = infinity := by
  have hunpack : infinity.toModel.unpack = .infinity .positive := by rfl
  refine ofModel_pack ?_
  rw [hunpack]
  rcases unpack_of_isFinite hx with ⟨s, hs⟩ | ⟨s, b, hb, hs⟩ <;> rw [hs] <;> rfl

theorem infinity_sub (hx : x.isFinite = true) : infinity - x = infinity := by
  have hunpack : infinity.toModel.unpack = .infinity .positive := by rfl
  refine ofModel_pack ?_
  rw [hunpack]
  rcases unpack_of_isFinite hx with ⟨s, hs⟩ | ⟨s, b, hb, hs⟩ <;> rw [hs] <;> rfl

end FormulaPlot
