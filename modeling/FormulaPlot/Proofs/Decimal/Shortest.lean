/-
The decimal that is written for a float.

It is one of those that read back, or the float itself.  Nothing is said of how many digits
it has: that seventeen are enough would make the second case impossible, but reading the
decimal does not need it.
-/
import FormulaPlot.Decimal.Shortest
import FormulaPlot.Proofs.Decimal.Nearest

namespace FormulaPlot.Decimal

/-- The number that the decimal stands for. -/
def Scientific.value (d : Scientific) : ℚ := d.digits * 10 ^ d.exponent

variable {x : Binary} {d : Scientific}

/-- Scaling both sides to whole numbers does not change which one is larger. -/
theorem compareScaled_eq (a : ℕ) (i : ℤ) (b : ℕ) (j : ℤ) :
    compareScaled a i b j = compare ((a : ℚ) * 10 ^ i) (b * 2 ^ j) := by
  have hleft : (a : ℚ) * 10 ^ i = a * 10 ^ i.toNat / 10 ^ (-i).toNat := by
    rw [Binary.zpow_eq_div (by norm_num), mul_div_assoc]
  have hright : (b : ℚ) * 2 ^ j = b * 2 ^ j.toNat / 2 ^ (-j).toNat := by
    rw [Binary.zpow_eq_div two_ne_zero, mul_div_assoc]
  have hten : (0 : ℚ) < 10 ^ (-i).toNat := by positivity
  have htwo : (0 : ℚ) < 2 ^ (-j).toNat := by positivity
  show compare (a * 10 ^ i.toNat * 2 ^ (-j).toNat) (b * 2 ^ j.toNat * 10 ^ (-i).toNat) = _
  rw [hleft, hright]
  rcases lt_trichotomy (a * 10 ^ i.toNat * 2 ^ (-j).toNat) (b * 2 ^ j.toNat * 10 ^ (-i).toNat) with
    h | h | h
  · rw [Nat.compare_eq_lt.mpr h, eq_comm, compare_lt_iff_lt, div_lt_div_iff₀ hten htwo]
    exact_mod_cast h
  · rw [Nat.compare_eq_eq.mpr h, eq_comm, compare_eq_iff_eq, div_eq_div_iff hten.ne' htwo.ne']
    exact_mod_cast h
  · rw [Nat.compare_eq_gt.mpr h, eq_comm, compare_gt_iff_gt, div_lt_div_iff₀ htwo hten]
    exact_mod_cast h

/-- A decimal that reads back is near. -/
theorem near_of_readsBack (hpos : 0 < x.mantissa) (h : x.readsBack d = true) : x.Near d.value := by
  have hquarter : (2 : ℚ) ^ (x.exponent - 2) = 2 ^ x.exponent / 4 := by
    rw [zpow_sub₀ two_ne_zero]
    norm_num
  have hlow : ((if x.narrowBelow then 4 * x.mantissa - 1 else 4 * x.mantissa - 2 : ℕ) : ℚ) *
      2 ^ (x.exponent - 2) = (x.mantissa - x.below) * 2 ^ x.exponent := by
    rw [hquarter]
    unfold Binary.below
    split
    · push_cast [show 1 ≤ 4 * x.mantissa by omega]
      ring
    · push_cast [show 2 ≤ 4 * x.mantissa by omega]
      ring
  have hhigh : ((4 * x.mantissa + 2 : ℕ) : ℚ) * 2 ^ (x.exponent - 2) =
      (x.mantissa + 1 / 2) * 2 ^ x.exponent := by
    rw [hquarter]
    push_cast
    ring
  unfold Binary.readsBack at h
  simp only [compareScaled_eq, hlow, hhigh, Bool.and_eq_true, Bool.or_eq_true, beq_iff_eq,
    compare_gt_iff_gt, compare_lt_iff_lt, compare_eq_iff_eq] at h
  obtain ⟨hbelow, habove⟩ := h
  unfold Scientific.value
  refine ⟨?_, ?_, ?_⟩
  · rcases hbelow with h | ⟨-, h⟩
    · exact h.le
    · exact h.ge
  · rcases habove with h | ⟨-, h⟩
    · exact h.le
    · exact h.le
  · rintro (htie | htie)
    · rcases hbelow with h | ⟨heven, -⟩
      · exact absurd htie h.ne'
      · exact heven
    · rcases habove with h | ⟨heven, -⟩
      · exact absurd htie h.ne
      · exact heven

/-- Zeros at the end of the digits can go into the exponent. -/
theorem value_strip (fuel : ℕ) (d : Scientific) : (d.strip fuel).value = d.value := by
  induction fuel generalizing d with
  | zero => rfl
  | succ fuel ih =>
      unfold Scientific.strip
      by_cases h : d.digits ≠ 0 ∧ d.digits % 10 = 0
      · rw [if_pos h, ih]
        have hdigits : (d.digits : ℚ) = (d.digits / 10 : ℕ) * 10 := by
          exact_mod_cast (Nat.div_mul_cancel (Nat.dvd_of_mod_eq_zero h.2)).symm
        unfold Scientific.value
        rw [hdigits, zpow_add_one₀ (by norm_num)]
        ring
      · rw [if_neg h]

theorem readsBack_of_onGrid? {grid : ℤ} (h : x.onGrid? grid = some d) : x.readsBack d = true := by
  unfold Binary.onGrid? at h
  dsimp only at h
  split at h
  · rename_i hlower hupper
    cases h
    split
    · exact hlower
    · exact hupper
  · rename_i hlower hupper
    cases h
    exact hlower
  · rename_i hlower hupper
    cases h
    exact hupper
  · cases h

/-- The decimal that is written is near the float. -/
theorem near_shortest (hpos : 0 < x.mantissa) : x.Near x.shortest.value := by
  unfold Binary.shortest
  dsimp only
  split
  · rename_i d hsome
    obtain ⟨n, -, hn⟩ := List.exists_of_findSome?_eq_some hsome
    rw [value_strip]
    exact near_of_readsBack hpos (readsBack_of_onGrid? hn)
  · have hexact : (⟨x.mantissa * Nat.pow 2 x.exponent.toNat * Nat.pow 5 (-x.exponent).toNat,
        min x.exponent 0⟩ : Scientific).value = x.value := by
      have hmin : min x.exponent 0 = -((-x.exponent).toNat : ℤ) := by omega
      have hten : (10 : ℚ) ^ (-x.exponent).toNat =
          2 ^ (-x.exponent).toNat * 5 ^ (-x.exponent).toNat := by
        rw [← mul_pow]
        norm_num
      unfold Scientific.value Binary.value
      dsimp only
      rw [hmin, zpow_neg, zpow_natCast, hten, Binary.zpow_eq_div two_ne_zero x.exponent]
      simp only [Nat.pow_eq]
      push_cast
      field_simp
    rw [hexact]
    exact x.near_value

end FormulaPlot.Decimal
