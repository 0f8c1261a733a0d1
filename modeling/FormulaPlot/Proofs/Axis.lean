/-
Which graduations an axis gets.

On exact numbers the graduations are the multiples of the unit from the first one in the range to
the last one.  Both are found by rounding a quotient, and the two whole numbers are kept within 64
bits before anything is counted.  As long as that changes neither of them, the list is complete
and holds nothing else.  If it changes one of them, the list is wrong: either an end of it is
missing or, in a range that lies beyond 64 bits, it has a graduation outside of the range.
-/
import FormulaPlot.Axis
import FormulaPlot.Proofs.Number.Exact

namespace FormulaPlot.Axis

open Exact (finite)

/-! ### Whole numbers in a row -/

theorem mem_between {first last i : ℤ} : i ∈ between first last ↔ first ≤ i ∧ i ≤ last := by
  simp only [between, List.mem_map, List.mem_range]
  constructor
  · rintro ⟨n, hn, rfl⟩
    omega
  · rintro ⟨hfirst, hlast⟩
    exact ⟨(i - first).toNat, by omega, by omega⟩

theorem pairwise_between (first last : ℤ) : (between first last).Pairwise (· < ·) := by
  rw [between, List.pairwise_map]
  refine List.pairwise_lt_range.imp fun {i j} hij => ?_
  omega

/-! ### Whole numbers of 64 bits -/

/-- The whole number has 64 bits. -/
def Fits (n : ℤ) : Prop := -2 ^ 63 ≤ n ∧ n < 2 ^ 63

instance (n : ℤ) : Decidable (Fits n) := inferInstanceAs (Decidable (_ ∧ _))

/-- The whole number of 64 bits that is nearest. -/
def saturate (n : ℤ) : ℤ := max (-2 ^ 63) (min (2 ^ 63 - 1) n)

theorem saturate_of_fits {n : ℤ} (h : Fits n) : saturate n = n := by
  unfold Fits at h
  unfold saturate
  omega

/-- If two ends that are in order, or next to each other the wrong way round, can be moved to 64
bits and still have the same numbers between them, zero apart, they had 64 bits before. -/
theorem fits_of_saturate {first last : ℤ} (hends : first ≤ last + 1)
    (h : ∀ k, k ≠ 0 → (saturate first ≤ k ∧ k ≤ saturate last ↔ first ≤ k ∧ k ≤ last)) :
    Fits first ∧ Fits last := by
  have hleast := h (-2 ^ 63) (by decide)
  have hmost := h (2 ^ 63 - 1) (by decide)
  have hfirst := h first
  have hlast := h last
  unfold saturate at *
  unfold Fits
  omega

/-! ### Multiples of the unit -/

variable {K : Type} [Field K] [LinearOrder K] [FloorRing K] {unit low high : K}

/-- The list is in increasing order that of all multiples of the unit in the range but zero. -/
def Graduates (unit low high : K) (tics : List (Exact K)) : Prop :=
  ∃ xs : List K, tics = xs.map finite ∧ xs.Pairwise (· < ·) ∧
    ∀ x, x ∈ xs ↔ ∃ k : ℤ, k ≠ 0 ∧ x = k * unit ∧ low ≤ x ∧ x ≤ high

/-- The factors of the graduations. -/
def factors (unit low high : K) : List ℤ :=
  (between (saturate ⌈low / unit⌉) (saturate ⌊high / unit⌋)).filter (· ≠ 0)

theorem mem_factors {k : ℤ} : k ∈ factors unit low high ↔
    k ≠ 0 ∧ saturate ⌈low / unit⌉ ≤ k ∧ k ≤ saturate ⌊high / unit⌋ := by
  rw [factors, List.mem_filter, mem_between, decide_eq_true_iff, and_comm]

variable [IsStrictOrderedRing K]

/-- A whole number has no fraction to be cut off. -/
theorem toInt64_whole (n : ℤ) : Scalar.toInt64 (finite (n : K)) = saturate n := by
  show max (-2 ^ 63) (min (2 ^ 63 - 1) (if (0 : K) ≤ n then ⌊(n : K)⌋ else ⌈(n : K)⌉)) = _
  rw [Int.floor_intCast, Int.ceil_intCast, ite_self, saturate]

/-- What is drawn at an axis are the multiples by these factors. -/
theorem graduations_eq (hunit : 0 < unit) (hrange : low ≤ high) :
    graduations (finite unit) (finite low) (finite high) =
      ((factors unit low high).map fun k : ℤ => (k : K) * unit).map finite := by
  have hguard : (Scalar.lt Scalar.zero (finite unit) && Scalar.le (finite low) (finite high) &&
      Scalar.isFinite (finite low) && Scalar.isFinite (finite high)) = true := by
    simp [hunit, hrange]
  unfold graduations
  rw [if_pos hguard, Exact.finite_div hunit.ne', Exact.finite_div hunit.ne']
  show ((between (Scalar.toInt64 (finite (⌈low / unit⌉ : K)))
    (Scalar.toInt64 (finite (⌊high / unit⌋ : K)))).filter (· ≠ 0)).map _ = _
  rw [toInt64_whole, toInt64_whole, List.map_map]
  rfl

/-- The multiples in a range are those by the whole numbers between the two quotients. -/
theorem multiple_iff (hunit : 0 < unit) (k : ℤ) :
    low ≤ k * unit ∧ k * unit ≤ high ↔ ⌈low / unit⌉ ≤ k ∧ k ≤ ⌊high / unit⌋ := by
  rw [Int.ceil_le, Int.le_floor, div_le_iff₀ hunit, le_div_iff₀ hunit]

/-- There is no whole number that both quotients leave out. -/
theorem ceil_le_floor_add_one (hunit : 0 < unit) (hrange : low ≤ high) :
    ⌈low / unit⌉ ≤ ⌊high / unit⌋ + 1 := by
  have hquotients : low / unit ≤ high / unit := div_le_div_of_nonneg_right hrange hunit.le
  rw [Int.ceil_le]
  push_cast
  exact hquotients.trans (Int.lt_floor_add_one _).le

/-- The graduations are right exactly if their factors are those of the multiples in the range. -/
theorem graduates_iff (hunit : 0 < unit) (hrange : low ≤ high) :
    Graduates unit low high (graduations (finite unit) (finite low) (finite high)) ↔
      ∀ k : ℤ, k ≠ 0 → (saturate ⌈low / unit⌉ ≤ k ∧ k ≤ saturate ⌊high / unit⌋ ↔
        ⌈low / unit⌉ ≤ k ∧ k ≤ ⌊high / unit⌋) := by
  have hinjective : Function.Injective fun k : ℤ => (k : K) * unit := fun j k hjk =>
    Int.cast_injective (mul_right_cancel₀ hunit.ne' hjk)
  constructor
  · rintro ⟨xs, hxs, -, hmem⟩ k hk
    rw [graduations_eq hunit hrange] at hxs
    obtain rfl := List.map_injective_iff.mpr (fun _ _ => Exact.finite.inj) hxs
    have hdrawn := List.mem_map_of_injective hinjective (a := k) (l := factors unit low high)
    have hinside : (∃ j : ℤ, j ≠ 0 ∧ (k : K) * unit = j * unit ∧ low ≤ k * unit ∧ k * unit ≤ high) ↔
        low ≤ k * unit ∧ k * unit ≤ high :=
      ⟨fun ⟨_, _, _, hbounds⟩ => hbounds, fun hbounds => ⟨k, hk, rfl, hbounds⟩⟩
    rw [← multiple_iff hunit, ← hinside, ← hmem, hdrawn, mem_factors, and_iff_right hk]
  · intro h
    refine ⟨_, graduations_eq hunit hrange, ?_, fun x => ?_⟩
    · rw [List.pairwise_map]
      refine ((pairwise_between _ _).filter _).imp fun {j k} hjk => ?_
      exact mul_lt_mul_of_pos_right (Int.cast_lt.mpr hjk) hunit
    · rw [List.mem_map]
      constructor
      · rintro ⟨k, hk, rfl⟩
        obtain ⟨hne, hbounds⟩ := mem_factors.mp hk
        exact ⟨k, hne, rfl, (multiple_iff hunit k).mpr ((h k hne).mp hbounds)⟩
      · rintro ⟨k, hne, rfl, hbounds⟩
        exact ⟨k, mem_factors.mpr ⟨hne, (h k hne).mpr ((multiple_iff hunit k).mp hbounds)⟩, rfl⟩

/-- **The graduations are exact as far as 64 bits go.**  On exact numbers an axis gets all the
multiples of the unit in its range but zero, in order and nothing else, if and only if the first
and the last of them are multiples by numbers of 64 bits. -/
theorem graduations_exact_iff (hunit : 0 < unit) (hrange : low ≤ high) :
    Graduates unit low high (graduations (finite unit) (finite low) (finite high)) ↔
      Fits ⌈low / unit⌉ ∧ Fits ⌊high / unit⌋ := by
  rw [graduates_iff hunit hrange]
  constructor
  · exact fits_of_saturate (ceil_le_floor_add_one hunit hrange)
  · rintro ⟨hfirst, hlast⟩ k -
    rw [saturate_of_fits hfirst, saturate_of_fits hlast]

/-- The range has the origin inside and a multiple at one of its ends. -/
theorem graduations_exact_around_origin :
    (0 : ℚ) < 1 ∧ (-5 / 2 : ℚ) ≤ 2 ∧
      Graduates (1 : ℚ) (-5 / 2) 2 (graduations (finite 1) (finite (-5 / 2)) (finite 2)) ∧
      graduations (finite (1 : ℚ)) (finite (-5 / 2)) (finite 2) =
        [-2, -1, 1, 2].map finite := by
  have hunit : (0 : ℚ) < 1 := by decide
  have hrange : (-5 / 2 : ℚ) ≤ 2 := by norm_num
  have hfits : Fits ⌈(-5 / 2 : ℚ) / 1⌉ ∧ Fits ⌊(2 : ℚ) / 1⌋ := by decide +kernel
  refine ⟨hunit, hrange, (graduations_exact_iff hunit hrange).mpr hfits, ?_⟩
  rw [graduations_eq hunit hrange]
  exact congrArg (List.map finite) (by decide +kernel)

/-- In a range beyond 64 bits the only multiple of the unit is missing, and there is a graduation
that lies outside. -/
theorem graduations_beyond_64_bits :
    graduations (finite (1 : ℚ)) (finite (10 ^ 19)) (finite (10 ^ 19)) =
        [2 ^ 63 - 1].map finite ∧
      ¬ Graduates (1 : ℚ) (10 ^ 19) (10 ^ 19)
        (graduations (finite 1) (finite (10 ^ 19)) (finite (10 ^ 19))) := by
  have htics : graduations (finite (1 : ℚ)) (finite (10 ^ 19)) (finite (10 ^ 19)) =
      [2 ^ 63 - 1].map finite := by
    rw [graduations_eq (by decide) le_rfl]
    exact congrArg (List.map finite) (by decide +kernel)
  refine ⟨htics, ?_⟩
  rintro ⟨xs, hxs, -, hmem⟩
  obtain rfl := List.map_injective_iff.mpr (fun _ _ => Exact.finite.inj) (htics.symm.trans hxs)
  have hmultiple : (10 ^ 19 : ℚ) ∈ [(2 : ℚ) ^ 63 - 1] :=
    (hmem _).mpr ⟨10 ^ 19, by decide, by norm_num, le_rfl, le_rfl⟩
  rw [List.mem_singleton] at hmultiple
  norm_num at hmultiple

end FormulaPlot.Axis
