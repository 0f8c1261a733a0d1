/-
On which canvases a curve can be drawn.

A viewport that is accepted has a width that is not negative.  It may be infinite, and then
the middle of the canvas is its right end, so that the left half is the whole canvas again.
It may also be so large that neighbouring floats at the right end are farther apart than the
finest spacing; then an interval between neighbours is its own half, and a curve that ends
between them is looked at for ever.  This happens above `widest`.

Up to `widest` every division comes to an end, whatever the curve.  The middle of two floats is
computed with two operations, of which the second is exact, so it is no farther from the exact
middle than half of the gap between floats at the sum.  An interval that has been halved often
enough is as wide as the gap, and that is less than the finest spacing.
-/
import FormulaPlot.Curve.Polyline
import FormulaPlot.Session.Basic
import FormulaPlot.Proofs.Curve.Bisection
import FormulaPlot.Proofs.Number.Arithmetic

namespace FormulaPlot.Curve

variable {v : Viewport Float} {f : Float → Float} {i : Interval Float} {w x y : Float}

/-! ### The numbers of the sampler -/

/-- The widest canvas, with `2 ^ 43` pixels. -/
def widest : Float := 8796093022208

theorem toRat_zero : toRat Scalar.zero = 0 := by
  have hunpack : (Scalar.zero : Float).toModel.unpack = .zero .positive := by rfl
  rw [toRat, hunpack]
  rfl

theorem toRat_half : toRat Scalar.half = 1 / 2 := by
  have hunpack : (Scalar.half : Float).toModel.unpack =
      .finite .positive (2 ^ 52) (-53) (by decide) := by rfl
  rw [toRat_of_unpack hunpack]
  norm_num

theorem toRat_finest : toRat Spacing.screen.finest = 4611686018427388 * 2 ^ (-62 : ℤ) := by
  have hunpack : Spacing.screen.finest.toModel.unpack =
      .finite .positive 4611686018427388 (-62) (by decide) := by rfl
  rw [toRat_of_unpack hunpack]
  norm_num

theorem toRat_widest : toRat widest = 2 ^ (43 : ℤ) := by
  have hunpack : widest.toModel.unpack = .finite .positive (2 ^ 52) (-9) (by decide) := by rfl
  rw [toRat_of_unpack hunpack]
  norm_num

theorem isFinite_zero : (Scalar.zero : Float).isFinite = true := by decide

theorem isFinite_half : (Scalar.half : Float).isFinite = true := by decide

theorem isFinite_finest : Spacing.screen.finest.isFinite = true := by decide

theorem isFinite_widest : widest.isFinite = true := by decide

/-! ### Canvases that are not too wide -/

/-- The float is a place on the widest canvas. -/
structure Placed (x : Float) : Prop where
  finite : x.isFinite = true
  nonneg : 0 ≤ toRat x
  le : toRat x ≤ 2 ^ (43 : ℤ)

/-- How far a middle can be from the exact one. -/
def slack : ℚ := 2 ^ (-11 : ℤ) + 2 ^ (-30 : ℤ)

/-- The middle of two places is a place, and almost exactly in the middle. -/
theorem Placed.middle (hx : Placed x) (hy : Placed y) :
    Placed ((x + y) * Scalar.half) ∧
      |toRat ((x + y) * Scalar.half) - (toRat x + toRat y) / 2| ≤ slack := by
  have hlow : -2 ^ (1024 : ℤ) < (0 : ℚ) := neg_lt_zero.mpr (by positivity)
  have hhigh : ∀ {k : ℤ}, k < 1024 → (2 : ℚ) ^ k < 2 ^ (1024 : ℤ) :=
    fun hk => zpow_lt_zpow_right₀ one_lt_two hk
  have hsum : 0 ≤ toRat x + toRat y ∧ toRat x + toRat y ≤ 2 ^ (44 : ℤ) := by
    refine ⟨add_nonneg hx.nonneg hy.nonneg, (add_le_add hx.le hy.le).trans_eq ?_⟩
    norm_num
  obtain ⟨hfinite, hnear⟩ := (rounds_add hx.finite hy.finite).isFinite onGrid_zero
    (onGrid_two_zpow (by norm_num)) hsum ⟨hlow, hhigh (by norm_num)⟩
  have herror := hnear.abs_sub_le (k := 44) (by norm_num)
    (by rw [abs_of_nonneg hsum.1]; exact hsum.2)
  have hrounded : 0 ≤ toRat (x + y) / 2 ∧ toRat (x + y) / 2 ≤ 2 ^ (43 : ℤ) := by
    have := hnear.ge_of_ge onGrid_zero hsum.1
    have := hnear.le_of_le (onGrid_two_zpow (by norm_num)) hsum.2
    constructor <;> linarith
  have hproduct := rounds_mul hfinite isFinite_half
  rw [toRat_half, mul_one_div] at hproduct
  obtain ⟨hfinite', hnear'⟩ := hproduct.isFinite onGrid_zero (onGrid_two_zpow (by norm_num))
    hrounded ⟨hlow, hhigh (by norm_num)⟩
  have herror' := hnear'.abs_sub_half_le hnear.onGrid
  refine ⟨⟨hfinite', hnear'.ge_of_ge onGrid_zero hrounded.1,
    hnear'.le_of_le (onGrid_two_zpow (by norm_num)) hrounded.2⟩, ?_⟩
  calc |toRat ((x + y) * Scalar.half) - (toRat x + toRat y) / 2|
      ≤ |toRat ((x + y) * Scalar.half) - toRat (x + y) / 2| +
          |toRat (x + y) / 2 - (toRat x + toRat y) / 2| := abs_sub_le _ _ _
    _ ≤ 2 ^ (-30 : ℤ) + 2 ^ ((44 : ℤ) - 54) / 2 := by
        rw [← sub_div, abs_div, abs_two]
        exact add_le_add herror' (div_le_div_of_nonneg_right herror two_pos.le)
    _ = slack := by norm_num [slack]

/-- The interval lies on the widest canvas, and if halving were exact, it could be halved so many
times before its width falls to `2 ^ -16`. -/
structure Halvable (n : ℕ) (i : Interval Float) : Prop where
  left : Placed i.left.x
  right : Placed i.right.x
  width : toRat i.right.x - toRat i.left.x ≤ 2 ^ n * 2 ^ (-16 : ℤ) + 2 * slack

theorem Halvable.halves {n : ℕ} (h : Halvable (n + 1) i) (v : Viewport Float)
    (f : Float → Float) :
    Halvable n ⟨i.left, middle v f i⟩ ∧ Halvable n ⟨middle v f i, i.right⟩ := by
  obtain ⟨hmiddle, herror⟩ := h.left.middle h.right
  have hwidth := h.width
  rw [pow_succ] at hwidth
  obtain ⟨hlow, hhigh⟩ := abs_le.mp herror
  refine ⟨⟨h.left, hmiddle, ?_⟩, hmiddle, h.right, ?_⟩
  · show toRat ((i.left.x + i.right.x) * Scalar.half) - toRat i.left.x ≤ _
    linarith
  · show toRat i.right.x - toRat ((i.left.x + i.right.x) * Scalar.half) ≤ _
    linarith

/-- What cannot be halved any more need not be halved. -/
theorem Halvable.needsSplit (h : Halvable 0 i) : needsSplit .screen i = false := by
  have hgrid := onGrid_toRat isFinite_finest
  have hnarrow : toRat i.right.x - toRat i.left.x ≤ toRat Spacing.screen.finest := by
    refine h.width.trans ?_
    rw [toRat_finest]
    norm_num [slack]
  have hlow : -2 ^ (43 : ℤ) ≤ toRat i.right.x - toRat i.left.x := by
    have := h.right.nonneg
    have := h.left.le
    linarith
  have hsize : -2 ^ (1024 : ℤ) < (-2 ^ (43 : ℤ) : ℚ) ∧
      toRat Spacing.screen.finest < 2 ^ (1024 : ℤ) := by
    refine ⟨neg_lt_neg (zpow_lt_zpow_right₀ one_lt_two (by norm_num)), ?_⟩
    refine lt_of_lt_of_le ?_ (one_le_zpow₀ one_le_two (by norm_num))
    rw [toRat_finest]
    norm_num
  obtain ⟨hfinite, hnear⟩ := (rounds_sub h.right.finite h.left.finite).isFinite
    (onGrid_two_zpow (by norm_num)).neg hgrid ⟨hlow, hnarrow⟩ hsize
  exact needsSplit_eq_false.mpr (.inl ((le_iff_toRat hfinite isFinite_finest).mpr
    (hnear.le_of_le hgrid hnarrow)))

/-- The canvas is divided after few halvings. -/
theorem Placed.exists_bisect (hw : Placed v.width) (f : Float → Float) :
    ∃ b, bisect v .screen f 59 (canvas v f) = some b := by
  have hleft : Placed (Scalar.zero : Float) := by
    refine ⟨isFinite_zero, toRat_zero.ge, ?_⟩
    rw [toRat_zero]
    positivity
  refine Curve.exists_bisect (P := Halvable) (fun _ => Halvable.needsSplit)
    (fun _ _ _ h => h.halves v f) ⟨hleft, hw, ?_⟩
  show toRat v.width - toRat Scalar.zero ≤ _
  have := hw.le
  rw [toRat_zero]
  have hpower : (2 : ℚ) ^ 59 * 2 ^ (-16 : ℤ) = 2 ^ (43 : ℤ) := by norm_num
  have hslack : 0 ≤ slack := by norm_num [slack]
  linarith

/-! ### Canvases that are too wide -/

/-- The interval goes on to infinity. -/
structure Unbounded (i : Interval Float) : Prop where
  left : i.left.x.isFinite = true
  right : i.right.x = infinity

/-- No limit on the spacing is infinite. -/
structure Spacing.Bounded (spacing : Spacing Float) : Prop where
  finest : Scalar.le infinity spacing.finest = false
  coarsest : Scalar.lt spacing.coarsest infinity = true

theorem bounded_screen : Spacing.screen.Bounded := ⟨by decide, by decide⟩

theorem Unbounded.needsSplit (h : Unbounded i) {spacing : Spacing Float}
    (hspacing : spacing.Bounded) : needsSplit spacing i = true := by
  have hwidth : i.width = infinity := by rw [Interval.width, h.right, infinity_sub h.left]
  rw [← Bool.not_eq_false, needsSplit_eq_false, hwidth, hspacing.finest, hspacing.coarsest]
  simp

/-- The middle is infinite, too. -/
theorem Unbounded.half (h : Unbounded i) (v : Viewport Float) (f : Float → Float) :
    Unbounded ⟨i.left, middle v f i⟩ := by
  refine ⟨h.left, ?_⟩
  show (i.left.x + i.right.x) * Scalar.half = infinity
  rw [h.right, add_infinity h.left]
  decide

/-- Whatever the curve, an interval that goes on to infinity is halved for ever. -/
theorem Unbounded.bisect_eq_none (h : Unbounded i) {spacing : Spacing Float}
    (hspacing : spacing.Bounded) (depth : ℕ) : bisect v spacing f depth i = none :=
  Curve.bisect_eq_none (fun _ h => Unbounded.needsSplit h hspacing)
    (fun _ h => .inl (h.half v f)) depth h

theorem unbounded_canvas (hw : v.width = infinity) : Unbounded (canvas v f) :=
  ⟨isFinite_zero, hw⟩

/-- The canvas of some width with the origin at its upper left corner, in units of a pixel. -/
def strip (w : Float) : Viewport Float := ⟨Scalar.one, ⟨Scalar.zero, Scalar.zero⟩, w, Scalar.one⟩

/-- The curve that has points up to some place only. -/
def endingAt (w x : Float) : Float := if Scalar.lt x w then Scalar.zero else nan

theorem isFinite_strip (w x : Float) :
    Scalar.isFinite (pointAt (strip w) (endingAt w) x).y = Scalar.lt x w := by
  have hplace : (x - Scalar.zero) / Scalar.one = x := (float_div_one _).trans (float_sub_zero x)
  show Scalar.isFinite (endingAt w ((x - Scalar.zero) / Scalar.one) * -Scalar.one + Scalar.zero) = _
  rw [hplace, endingAt]
  cases Scalar.lt x w <;> decide

/-- The curve ends inside the interval. -/
structure Straddles (w : Float) (i : Interval Float) : Prop where
  left : i.left = pointAt (strip w) (endingAt w) i.left.x
  right : i.right = pointAt (strip w) (endingAt w) i.right.x
  finite : i.left.x.isFinite = true ∧ i.right.x.isFinite = true
  nonneg : 0 ≤ toRat i.left.x
  lt : toRat i.left.x < toRat w
  le : toRat w ≤ toRat i.right.x

/-- Above `widest` there is no room for a narrow interval. -/
theorem Straddles.needsSplit (hw : w.isFinite = true) (hwide : toRat widest < toRat w)
    (h : Straddles w i) : needsSplit .screen i = true := by
  have hgap : 2 ^ (-9 : ℤ) ≤ toRat i.right.x - toRat i.left.x := by
    have hapart := (onGrid_toRat h.finite.1).gap (k := -9) (onGrid_toRat hw) h.lt
      (by rw [toRat_widest] at hwide; exact hwide)
    have := h.le
    linarith
  have hless : toRat Spacing.screen.finest < 2 ^ (-9 : ℤ) := by
    rw [toRat_finest]
    norm_num
  rw [← Bool.not_eq_false, needsSplit_eq_false]
  rintro (hfine | ⟨-, hends, -⟩)
  · rcases (rounds_sub h.finite.2 h.finite.1).ge (onGrid_two_zpow (by norm_num)) hgap
      (by positivity) with ⟨hfinite, hle⟩ | hinfinite
    · rw [Interval.width, le_iff_toRat hfinite isFinite_finest] at hfine
      exact absurd hfine (not_le.mpr (hless.trans_le hle))
    · rw [Interval.width, hinfinite] at hfine
      exact absurd hfine (by decide)
  · rw [h.left, h.right, isFinite_strip, isFinite_strip,
      (lt_iff_toRat h.finite.1 hw).mpr h.lt, eq_comm, lt_iff_toRat h.finite.2 hw] at hends
    exact absurd hends (not_lt.mpr h.le)

/-- The curve ends inside one half as well, unless the middle is infinite. -/
theorem Straddles.half (h : Straddles w i) :
    Unbounded ⟨i.left, middle (strip w) (endingAt w) i⟩ ∨
      Straddles w ⟨i.left, middle (strip w) (endingAt w) i⟩ ∨
      Straddles w ⟨middle (strip w) (endingAt w) i, i.right⟩ := by
  have hbound : 0 ≤ toRat i.left.x + toRat i.right.x := by
    have := h.nonneg
    have := h.lt
    have := h.le
    linarith
  rcases (rounds_add h.finite.1 h.finite.2).ge onGrid_zero hbound le_rfl with
    ⟨hsum, hnonneg⟩ | hsum
  · have hproduct := rounds_mul hsum isFinite_half
    rw [toRat_half] at hproduct
    rcases hproduct.ge onGrid_zero (mul_nonneg hnonneg (by norm_num)) le_rfl with
      ⟨hmiddle, hnonneg'⟩ | hmiddle
    · right
      rcases lt_or_ge (toRat (middle (strip w) (endingAt w) i).x) (toRat w) with hlt | hge
      · exact .inr ⟨rfl, h.right, ⟨hmiddle, h.finite.2⟩, hnonneg', hlt, h.le⟩
      · exact .inl ⟨h.left, rfl, ⟨h.finite.1, hmiddle⟩, h.nonneg, h.lt, hge⟩
    · exact .inl ⟨h.finite.1, hmiddle⟩
  · refine .inl ⟨h.finite.1, ?_⟩
    show (i.left.x + i.right.x) * Scalar.half = infinity
    rw [hsum]
    decide

/-- A curve that ends on the right of `widest` is looked at for ever. -/
theorem Straddles.bisect_eq_none (hw : w.isFinite = true) (hwide : toRat widest < toRat w)
    (h : Straddles w i) (depth : ℕ) : bisect (strip w) .screen (endingAt w) depth i = none := by
  refine Curve.bisect_eq_none (P := fun i => Straddles w i ∨ Unbounded i) ?_ ?_ depth (.inl h)
  · rintro i (h | h)
    · exact h.needsSplit hw hwide
    · exact h.needsSplit bounded_screen
  · rintro i (h | h)
    · rcases h.half with hhalf | hhalf | hhalf
      · exact .inl (.inr hhalf)
      · exact .inl (.inl hhalf)
      · exact .inr (.inl hhalf)
    · exact .inl (.inr (h.half _ _))

theorem straddles_canvas (hw : w.isFinite = true) (hpos : 0 < toRat w) :
    Straddles w (canvas (strip w) (endingAt w)) where
  left := rfl
  right := rfl
  finite := ⟨isFinite_zero, hw⟩
  nonneg := toRat_zero.ge
  lt := toRat_zero.trans_lt hpos
  le := le_rfl

/-! ### Accepted viewports -/

theorem fault_eq_none : ViewportFault.of? v = none ↔
    Scalar.lt Scalar.zero v.scale = true ∧ Scalar.le Scalar.zero v.width = true ∧
      Scalar.le Scalar.zero v.height = true := by
  show (if !Scalar.lt Scalar.zero v.scale then some ViewportFault.scale
    else if !(Scalar.le Scalar.zero v.width && Scalar.le Scalar.zero v.height) then
      some .size else none) = none ↔ _
  cases Scalar.lt Scalar.zero v.scale <;> cases Scalar.le Scalar.zero v.width <;>
    cases Scalar.le Scalar.zero v.height <;> simp

/-- A width that is not negative is a number or infinite. -/
theorem finite_or_infinity (hx : Scalar.le Scalar.zero x = true) :
    x.isFinite = true ∧ 0 ≤ toRat x ∨ x = infinity := by
  by_cases hfinite : x.isFinite = true
  · refine .inl ⟨hfinite, ?_⟩
    rwa [le_iff_toRat isFinite_zero hfinite, toRat_zero] at hx
  · right
    have hnan : x.isNaN = false := by
      rw [← Bool.not_eq_true]
      intro hnan
      rw [eq_nan hnan] at hx
      exact absurd hx (by decide)
    rw [isFinite_eq, hnan, Bool.not_false, Bool.true_and, Bool.not_eq_true,
      Bool.not_eq_false'] at hfinite
    have hsame := eq_infinity hfinite
    by_cases hneg : isNegative x = true
    · rw [hsame, if_pos hneg] at hx
      exact absurd hx (by decide)
    · rwa [if_neg hneg] at hsame

theorem sampleWithin_of_pos (hw : Scalar.lt Scalar.zero v.width = true) (depth : ℕ) :
    sampleWithin depth v .screen f =
      (bisect v .screen f depth (canvas v f)).map fun b => draw v.height b.leaves :=
  if_pos hw

/-- Every curve can be drawn on a canvas that is not wider than `widest`. -/
theorem exists_sample (hw : Scalar.le Scalar.zero v.width = true)
    (hle : Scalar.le v.width widest = true) (f : Float → Float) :
    ∃ lines, ∀ depth, 59 ≤ depth → sampleWithin depth v .screen f = some lines := by
  by_cases hdraw : Scalar.lt Scalar.zero v.width = true
  · obtain ⟨hfinite, hnonneg⟩ | hinfinite := finite_or_infinity hw
    · rw [le_iff_toRat hfinite isFinite_widest, toRat_widest] at hle
      obtain ⟨b, hb⟩ := Placed.exists_bisect ⟨hfinite, hnonneg, hle⟩ f
      refine ⟨draw v.height b.leaves, fun depth hdepth => ?_⟩
      rw [sampleWithin_of_pos hdraw, bisect_mono hdepth hb, Option.map_some]
    · rw [hinfinite] at hle
      exact absurd hle (by decide)
  · exact ⟨[], fun depth _ => if_neg hdraw⟩

/-- On every other canvas there is a curve that is looked at for ever. -/
theorem sampleWithin_strip (hw : Scalar.le Scalar.zero w = true)
    (hwide : Scalar.le w widest = false) (depth : ℕ) :
    sampleWithin depth (strip w) .screen (endingAt w) = none := by
  have hbisect : Scalar.lt Scalar.zero w = true ∧
      bisect (strip w) .screen (endingAt w) depth (canvas (strip w) (endingAt w)) = none := by
    obtain ⟨hfinite, -⟩ | rfl := finite_or_infinity hw
    · have hlarge : toRat widest < toRat w := by
        rwa [← Bool.not_eq_true, le_iff_toRat hfinite isFinite_widest, not_le] at hwide
      have hpos : 0 < toRat w := by
        refine lt_trans ?_ hlarge
        rw [toRat_widest]
        positivity
      refine ⟨?_, (straddles_canvas hfinite hpos).bisect_eq_none hfinite hlarge depth⟩
      rwa [lt_iff_toRat isFinite_zero hfinite, toRat_zero]
    · exact ⟨by decide, (unbounded_canvas rfl).bisect_eq_none bounded_screen depth⟩
  rw [sampleWithin_of_pos (v := strip w) hbisect.1, hbisect.2, Option.map_none]

/-- Up to `widest`, and only up to there, every curve can be drawn on every accepted canvas of
that width, and then few halvings are enough. -/
theorem sample_ends_iff (w : Float) (hw : Scalar.le Scalar.zero w = true) :
    ((∀ v f, ViewportFault.of? v = none → v.width = w →
        ∃ depth lines, sampleWithin depth v .screen f = some lines) ↔
      Scalar.le w widest = true) ∧
    (Scalar.le w widest = true → ∀ v f, v.width = w → ∃ lines, sample v .screen f = some lines ∧
      ∀ depth, 59 ≤ depth → sampleWithin depth v .screen f = some lines) := by
  have hends : Scalar.le w widest = true → ∀ v f, v.width = w →
      ∃ lines, sample v .screen f = some lines ∧
        ∀ depth, 59 ≤ depth → sampleWithin depth v .screen f = some lines := by
    rintro hle v f rfl
    obtain ⟨lines, hlines⟩ := exists_sample hw hle f
    exact ⟨lines, hlines maxDepth (by decide), hlines⟩
  refine ⟨⟨fun hall => ?_, fun hle v f _ hv => ?_⟩, hends⟩
  · by_contra hwide
    have hone : Scalar.lt Scalar.zero (Scalar.one : Float) = true ∧
        Scalar.le Scalar.zero (Scalar.one : Float) = true := by decide
    have haccepted : ViewportFault.of? (strip w) = none :=
      fault_eq_none.mpr ⟨hone.1, hw, hone.2⟩
    obtain ⟨depth, lines, hlines⟩ := hall (strip w) (endingAt w) haccepted rfl
    rw [sampleWithin_strip hw (by simpa using hwide) depth] at hlines
    cases hlines
  · obtain ⟨lines, -, hlines⟩ := hends hle v f hv
    exact ⟨59, lines, hlines 59 le_rfl⟩

/-- A hyperbola is drawn on the widest canvas. -/
theorem sample_ends_iff_hyperbola :
    Scalar.le Scalar.zero widest = true ∧
      ∃ lines, sample (.centered 50 widest 600) .screen (1 / ·) = some lines := by
  have hw : Scalar.le Scalar.zero widest = true := by decide
  obtain ⟨-, hends⟩ := sample_ends_iff widest hw
  obtain ⟨lines, hlines, -⟩ := hends (by decide) (.centered 50 widest 600) (1 / ·) rfl
  exact ⟨hw, lines, hlines⟩

/-- An infinite width is accepted, but no curve can be drawn on the canvas. -/
theorem sampleWithin_infinite_canvas :
    ViewportFault.of? (strip infinity) = none ∧
      ∀ f depth, sampleWithin depth (strip infinity) .screen f = none := by
  refine ⟨fault_eq_none.mpr ⟨by decide, by decide, by decide⟩, fun f depth => ?_⟩
  rw [sampleWithin_of_pos (v := strip infinity) (by decide),
    (unbounded_canvas rfl).bisect_eq_none bounded_screen, Option.map_none]

end FormulaPlot.Curve
