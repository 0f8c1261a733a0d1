/-
Where the points of a polyline are.

Every point that is drawn is an end of a leaf, and every end of a leaf was put where the curve
is: the function was called at the logical `x` of the point, and its value was mapped to the
canvas.  The sampler works out the two maps in its own way, and so does the data file, but
they take the same steps.

A point is between the edges of the canvas, because the middle of two floats that are not
negative is between them, unless their sum is infinite.  Then the left half goes on to
infinity and the canvas would not have been divided at all.

Floats round, so that the logical `y` of a point is not quite the value of the function.  On
exact numbers it is.
-/
import FormulaPlot.Proofs.Curve.Termination
import FormulaPlot.Proofs.Number.Exact
import FormulaPlot.Proofs.Plot.Data

namespace FormulaPlot.Curve

/-! ### What the pen leaves behind -/

section Pen

variable {α : Type} {P : Point α → Prop} {pen : Pen α} {p : Point α}

/-- All points that have been drawn are of this sort. -/
structure Pen.Holds (P : Point α → Prop) (pen : Pen α) : Prop where
  current : ∀ p ∈ pen.current, P p
  finished : ∀ line ∈ pen.finished, ∀ p ∈ line, P p

theorem Pen.holds_start : (Pen.start : Pen α).Holds P :=
  ⟨List.forall_mem_nil _, List.forall_mem_nil _⟩

theorem Pen.Holds.lift (h : pen.Holds P) : pen.lift.Holds P := by
  fun_cases Pen.lift pen with
  | case1 _ | case2 _ _ => exact ⟨List.forall_mem_nil _, h.finished⟩
  | case3 =>
      refine ⟨List.forall_mem_nil _, List.forall_mem_cons.mpr ⟨fun p hp => ?_, h.finished⟩⟩
      exact h.current p (List.mem_reverse.mp hp)

variable [Scalar α] {height : α}

theorem Pen.Holds.drawTo (h : pen.Holds P) (hp : P p) : (pen.drawTo p).Holds P := by
  fun_cases Pen.drawTo pen p with
  | case1 _ => exact ⟨List.forall_mem_singleton.mpr hp, h.finished⟩
  | case2 _ _ _ _ => exact h
  | case3 _ _ _ _ => exact ⟨List.forall_mem_cons.mpr ⟨hp, h.current⟩, h.finished⟩

/-- Only finite ends of an interval are drawn. -/
theorem Pen.Holds.trace (h : pen.Holds P) {i : Interval α}
    (hi : ∀ p, p = i.left ∨ p = i.right → Scalar.isFinite p.y = true → P p) :
    (pen.trace height i).Holds P := by
  have hend : ∀ p, p = i.left ∨ p = i.right → visibility height p ≠ .absent → P p := by
    intro p hp hshown
    refine hi p hp ?_
    cases hfinite : Scalar.isFinite p.y with
    | true => rfl
    | false => exact absurd (visibility_of_not_finite hfinite) hshown
  have hleft := hend i.left (.inl rfl)
  have hright := hend i.right (.inr rfl)
  unfold Pen.trace
  generalize visibility height i.left = l, visibility height i.right = r at hleft hright
  split
  · exact (h.drawTo (hleft (by simp))).drawTo (hright (by simp))
  · exact (h.drawTo (hleft (by simp))).drawTo (hright (by simp))
  · exact (h.drawTo (hleft (by simp))).drawTo (hright (by simp))
  · exact (h.drawTo (hleft (by simp))).lift
  · exact h.lift.drawTo (hright (by simp))
  · exact h.lift

theorem Pen.Holds.foldl (h : pen.Holds P) {intervals : List (Interval α)}
    (hi : ∀ i ∈ intervals, ∀ p, p = i.left ∨ p = i.right → Scalar.isFinite p.y = true → P p) :
    (intervals.foldl (Pen.trace height) pen).Holds P := by
  induction intervals generalizing pen with
  | nil => exact h
  | cons i intervals ih =>
      obtain ⟨hfirst, hrest⟩ := List.forall_mem_cons.mp hi
      exact ih (h.trace hfirst) hrest

/-- What holds of the finite ends of the intervals holds of all points that are drawn. -/
theorem of_mem_draw {intervals : List (Interval α)}
    (hi : ∀ i ∈ intervals, ∀ p, p = i.left ∨ p = i.right → Scalar.isFinite p.y = true → P p) :
    ∀ line ∈ draw height intervals, ∀ p ∈ line, P p := fun line hline =>
  (Pen.holds_start.foldl hi).lift.finished line (List.mem_reverse.mp hline)

end Pen

/-! ### Points of the curve -/

section Points

variable {α : Type} [Scalar α] {v : Viewport α} {spacing : Spacing α} {f : α → α} {depth : Nat}
  {lines : List (Polyline α)}

/-- Both ends of an interval are points of the curve. -/
structure Sampled (v : Viewport α) (f : α → α) (i : Interval α) : Prop where
  left : i.left = pointAt v f i.left.x
  right : i.right = pointAt v f i.right.x

theorem Sampled.halves {i : Interval α} (h : Sampled v f i) :
    Sampled v f ⟨i.left, middle v f i⟩ ∧ Sampled v f ⟨middle v f i, i.right⟩ :=
  ⟨⟨h.left, rfl⟩, ⟨rfl, h.right⟩⟩

/-- What is drawn are finite points of the curve. -/
theorem pointAt_of_sample (h : sampleWithin depth v spacing f = some lines) :
    ∀ line ∈ lines, ∀ p ∈ line, p = pointAt v f p.x ∧ Scalar.isFinite p.y = true := by
  unfold sampleWithin at h
  split at h
  · obtain ⟨b, hb, rfl⟩ := Option.map_eq_some_iff.mp h
    refine of_mem_draw fun i hi p hp hfinite => ⟨?_, hfinite⟩
    have hcanvas : Sampled v f (canvas v f) := ⟨rfl, rfl⟩
    obtain ⟨hsampled, -⟩ := leaves_of_halving (fun i _ h => Sampled.halves h) hb hcanvas i hi
    rcases hp with rfl | rfl
    · exact hsampled.left
    · exact hsampled.right
  · cases h
    exact List.forall_mem_nil _

end Points

/-! ### Between the edges of the canvas -/

section Edges

variable {v : Viewport Float} {spacing : Spacing Float} {f : Float → Float} {depth : Nat}
  {lines : List (Polyline Float)} {w x y : Float} {i : Interval Float}

/-- The middle of two floats is between them, unless their sum is too large. -/
theorem middle_between (hx : x.isFinite = true) (hy : y.isFinite = true) (hnonneg : 0 ≤ toRat x)
    (hle : toRat x ≤ toRat y) :
    (((x + y) * Scalar.half).isFinite = true ∧ toRat x ≤ toRat ((x + y) * Scalar.half) ∧
        toRat ((x + y) * Scalar.half) ≤ toRat y) ∨ x + y = infinity := by
  have hlow : -2 ^ (1024 : ℤ) < (0 : ℚ) := neg_lt_zero.mpr (by positivity)
  have hsum : 0 ≤ toRat x + toRat y := add_nonneg hnonneg (hnonneg.trans hle)
  rcases rounds_add hx hy with ⟨hfinite, hnear⟩ | ⟨hinfinite, -, -⟩ | @⟨-, q, hnear, hq⟩
  · -- Twice either number is on the grid, so that rounding the sum does not go past it.
    left
    have hge := hnear.ge_of_ge (onGrid_toRat hx).double (by linarith)
    have hle' := hnear.le_of_le (onGrid_toRat hy).double (by linarith)
    have hbetween : toRat x ≤ toRat (x + y) * (1 / 2) ∧ toRat (x + y) * (1 / 2) ≤ toRat y := by
      constructor <;> linarith
    have hhalf := rounds_mul hfinite isFinite_half
    rw [toRat_half] at hhalf
    obtain ⟨hmiddle, hnear'⟩ := hhalf.isFinite (onGrid_toRat hx) (onGrid_toRat hy) hbetween
      ⟨hlow.trans_le hnonneg, toRat_lt hy⟩
    exact ⟨hmiddle, hnear'.ge_of_ge (onGrid_toRat hx) hbetween.1,
      hnear'.le_of_le (onGrid_toRat hy) hbetween.2⟩
  · exact .inr hinfinite
  · exact absurd (hnear.ge_of_ge onGrid_zero hsum) (not_le.mpr (hq.trans_lt hlow))

/-- The interval goes from left to right on a canvas of the width. -/
structure Within (w : Float) (i : Interval Float) : Prop where
  left : i.left.x.isFinite = true
  right : i.right.x.isFinite = true
  nonneg : 0 ≤ toRat i.left.x
  ordered : toRat i.left.x ≤ toRat i.right.x
  le : toRat i.right.x ≤ toRat w

/-- Halving leads to other places on the canvas or to an interval that is halved for ever. -/
theorem Within.halves (h : Within w i) (v : Viewport Float) (f : Float → Float) :
    Within w ⟨i.left, middle v f i⟩ ∧ Within w ⟨middle v f i, i.right⟩ ∨
      Unbounded ⟨i.left, middle v f i⟩ := by
  rcases middle_between h.left h.right h.nonneg h.ordered with ⟨hfinite, hlow, hhigh⟩ | hsum
  · exact .inl ⟨⟨h.left, hfinite, h.nonneg, hlow, hhigh.trans h.le⟩,
      ⟨hfinite, h.right, h.nonneg.trans hlow, hhigh, h.le⟩⟩
  · refine .inr ⟨h.left, ?_⟩
    show (i.left.x + i.right.x) * Scalar.half = infinity
    rw [hsum]
    decide

theorem Within.leaves (hspacing : spacing.Bounded) {b : Bisection Float} (h : Within w i)
    (hb : bisect v spacing f depth i = some b) : ∀ j ∈ b.leaves, Within w j := by
  induction depth generalizing i b with
  | zero =>
      rcases bisect_eq_some.mp hb with ⟨-, rfl⟩ | ⟨-, _, _, _, ⟨⟩, -⟩
      exact List.forall_mem_singleton.mpr h
  | succ depth ih =>
      rcases bisect_eq_some.mp hb with ⟨-, rfl⟩ | ⟨-, _, left, right, ⟨⟩, hleft, hright, rfl⟩
      · exact List.forall_mem_singleton.mpr h
      · rw [Bisection.leaves_node]
        rcases h.halves v f with ⟨hl, hr⟩ | hunbounded
        · exact List.forall_mem_append.mpr ⟨ih hl hleft, ih hr hright⟩
        · rw [hunbounded.bisect_eq_none hspacing] at hleft
          cases hleft

/-- What is drawn is between the left and the right edge of the canvas. -/
theorem edges_of_sample (hspacing : spacing.Bounded)
    (h : sampleWithin depth v spacing f = some lines) :
    ∀ line ∈ lines, ∀ p ∈ line,
      Scalar.le Scalar.zero p.x = true ∧ Scalar.le p.x v.width = true := by
  unfold sampleWithin at h
  split at h
  · rename_i hwidth
    obtain ⟨b, hb, rfl⟩ := Option.map_eq_some_iff.mp h
    obtain ⟨hw, hnonneg⟩ | hinfinite := finite_or_infinity (scalar_le_of_lt hwidth)
    · have hcanvas : Within v.width (canvas v f) :=
        ⟨isFinite_zero, hw, toRat_zero.ge, toRat_zero.trans_le hnonneg, le_rfl⟩
      refine of_mem_draw fun i hi p hp _ => ?_
      have hleaf := hcanvas.leaves hspacing hb i hi
      have hplaced : p.x.isFinite = true ∧ 0 ≤ toRat p.x ∧ toRat p.x ≤ toRat v.width := by
        rcases hp with rfl | rfl
        · exact ⟨hleaf.left, hleaf.nonneg, hleaf.ordered.trans hleaf.le⟩
        · exact ⟨hleaf.right, hleaf.nonneg.trans hleaf.ordered, hleaf.le⟩
      obtain ⟨hfinite, hlow, hhigh⟩ := hplaced
      rw [le_iff_toRat isFinite_zero hfinite, le_iff_toRat hfinite hw, toRat_zero]
      exact ⟨hlow, hhigh⟩
    · rw [(unbounded_canvas hinfinite).bisect_eq_none hspacing] at hb
      cases hb
  · cases h
    exact List.forall_mem_nil _

end Edges

/-! ### Exact numbers -/

section Exact

open Exact (finite)

variable {K : Type} [Field K] [LinearOrder K] [FloorRing K] {a b : Exact K}

theorem finite_of_add (h : Scalar.isFinite (a + b) = true) :
    Scalar.isFinite a = true ∧ Scalar.isFinite b = true := by
  cases a with
  | finite x =>
      cases b with
      | finite y => exact ⟨rfl, rfl⟩
      | infinite | nan => cases h
  | infinite s =>
      cases b with
      | infinite t => cases s <;> cases t <;> cases h
      | finite | nan => cases h
  | nan => cases h

theorem finite_of_mul (h : Scalar.isFinite (a * b) = true) :
    Scalar.isFinite a = true ∧ Scalar.isFinite b = true := by
  cases a with
  | finite x =>
      cases b with
      | finite y => exact ⟨rfl, rfl⟩
      | infinite t =>
          have hmul : finite x * .infinite t =
              if x = 0 then .nan else .infinite (t ^^ decide (x < 0)) := rfl
          rw [hmul] at h
          split at h <;> cases h
      | nan => cases h
  | infinite s =>
      cases b with
      | finite y =>
          have hmul : .infinite s * finite y =
              if y = 0 then .nan else .infinite (s ^^ decide (y < 0)) := rfl
          rw [hmul] at h
          split at h <;> cases h
      | infinite | nan => cases h
  | nan => cases h

theorem finite_of_neg (h : Scalar.isFinite (-a) = true) : Scalar.isFinite a = true := by
  cases a with
  | finite x => rfl
  | infinite | nan => cases h

/-- Without rounding, the map back from the canvas gives the value of the function. -/
theorem toLogical_pointAt {v : Viewport (Exact K)} (hscale : Scalar.lt Scalar.zero v.scale = true)
    {f : Exact K → Exact K} {x : Exact K} (h : Scalar.isFinite (pointAt v f x).y = true) :
    v.toLogical (pointAt v f x) =
      ⟨(v.toLogical (pointAt v f x)).x, f (v.toLogical (pointAt v f x)).x⟩ := by
  have hpoint : (pointAt v f x).y = f ((x - v.origin.x) / v.scale) * -v.scale + v.origin.y := rfl
  rw [hpoint] at h
  obtain ⟨hproduct, horigin⟩ := finite_of_add h
  obtain ⟨hvalue, hneg⟩ := finite_of_mul hproduct
  obtain ⟨y, hy⟩ := Exact.exists_of_isFinite hvalue
  obtain ⟨o, ho⟩ := Exact.exists_of_isFinite horigin
  obtain ⟨s, hs⟩ := Exact.exists_of_isFinite (finite_of_neg hneg)
  have hpos : 0 < s := by rwa [hs, Exact.zero_eq, Exact.lt_finite] at hscale
  have hback : (v.origin.y - (pointAt v f x).y) / v.scale = finite y := by
    have hminus : -v.scale = finite (-s) := by
      rw [hs]
      rfl
    rw [hpoint, hy, ho, hminus, hs, Exact.finite_mul, Exact.finite_add, Exact.finite_sub,
      Exact.finite_div hpos.ne']
    congr 1
    rw [mul_neg, sub_add_cancel_right, neg_neg, mul_div_cancel_right₀ _ hpos.ne']
  show (⟨_, (v.origin.y - (pointAt v f x).y) / v.scale⟩ : Point (Exact K)) =
    ⟨_, f ((x - v.origin.x) / v.scale)⟩
  rw [hback, hy]
  rfl

end Exact

/-! ### All points of all polylines -/

/-- The point stands where the curve is at the logical `x` of the point, which is the number that
the data file shows. -/
structure OnCurve (v : Viewport Float) (f : Float → Float) (p : Point Float) : Prop where
  /-- The sampler put the point there, and called the function at this number. -/
  sampled : p = pointAt v f p.x
  value : p.y = (v.toCanvas ⟨(v.toLogical p).x, f (v.toLogical p).x⟩).y
  finite : Scalar.isFinite p.y = true
  shown : Plot.pointLine v p = Plot.pointText v p ++ "\n" ∧
    Plot.readPoint? (Plot.pointText v p) = some (v.toLogical p)

theorem onCurve_of_sample {v : Viewport Float} {spacing : Spacing Float} {f : Float → Float}
    {depth : Nat} {lines : List (Polyline Float)}
    (h : sampleWithin depth v spacing f = some lines) :
    ∀ line ∈ lines, ∀ p ∈ line, OnCurve v f p := by
  intro line hline p hp
  obtain ⟨hsampled, hfinite⟩ := pointAt_of_sample h line hline p hp
  have hvalue : p.y = (pointAt v f p.x).y := congrArg Point.y hsampled
  exact ⟨hsampled, hvalue, hfinite, rfl, Plot.readPoint?_pointText⟩

/-- **Every point that is plotted lies on the curve.**  It is between the edges of the canvas unless
a limit on the spacing is infinite, which none is on a screen.  On exact numbers the point is
mapped back to just the point of the curve. -/
theorem sample_points :
    (∀ (v : Viewport Float) (f : Float → Float) (spacing : Spacing Float) (depth : Nat)
      (lines : List (Polyline Float)), sampleWithin depth v spacing f = some lines →
      ∀ line ∈ lines, ∀ p ∈ line, OnCurve v f p ∧
        (spacing.Bounded → Scalar.le Scalar.zero p.x = true ∧ Scalar.le p.x v.width = true)) ∧
    Spacing.screen.Bounded ∧
    ∀ (K : Type) [Field K] [LinearOrder K] [FloorRing K] (v : Viewport (Exact K))
      (f : Exact K → Exact K) (spacing : Spacing (Exact K)) (depth : Nat)
      (lines : List (Polyline (Exact K))), Scalar.lt Scalar.zero v.scale = true →
      sampleWithin depth v spacing f = some lines →
      ∀ line ∈ lines, ∀ p ∈ line,
        v.toLogical p = ⟨(v.toLogical p).x, f (v.toLogical p).x⟩ := by
  refine ⟨?_, bounded_screen, ?_⟩
  · intro v f spacing depth lines h line hline p hp
    exact ⟨onCurve_of_sample h line hline p hp,
      fun hspacing => edges_of_sample hspacing h line hline p hp⟩
  · intro K _ _ _ v f spacing depth lines hscale h line hline p hp
    obtain ⟨hsampled, hfinite⟩ := pointAt_of_sample h line hline p hp
    rw [hsampled] at hfinite ⊢
    exact toLogical_pointAt hscale hfinite

/-- The diagonal of a canvas is one line between two points. -/
theorem sample_points_diagonal :
    let v : Viewport Float := ⟨1, ⟨0, 1⟩, 1, 1⟩
    let w : Viewport (Exact ℚ) := ⟨.finite 1, ⟨.finite 0, .finite 1⟩, .finite 1, .finite 1⟩
    let spacing : Spacing (Exact ℚ) := ⟨.finite (1 / 4), .finite 1⟩
    (∃ lines, sampleWithin 0 v .screen id = some lines ∧ lines.map List.length = [2] ∧
      ∀ line ∈ lines, ∀ p ∈ line, OnCurve v id p ∧
        Scalar.le Scalar.zero p.x = true ∧ Scalar.le p.x v.width = true) ∧
    ∃ lines, sampleWithin 0 w spacing id = some lines ∧ lines.map List.length = [2] ∧
      ∀ line ∈ lines, ∀ p ∈ line, w.toLogical p = ⟨(w.toLogical p).x, (w.toLogical p).x⟩ := by
  intro v w spacing
  obtain ⟨hfloat, hscreen, hexact⟩ := sample_points
  have hlines : ((sampleWithin 0 v .screen id).any fun lines => lines.map List.length == [2]) =
      true := by
    decide +kernel
  have hlines' : ((sampleWithin 0 w spacing id).any fun lines => lines.map List.length == [2]) =
      true := by
    decide +kernel
  obtain ⟨lines, hsample, hlength⟩ := (Option.any_eq_true _ _).mp hlines
  obtain ⟨lines', hsample', hlength'⟩ := (Option.any_eq_true _ _).mp hlines'
  refine ⟨⟨lines, hsample, by simpa using hlength, fun line hline p hp => ?_⟩,
    lines', hsample', by simpa using hlength', ?_⟩
  · obtain ⟨hcurve, hedges⟩ := hfloat v id .screen 0 lines hsample line hline p hp
    exact ⟨hcurve, hedges hscreen⟩
  · exact hexact ℚ w id spacing 0 lines' (by simp [w]) hsample'

end FormulaPlot.Curve
