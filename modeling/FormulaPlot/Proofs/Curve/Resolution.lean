/-
How finely a curve is looked at.

Here the sampler runs on exact numbers.  Halving an interval halves its width, so that the
canvas is divided after finitely many halvings.  A leaf is then as narrow as the spacing asks,
and it is no narrower than needed: what it was cut from was wider than the finest spacing.

A polyline joins the ends of neighbouring leaves that can be drawn.  Two adjacent points of it
are therefore the ends of one leaf with finite values, and what the sampler knows about the
slope of the leaf bounds how far apart they are.
-/
import FormulaPlot.Proofs.Curve.Polyline
import FormulaPlot.Proofs.Number.Exact

namespace FormulaPlot.Curve

/-- Points that follow each other in a line are the ends of one of its segments. -/
theorem mem_segments_of_adjacent {α : Type} {p q : Point α} {line : Polyline α}
    (h : [p, q] <:+: line) : ⟨p, q⟩ ∈ segments line := by
  obtain ⟨s, t, rfl⟩ := h
  induction s with
  | nil => exact List.mem_cons_self
  | cons a s ih =>
      cases s with
      | nil => exact List.mem_cons_of_mem _ List.mem_cons_self
      | cons b s => exact List.mem_cons_of_mem _ ih

variable {K : Type} [Field K] [LinearOrder K] [FloorRing K]
variable {v : Viewport (Exact K)} {spacing : Spacing (Exact K)} {f : Exact K → Exact K}
variable {i : Interval (Exact K)} {a b : K}

open Exact (finite)

/-! ### Halves -/

/-- The interval goes from one number to a larger one. -/
structure Spans (i : Interval (Exact K)) (a b : K) : Prop where
  left : i.left.x = finite a
  right : i.right.x = finite b
  lt : a < b

theorem Spans.width_eq (h : Spans i a b) : i.width = finite (b - a) := by
  rw [Interval.width, h.left, h.right, Exact.finite_sub]

/-- Both limits on the spacing are positive; they may be infinite. -/
structure Positive (spacing : Spacing (Exact K)) : Prop where
  finest : Scalar.lt Scalar.zero spacing.finest = true
  coarsest : Scalar.lt Scalar.zero spacing.coarsest = true

theorem Positive.ne_nan (h : Positive spacing) : spacing.finest ≠ .nan ∧ spacing.coarsest ≠ .nan :=
  ⟨(Exact.ne_nan_of_lt h.finest).2, (Exact.ne_nan_of_lt h.coarsest).2⟩

/-- What is halved is wider than the finest spacing. -/
theorem Spans.finest_lt (hi : Spans i a b) (hpos : Positive spacing)
    (hsplit : needsSplit spacing i = true) : Scalar.lt spacing.finest (finite (b - a)) = true := by
  refine (Exact.lt_or_le hpos.ne_nan.1 (by simp)).resolve_right fun hle => ?_
  rw [← hi.width_eq] at hle
  rw [needsSplit_eq_false.mpr (.inl hle)] at hsplit
  cases hsplit

/-! ### Leaves -/

/-- The interval is as narrow as the spacing asks: in any case, where the curve ends inside it, and
where it is finite at both ends. -/
structure Resolved (spacing : Spacing (Exact K)) (i : Interval (Exact K)) : Prop where
  width : Scalar.le i.width (Scalar.larger spacing.finest spacing.coarsest) = true
  edge : Scalar.isFinite i.left.y ≠ Scalar.isFinite i.right.y →
    Scalar.le i.width spacing.finest = true
  inside : Scalar.isFinite i.left.y = true → Scalar.isFinite i.right.y = true →
    Scalar.le i.width spacing.finest = true ∨
      Scalar.le i.width spacing.coarsest = true ∧
        Scalar.le (Scalar.abs (i.right.y - i.left.y)) spacing.coarsest = true

theorem resolved_of_narrow (hpos : Positive spacing)
    (h : Scalar.le i.width spacing.finest = true) : Resolved spacing i where
  width := Exact.le_trans h (Exact.le_larger hpos.ne_nan.1 hpos.ne_nan.2).1
  edge _ := h
  inside _ _ := .inl h

variable [IsStrictOrderedRing K]

/-- Where the curve is not steeper than the diagonal, it rises no more than the interval is wide;
where it is, the interval is narrower by as much as the curve is steeper. -/
theorem rise_le (hpos : Positive spacing) {d r : K} (hd : 0 < d)
    (hfine : ¬ Scalar.le (finite d) spacing.finest = true)
    (hcoarse : Scalar.le (finite d) spacing.coarsest = true)
    (h : Scalar.lt (spacing.allowed (finite (r / d))) (finite d) = false) :
    Scalar.le (finite r) spacing.coarsest = true := by
  unfold Spacing.allowed at h
  by_cases hslope : Scalar.lt (finite (r / d)) (Scalar.one : Exact K) = true
  · rw [Exact.one_eq, Exact.lt_finite, div_lt_one hd] at hslope
    exact Exact.le_trans (Exact.le_of_lt ((Exact.lt_finite r d).mpr hslope)) hcoarse
  rw [if_neg hslope] at h
  rw [Exact.one_eq, Exact.lt_finite, not_lt] at hslope
  have hsteep : 0 < r / d := one_pos.trans_le hslope
  cases hcoarsest : spacing.coarsest with
  | finite m =>
      -- The larger of the two spacings is not the finest, since that is exceeded.
      have hle : Scalar.le (finite d) (finite (m / (r / d))) = true := by
        rw [hcoarsest, Exact.finite_div hsteep.ne', Exact.larger_eq (by simp) hpos.ne_nan.1] at h
        split at h
        · exact absurd ((Exact.lt_or_le hpos.ne_nan.1 (by simp)).resolve_left (by simp [h])) hfine
        · exact (Exact.lt_or_le (by simp) (by simp)).resolve_left (by simp [h])
      rw [Exact.le_finite, le_div_iff₀ hsteep, mul_div_cancel₀ _ hd.ne'] at hle
      exact (Exact.le_finite r m).mpr hle
  | infinite s =>
      rw [hcoarsest] at hcoarse
      exact hcoarse
  | nan => exact absurd hcoarsest hpos.ne_nan.2

/-- A leaf is as narrow as the spacing asks. -/
theorem Spans.resolved (hi : Spans i a b) (hpos : Positive spacing)
    (hleaf : needsSplit spacing i = false) : Resolved spacing i := by
  by_cases hfine : Scalar.le i.width spacing.finest = true
  · exact resolved_of_narrow hpos hfine
  obtain ⟨hlt, hends, hslope⟩ := (needsSplit_eq_false.mp hleaf).resolve_left hfine
  have hcoarse : Scalar.le i.width spacing.coarsest = true :=
    (Exact.lt_or_le hpos.ne_nan.2 (by simp [hi.width_eq])).resolve_left (by simp [hlt])
  refine ⟨Exact.le_trans hcoarse (Exact.le_larger hpos.ne_nan.1 hpos.ne_nan.2).2,
    fun hno => absurd hends hno, fun hleft hright => .inr ⟨hcoarse, ?_⟩⟩
  obtain ⟨p, hp⟩ := Exact.exists_of_isFinite hleft
  obtain ⟨q, hq⟩ := Exact.exists_of_isFinite hright
  have hd : 0 < b - a := sub_pos.mpr hi.lt
  have heq : i.slope = finite (|q - p| / (b - a)) := by
    rw [Interval.slope, hi.width_eq, hp, hq, Exact.finite_sub, Exact.finite_div hd.ne',
      Exact.abs_finite, abs_div, abs_of_pos hd]
  rw [hi.width_eq] at hfine hcoarse
  have hallowed := hslope hleft
  rw [heq, hi.width_eq] at hallowed
  rw [hp, hq, Exact.finite_sub, Exact.abs_finite]
  exact rise_le hpos hd hfine hcoarse hallowed

/-! ### Halving -/

theorem Spans.halves (h : Spans i a b) (v : Viewport (Exact K)) (f : Exact K → Exact K) :
    Spans ⟨i.left, middle v f i⟩ a ((a + b) / 2) ∧
      Spans ⟨middle v f i, i.right⟩ ((a + b) / 2) b := by
  have hx : (middle v f i).x = finite ((a + b) / 2) := by
    show (i.left.x + i.right.x) * Scalar.half = _
    rw [h.left, h.right, Exact.finite_add, Exact.half_eq, Exact.finite_mul]
    congr 1
    ring
  have hlt := h.lt
  exact ⟨⟨h.left, hx, by linarith⟩, ⟨hx, h.right, by linarith⟩⟩

/-- After `n` halvings the interval is narrow enough. -/
inductive NarrowAfter (spacing : Spacing (Exact K)) (n : Nat) (i : Interval (Exact K)) : Prop where
  | intro (a b : K) (spans : Spans i a b)
    (narrow : Scalar.le (finite ((b - a) / 2 ^ n)) spacing.finest = true)

/-- Halving brings the division nearer to its end. -/
theorem narrowAfter_halves {n : Nat} (h : NarrowAfter spacing (n + 1) i) :
    NarrowAfter spacing n ⟨i.left, middle v f i⟩ ∧
      NarrowAfter spacing n ⟨middle v f i, i.right⟩ := by
  obtain ⟨a, b, hi, hle⟩ := h
  obtain ⟨hl, hr⟩ := hi.halves v f
  have hleft : ((a + b) / 2 - a) / 2 ^ n = (b - a) / 2 ^ (n + 1) := by
    rw [pow_succ]
    field_simp
    ring
  have hright : (b - (a + b) / 2) / 2 ^ n = (b - a) / 2 ^ (n + 1) := by
    rw [pow_succ]
    field_simp
    ring
  exact ⟨⟨_, _, hl, hleft ▸ hle⟩, ⟨_, _, hr, hright ▸ hle⟩⟩

/-- An interval is divided after finitely many halvings. -/
theorem Spans.exists_bisect (hi : Spans i a b) (hpos : Positive spacing) :
    ∃ n tree, bisect v spacing f n i = some tree := by
  obtain ⟨n, hn⟩ : ∃ n : Nat, Scalar.le (finite ((b - a) / 2 ^ n)) spacing.finest = true := by
    cases hfinest : spacing.finest with
    | finite m =>
        have hm : 0 < m := by
          have hlt := hpos.finest
          rw [hfinest, Exact.zero_eq, Exact.lt_finite] at hlt
          exact hlt
        obtain ⟨n, hn⟩ := pow_unbounded_of_one_lt ((b - a) / m) (one_lt_two (α := K))
        refine ⟨n, (Exact.le_finite _ _).mpr ?_⟩
        rw [div_lt_iff₀ hm] at hn
        rw [div_le_iff₀ (by positivity)]
        linarith
    | infinite s =>
        have hlt := hpos.finest
        rw [hfinest] at hlt
        exact ⟨0, hlt⟩
    | nan => exact absurd hfinest hpos.ne_nan.1
  have hstop : ∀ j, NarrowAfter spacing 0 j → needsSplit spacing j = false := by
    rintro j ⟨a, b, hj, hle⟩
    rw [pow_zero, div_one, ← hj.width_eq] at hle
    exact needsSplit_eq_false.mpr (.inl hle)
  exact ⟨n, Curve.exists_bisect (P := NarrowAfter spacing) hstop
    (fun n j _ hj => narrowAfter_halves hj) ⟨a, b, hi, hn⟩⟩

/-! ### The number of leaves -/

/-- The interval is wider than half of the finest spacing. -/
inductive Wide (spacing : Spacing (Exact K)) (i : Interval (Exact K)) : Prop where
  | intro (a b : K) (spans : Spans i a b) (finest : K) (pos : 0 < finest)
    (eq : spacing.finest = finite finest) (wide : finest / 2 < b - a)

/-- The halves of what had to be halved are wide. -/
theorem Spans.wide_halves (hi : Spans i a b) (hpos : Positive spacing)
    (hsplit : needsSplit spacing i = true) :
    Wide spacing ⟨i.left, middle v f i⟩ ∧ Wide spacing ⟨middle v f i, i.right⟩ := by
  obtain ⟨hl, hr⟩ := hi.halves v f
  obtain ⟨m, hm, hfinest, hlt⟩ : ∃ m, 0 < m ∧ spacing.finest = finite m ∧ m < b - a := by
    have hlt := hi.finest_lt hpos hsplit
    have hzero := hpos.finest
    cases hfinest : spacing.finest with
    | finite m =>
        rw [hfinest, Exact.lt_finite] at hlt
        rw [hfinest, Exact.zero_eq, Exact.lt_finite] at hzero
        exact ⟨m, hzero, rfl, hlt⟩
    | infinite s =>
        rw [hfinest] at hlt hzero
        cases s <;> contradiction
    | nan => exact absurd hfinest hpos.ne_nan.1
  exact ⟨⟨_, _, hl, m, hm, hfinest, by linarith⟩, ⟨_, _, hr, m, hm, hfinest, by linarith⟩⟩

/-- Either nothing is halved, or all leaves are wide. -/
theorem Spans.wide_leaves (hi : Spans i a b) (hpos : Positive spacing) {n : Nat}
    {tree : Bisection (Exact K)} (h : bisect v spacing f n i = some tree) :
    tree.leaves = [i] ∨ ∀ j ∈ tree.leaves, Wide spacing j := by
  rcases bisect_eq_some.mp h with ⟨-, rfl⟩ | ⟨hsplit, _, left, right, -, hleft, hright, rfl⟩
  · exact .inl rfl
  · right
    have hhalf : ∀ j, needsSplit spacing j = true → Wide spacing j →
        Wide spacing ⟨j.left, middle v f j⟩ ∧ Wide spacing ⟨middle v f j, j.right⟩ := by
      rintro j hsplit ⟨_, _, hj, -⟩
      exact hj.wide_halves hpos hsplit
    obtain ⟨hl, hr⟩ := hi.wide_halves (v := v) (f := f) hpos hsplit
    intro j hj
    rw [Bisection.leaves_node] at hj
    rcases List.mem_append.mp hj with hj | hj
    · exact (leaves_of_halving hhalf hleft hl j hj).1
    · exact (leaves_of_halving hhalf hright hr j hj).1

omit [FloorRing K] in
/-- Many wide intervals that follow one another are wide together. -/
theorem length_mul_lt {m : K} {p q : Point (Exact K)} {l : List (Interval (Exact K))}
    (hne : l ≠ []) (h : Joined p l q) (hl : ∀ i ∈ l, ∃ a b, Spans i a b ∧ m < b - a)
    (hp : p.x = finite a) (hq : q.x = finite b) : l.length * m < b - a := by
  induction l generalizing p a with
  | nil => exact absurd rfl hne
  | cons i l ih =>
      obtain ⟨rfl, hjoined⟩ := h
      obtain ⟨⟨a', c, hi, hlt⟩, hl⟩ := List.forall_mem_cons.mp hl
      obtain rfl : a' = a := Exact.finite.inj (hi.left.symm.trans hp)
      by_cases hnil : l = []
      · subst hnil
        obtain rfl : i.right = q := hjoined
        obtain rfl : c = b := Exact.finite.inj (hi.right.symm.trans hq)
        simpa using hlt
      · have hmore := ih hnil hjoined hl hi.right
        rw [List.length_cons, Nat.cast_succ]
        linarith

/-- So there are fewer wide intervals than twice the finest spacings that fit. -/
theorem Spans.count (hi : Spans i a b) {l : List (Interval (Exact K))}
    (h : Joined i.left l i.right) (hl : ∀ j ∈ l, Wide spacing j) :
    Scalar.lt (Scalar.ofInt l.length * spacing.finest) (finite (2 * (b - a))) = true := by
  have hne : l ≠ [] := by
    rintro rfl
    have hends : i.left = i.right := h
    have hx : finite a = finite b := by rw [← hi.left, ← hi.right, hends]
    exact hi.lt.ne (Exact.finite.inj hx)
  obtain ⟨j, hj⟩ := List.exists_mem_of_ne_nil l hne
  obtain ⟨-, -, -, m, -, hfinest, -⟩ := hl j hj
  have hwide : ∀ j ∈ l, ∃ a b, Spans j a b ∧ m / 2 < b - a := by
    intro j hj
    obtain ⟨a, b, hspans, m', -, hfinest', hlt⟩ := hl j hj
    obtain rfl : m' = m := Exact.finite.inj (hfinest'.symm.trans hfinest)
    exact ⟨a, b, hspans, hlt⟩
  have hcount := length_mul_lt hne h hwide hi.left hi.right
  rw [hfinest, Exact.ofInt_eq, Exact.finite_mul, Exact.lt_finite, Int.cast_natCast]
  linarith

/-! ### Sampling -/

/-- On exact numbers the canvas is divided at some depth, and in the same way at every larger
depth.  The leaves lead from its left edge to its right edge and are as narrow as the spacing
asks, the more so where the curve ends inside of one.  Unless the canvas is a leaf itself, all
leaves are wider than half of the finest spacing, which bounds how many there are.  Adjacent
points of a polyline are no farther apart than the finest spacing, or else no farther than
the coarsest in both directions. -/
theorem sample_resolution (v : Viewport (Exact K)) (spacing : Spacing (Exact K))
    (f : Exact K → Exact K) (width : K) (hwidth : v.width = finite width) (hwide : 0 < width)
    (hfinest : Scalar.lt Scalar.zero spacing.finest = true)
    (hcoarsest : Scalar.lt Scalar.zero spacing.coarsest = true) :
    ∃ depth tree lines,
      (∀ n, depth ≤ n → bisect v spacing f n (canvas v f) = some tree ∧
        sampleWithin n v spacing f = some lines) ∧
      ((canvas v f).left.x = finite 0 ∧ (canvas v f).right.x = finite width ∧
        Joined (canvas v f).left tree.leaves (canvas v f).right ∧ Ascending tree.leaves) ∧
      (∀ i ∈ tree.leaves,
        Scalar.le i.width (Scalar.larger spacing.finest spacing.coarsest) = true ∧
        (Scalar.isFinite i.left.y ≠ Scalar.isFinite i.right.y →
          Scalar.le i.width spacing.finest = true)) ∧
      (tree.leaves = [canvas v f] ∨
        (∀ i ∈ tree.leaves, Scalar.lt (spacing.finest * Scalar.half) i.width = true) ∧
        Scalar.lt (Scalar.ofInt tree.leaves.length * spacing.finest) (finite (2 * width)) = true) ∧
      ∀ line ∈ lines, ∀ p q, [p, q] <:+: line →
        Scalar.le (q.x - p.x) spacing.finest = true ∨
          Scalar.le (q.x - p.x) spacing.coarsest = true ∧
            Scalar.le (Scalar.abs (q.y - p.y)) spacing.coarsest = true := by
  have hpos : Positive spacing := ⟨hfinest, hcoarsest⟩
  have hcanvas : Spans (canvas v f) 0 width := ⟨rfl, hwidth, hwide⟩
  obtain ⟨depth, tree, htree⟩ := hcanvas.exists_bisect (v := v) (f := f) hpos
  have hjoined := joined_leaves htree
  have hhalf : ∀ i, needsSplit spacing i = true → (∃ a b, Spans i a b) →
      (∃ a b, Spans ⟨i.left, middle v f i⟩ a b) ∧ ∃ a b, Spans ⟨middle v f i, i.right⟩ a b := by
    rintro i - ⟨a, b, hi⟩
    exact ⟨⟨_, _, (hi.halves v f).1⟩, ⟨_, _, (hi.halves v f).2⟩⟩
  have hleaves := leaves_of_halving hhalf htree ⟨0, width, hcanvas⟩
  have hresolved : ∀ i ∈ tree.leaves, Resolved spacing i := by
    intro i hi
    obtain ⟨⟨a, b, hspans⟩, hleaf⟩ := hleaves i hi
    exact hspans.resolved hpos hleaf
  have hx : Ascending tree.leaves := by
    intro i hi
    obtain ⟨⟨a, b, hspans⟩, -⟩ := hleaves i hi
    rw [hspans.left, hspans.right, Exact.lt_finite]
    exact hspans.lt
  obtain ⟨runs, hruns⟩ := MaximalRuns.exist (drawable v.height) tree.leaves
  refine ⟨depth, tree, runs.map outline, fun n hn => ?_, ⟨rfl, hwidth, hjoined, hx⟩,
    fun i hi => ⟨(hresolved i hi).width, (hresolved i hi).edge⟩, ?_, ?_⟩
  · have hn := bisect_mono hn htree
    refine ⟨hn, ?_⟩
    have hdraw : Scalar.lt Scalar.zero v.width = true := by
      rw [hwidth, Exact.zero_eq, Exact.lt_finite]
      exact hwide
    rw [sampleWithin, if_pos hdraw, hn, Option.map_some, draw_of_runs hruns hjoined hx]
  · refine (hcanvas.wide_leaves hpos htree).imp_right fun hall => ⟨fun i hi => ?_, ?_⟩
    · obtain ⟨a, b, hspans, m, -, hfinest, hlt⟩ := hall i hi
      rw [hfinest, hspans.width_eq, Exact.half_eq, Exact.finite_mul, Exact.lt_finite]
      linarith
    · have hcount := hcanvas.count hjoined hall
      rwa [sub_zero] at hcount
  · intro line hline p q hadjacent
    obtain ⟨r, hr, rfl⟩ := List.mem_map.mp hline
    obtain ⟨-, hdrawable, hpart⟩ := hruns.of_mem hr
    obtain ⟨_, _, hr⟩ := joined_of_part hpart hjoined
    have hmem : (⟨p, q⟩ : Interval (Exact K)) ∈ r := by
      rw [← segments_outline hr]
      exact mem_segments_of_adjacent hadjacent
    have hfinite := hdrawable _ hmem
    exact (hresolved _ (hpart.subset hmem)).inside (finite_of_drawable hfinite (.inl rfl))
      (finite_of_drawable hfinite (.inr rfl))

/-- At the pole of a hyperbola the leaves are no wider than the finest spacing. -/
theorem sample_resolution_hyperbola :
    let v : Viewport (Exact ℚ) := ⟨finite 1, ⟨finite 1, finite 1⟩, finite 2, finite 2⟩
    let spacing : Spacing (Exact ℚ) := ⟨finite (1 / 4), finite 1⟩
    ∃ depth tree, bisect v spacing (finite 1 / ·) depth (canvas v (finite 1 / ·)) = some tree ∧
      ∀ i ∈ tree.leaves, Scalar.isFinite i.left.y ≠ Scalar.isFinite i.right.y →
        Scalar.le i.width (finite (1 / 4)) = true := by
  intro v spacing
  obtain ⟨depth, tree, lines, hdepth, -, hleaves, -⟩ :=
    sample_resolution v spacing (finite 1 / ·) 2 rfl (by norm_num)
      (by simp [spacing]) (by simp [spacing])
  exact ⟨depth, tree, (hdepth depth le_rfl).1, fun i hi => (hleaves i hi).2⟩

end FormulaPlot.Curve
