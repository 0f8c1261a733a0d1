/-
How the canvas is divided.

The undivided intervals follow one another: each begins at the point where the one before
it ends, and together they lead from the left edge of the canvas to the right.  And the
bound on the depth decides nothing but whether there is a division at all: a canvas that
can be divided within a bound is divided in the same way within every larger one.

What halving does to an interval is all that matters for the rest.  What it keeps holds of
every leaf, what it uses up ends the division, and an interval with a half that is no better
is divided for ever.
-/
import FormulaPlot.Curve.Bisection

namespace FormulaPlot.Curve

variable {α : Type}

/-! ### Intervals that follow one another -/

/-- The intervals lead from a point to another, each beginning where the last one ended. -/
def Joined : Point α → List (Interval α) → Point α → Prop
  | p, [], q => p = q
  | p, i :: l, q => i.left = p ∧ Joined i.right l q

theorem joined_append {p q : Point α} {l l' : List (Interval α)} :
    Joined p (l ++ l') q ↔ ∃ m, Joined p l m ∧ Joined m l' q := by
  induction l generalizing p with
  | nil => simp [Joined]
  | cons i l ih => simp only [List.cons_append, Joined, ih, and_assoc, exists_and_left]

theorem joined_of_part {a b : Point α} {r l : List (Interval α)} (hpart : r <:+: l)
    (h : Joined a l b) : ∃ m m', Joined m r m' := by
  obtain ⟨s, t, rfl⟩ := hpart
  obtain ⟨m', hjoined, -⟩ := joined_append.mp h
  obtain ⟨m, -, hr⟩ := joined_append.mp hjoined
  exact ⟨m, m', hr⟩

/-! ### Leaves -/

theorem Bisection.leavesOnto_eq (b : Bisection α) (rest : List (Interval α)) :
    b.leavesOnto rest = b.leaves ++ rest := by
  unfold leaves
  induction b generalizing rest with
  | leaf i => rfl
  | node left right ihl ihr =>
      simp only [leavesOnto]
      rw [ihl (right.leavesOnto rest), ihr rest, ihl (right.leavesOnto []), List.append_assoc]

theorem Bisection.leaves_node (left right : Bisection α) :
    (node left right).leaves = left.leaves ++ right.leaves := by
  unfold leaves
  rw [leavesOnto, leavesOnto_eq]
  rfl

/-! ### When an interval is halved -/

variable [Scalar α] {v : Viewport α} {spacing : Spacing α} {f : α → α}

/-- How wide an interval is. -/
def Interval.width (i : Interval α) : α := i.right.x - i.left.x

/-- How steep the curve is across an interval. -/
def Interval.slope (i : Interval α) : α := Scalar.abs ((i.right.y - i.left.y) / i.width)

/-- How wide an interval may be where the curve has some slope. -/
def Spacing.allowed (spacing : Spacing α) (slope : α) : α :=
  if Scalar.lt slope Scalar.one then spacing.coarsest
  else Scalar.larger (spacing.coarsest / slope) spacing.finest

/-- An interval is left alone if it is as narrow as can be, or else if it is not too wide and the
curve does not end inside it and is not too steep. -/
theorem needsSplit_eq_false {i : Interval α} :
    needsSplit spacing i = false ↔
      Scalar.le i.width spacing.finest = true ∨
        Scalar.lt spacing.coarsest i.width = false ∧
          Scalar.isFinite i.left.y = Scalar.isFinite i.right.y ∧
          (Scalar.isFinite i.left.y = true →
            Scalar.lt (spacing.allowed i.slope) i.width = false) := by
  have hwidth : i.right.x - i.left.x = i.width := rfl
  unfold needsSplit
  simp only [hwidth]
  by_cases hfine : Scalar.le i.width spacing.finest = true
  · simp [hfine]
  by_cases hcoarse : Scalar.lt spacing.coarsest i.width = true
  · simp [hfine, hcoarse]
  rw [if_neg hfine, if_neg hcoarse]
  cases Scalar.isFinite i.left.y <;> cases Scalar.isFinite i.right.y
  · simp [hcoarse]
  · simp [hfine]
  · simp [hfine]
  · show Scalar.lt (spacing.allowed i.slope) i.width = false ↔ _
    simp [hfine, hcoarse]

/-! ### Dividing an interval -/

/-- The point in the middle of an interval. -/
def middle (v : Viewport α) (f : α → α) (i : Interval α) : Point α :=
  pointAt v f ((i.left.x + i.right.x) * Scalar.half)

theorem bisect_eq_some {depth : Nat} {i : Interval α} {b : Bisection α} :
    bisect v spacing f depth i = some b ↔
      (needsSplit spacing i = false ∧ b = .leaf i) ∨
      needsSplit spacing i = true ∧ ∃ less left right, depth = less + 1 ∧
        bisect v spacing f less ⟨i.left, middle v f i⟩ = some left ∧
        bisect v spacing f less ⟨middle v f i, i.right⟩ = some right ∧ b = .node left right := by
  rw [bisect.eq_def]
  dsimp only
  by_cases hsplit : needsSplit spacing i = true
  · rw [if_pos hsplit]
    simp only [hsplit, Bool.true_eq_false, false_and, false_or, true_and]
    cases depth with
    | zero => exact ⟨nofun, nofun⟩
    | succ less =>
        constructor
        · intro hdivided
          obtain ⟨left, hleft, hrest⟩ := Option.bind_eq_some_iff.mp hdivided
          obtain ⟨right, hright, hnode⟩ := Option.bind_eq_some_iff.mp hrest
          exact ⟨less, left, right, rfl, hleft, hright, (Option.some.inj hnode).symm⟩
        · rintro ⟨_, left, right, ⟨⟩, hleft, hright, rfl⟩
          exact Option.bind_eq_some_iff.mpr
            ⟨left, hleft, Option.bind_eq_some_iff.mpr ⟨right, hright, rfl⟩⟩
  · rw [if_neg hsplit]
    simp only [Bool.not_eq_true] at hsplit
    simp only [hsplit, Bool.false_eq_true, false_and, or_false, true_and, Option.some.injEq]
    exact ⟨Eq.symm, Eq.symm⟩

/-- The leaves lead from one end of the interval to the other. -/
theorem joined_leaves {depth : Nat} {i : Interval α} {b : Bisection α}
    (h : bisect v spacing f depth i = some b) : Joined i.left b.leaves i.right := by
  induction depth generalizing i b with
  | zero =>
      rcases bisect_eq_some.mp h with ⟨-, rfl⟩ | ⟨-, _, _, _, ⟨⟩, -⟩
      exact ⟨rfl, rfl⟩
  | succ depth ih =>
      rcases bisect_eq_some.mp h with ⟨-, rfl⟩ | ⟨-, _, left, right, ⟨⟩, hleft, hright, rfl⟩
      · exact ⟨rfl, rfl⟩
      · rw [Bisection.leaves_node, joined_append]
        exact ⟨middle v f i, ih hleft, ih hright⟩

/-- A larger bound changes nothing. -/
theorem bisect_mono {depth n : Nat} (hn : depth ≤ n) {i : Interval α} {b : Bisection α}
    (h : bisect v spacing f depth i = some b) : bisect v spacing f n i = some b := by
  induction depth generalizing n i b with
  | zero =>
      rcases bisect_eq_some.mp h with hleaf | ⟨-, _, _, _, ⟨⟩, -⟩
      exact bisect_eq_some.mpr (.inl hleaf)
  | succ depth ih =>
      rcases bisect_eq_some.mp h with hleaf | ⟨hsplit, _, left, right, ⟨⟩, hleft, hright, rfl⟩
      · exact bisect_eq_some.mpr (.inl hleaf)
      · obtain ⟨less, rfl⟩ : ∃ less, n = less + 1 := ⟨n - 1, by omega⟩
        have hless : depth ≤ less := Nat.le_of_succ_le_succ hn
        exact bisect_eq_some.mpr (.inr ⟨hsplit, less, left, right, rfl, ih hless hleft,
          ih hless hright, rfl⟩)

/-! ### Induction on halving -/

/-- What halving keeps holds of every leaf, and no leaf has to be halved. -/
theorem leaves_of_halving {P : Interval α → Prop}
    (hhalf : ∀ i, needsSplit spacing i = true → P i →
      P ⟨i.left, middle v f i⟩ ∧ P ⟨middle v f i, i.right⟩)
    {depth : Nat} {i : Interval α} {b : Bisection α} (h : bisect v spacing f depth i = some b)
    (hi : P i) : ∀ j ∈ b.leaves, P j ∧ needsSplit spacing j = false := by
  induction depth generalizing i b with
  | zero =>
      rcases bisect_eq_some.mp h with ⟨hsplit, rfl⟩ | ⟨-, _, _, _, ⟨⟩, -⟩
      intro j hj
      obtain rfl := List.mem_singleton.mp hj
      exact ⟨hi, hsplit⟩
  | succ depth ih =>
      rcases bisect_eq_some.mp h with
        ⟨hsplit, rfl⟩ | ⟨hsplit, _, left, right, ⟨⟩, hleft, hright, rfl⟩
      · intro j hj
        obtain rfl := List.mem_singleton.mp hj
        exact ⟨hi, hsplit⟩
      · obtain ⟨hl, hr⟩ := hhalf i hsplit hi
        intro j hj
        rw [Bisection.leaves_node] at hj
        rcases List.mem_append.mp hj with hj | hj
        · exact ih hleft hl j hj
        · exact ih hright hr j hj

/-- The division comes to an end if every halving uses something up. -/
theorem exists_bisect {P : Nat → Interval α → Prop}
    (hstop : ∀ i, P 0 i → needsSplit spacing i = false)
    (hhalf : ∀ n i, needsSplit spacing i = true → P (n + 1) i →
      P n ⟨i.left, middle v f i⟩ ∧ P n ⟨middle v f i, i.right⟩)
    {n : Nat} {i : Interval α} (h : P n i) : ∃ b, bisect v spacing f n i = some b := by
  induction n generalizing i with
  | zero => exact ⟨.leaf i, bisect_eq_some.mpr (.inl ⟨hstop i h, rfl⟩)⟩
  | succ n ih =>
      by_cases hsplit : needsSplit spacing i = true
      · obtain ⟨hl, hr⟩ := hhalf n i hsplit h
        obtain ⟨left, hleft⟩ := ih hl
        obtain ⟨right, hright⟩ := ih hr
        exact ⟨.node left right,
          bisect_eq_some.mpr (.inr ⟨hsplit, n, left, right, rfl, hleft, hright, rfl⟩)⟩
      · exact ⟨.leaf i, bisect_eq_some.mpr (.inl ⟨by simpa using hsplit, rfl⟩)⟩

/-- There is no end to it if an interval has to be halved and one half is of the same sort. -/
theorem bisect_eq_none {P : Interval α → Prop}
    (hsplit : ∀ i, P i → needsSplit spacing i = true)
    (hhalf : ∀ i, P i → P ⟨i.left, middle v f i⟩ ∨ P ⟨middle v f i, i.right⟩)
    (depth : Nat) {i : Interval α} (h : P i) : bisect v spacing f depth i = none := by
  rw [Option.eq_none_iff_forall_ne_some]
  intro b hb
  induction depth generalizing i b with
  | zero =>
      rcases bisect_eq_some.mp hb with ⟨hno, -⟩ | ⟨-, _, _, _, ⟨⟩, -⟩
      rw [hsplit i h] at hno
      cases hno
  | succ depth ih =>
      rcases bisect_eq_some.mp hb with ⟨hno, -⟩ | ⟨-, _, left, right, ⟨⟩, hleft, hright, -⟩
      · rw [hsplit i h] at hno
        cases hno
      · rcases hhalf i h with hl | hr
        · exact ih hl left hleft
        · exact ih hr right hright

end FormulaPlot.Curve
