/-
What is drawn.

An interval can be drawn where both of its ends are finite and one of them is on the canvas.
The pen joins what can be drawn and has no gap to jump, so that it draws one line for each
longest run of such intervals, through all their ends, and nothing else.

The pen knows little of this.  It is handed every point twice, leaves out the second, and
drops a point that it was put down on and lifted from.  What makes up for it is where the pen
is: after every interval it is either lifted or at that interval's right end, and after one
that cannot be drawn it has nothing but that point on it.
-/
import FormulaPlot.Curve.Polyline
import FormulaPlot.Proofs.Curve.Bisection
import FormulaPlot.Proofs.Number.Order

namespace FormulaPlot.Curve

/-! ### Longest runs -/

section Runs

variable {β : Type} {p : β → Bool}

/-- The longest runs of elements that have a property, from left to right. -/
inductive MaximalRuns (p : β → Bool) : List β → List (List β) → Prop
  | nil : MaximalRuns p [] []
  | skip {a : β} {l : List β} {runs : List (List β)} (ha : p a = false)
      (hruns : MaximalRuns p l runs) : MaximalRuns p (a :: l) runs
  | run {r l : List β} {runs : List (List β)} (hne : r ≠ []) (hr : ∀ a ∈ r, p a = true)
      (hend : ∀ a ∈ l.head?, p a = false) (hruns : MaximalRuns p l runs) :
      MaximalRuns p (r ++ l) (r :: runs)

theorem MaximalRuns.exist (p : β → Bool) (l : List β) : ∃ runs, MaximalRuns p l runs := by
  induction l with
  | nil => exact ⟨[], .nil⟩
  | cons a l ih =>
      obtain ⟨runs, hruns⟩ := ih
      cases ha : p a with
      | false => exact ⟨runs, .skip ha hruns⟩
      | true =>
          -- The element starts a run of its own or lengthens the one behind it.
          have halone : [a] ≠ [] ∧ ∀ b ∈ [a], p b = true := by simp [ha]
          cases hruns with
          | nil => exact ⟨[[a]], .run halone.1 halone.2 (by simp) .nil⟩
          | @skip b l runs hb hruns =>
              have hend : ∀ c ∈ (b :: l).head?, p c = false := by simp [hb]
              exact ⟨[a] :: runs, .run halone.1 halone.2 hend (.skip hb hruns)⟩
          | @run r l runs hne hr hend hruns =>
              have hlonger : ∀ b ∈ a :: r, p b = true := by simpa [ha] using hr
              exact ⟨(a :: r) :: runs, .run (List.cons_ne_nil a r) hlonger hend hruns⟩

/-- A run that is followed by something else is what a list begins with. -/
theorem takeWhile_run {r l : List β} (hr : ∀ a ∈ r, p a = true)
    (hend : ∀ a ∈ l.head?, p a = false) : (r ++ l).takeWhile p = r := by
  rw [List.takeWhile_append_of_pos hr]
  cases l with
  | nil => simp
  | cons a l => simp [hend a (by simp)]

theorem MaximalRuns.unique {l : List β} {runs runs' : List (List β)} (h : MaximalRuns p l runs)
    (h' : MaximalRuns p l runs') : runs = runs' := by
  induction h generalizing runs' with
  | nil =>
      generalize hl : ([] : List β) = l at h'
      cases h' with
      | nil => rfl
      | skip => cases hl
      | run hne => exact absurd (List.append_eq_nil_iff.mp hl.symm).1 hne
  | @skip a l runs ha _ ih =>
      generalize hl : a :: l = l' at h'
      cases h' with
      | nil => cases hl
      | skip _ hruns' => cases hl; exact ih hruns'
      | run hne hr =>
          obtain ⟨b, r, rfl⟩ := List.exists_cons_of_ne_nil hne
          cases hl
          exact absurd (hr a (by simp)) (by simp [ha])
  | @run r l runs hne hr hend _ ih =>
      generalize hl : r ++ l = l' at h'
      cases h' with
      | nil => exact absurd (List.append_eq_nil_iff.mp hl).1 hne
      | skip hb =>
          obtain ⟨b, r, rfl⟩ := List.exists_cons_of_ne_nil hne
          cases hl
          exact absurd (hr _ List.mem_cons_self) (by simp [hb])
      | @run r' _ _ _ hr' hend' hruns' =>
          obtain rfl : r = r' := by rw [← takeWhile_run hr hend, hl, takeWhile_run hr' hend']
          obtain rfl := List.append_cancel_left hl
          rw [ih hruns']

theorem MaximalRuns.flatten {l : List β} {runs : List (List β)} (h : MaximalRuns p l runs) :
    runs.flatten = l.filter p := by
  induction h with
  | nil => rfl
  | skip ha _ ih => rw [List.filter_cons_of_neg (by simp [ha]), ih]
  | run _ hr _ _ ih => rw [List.flatten_cons, ih, List.filter_append, List.filter_eq_self.mpr hr]

theorem MaximalRuns.of_mem {l r : List β} {runs : List (List β)} (h : MaximalRuns p l runs)
    (hmem : r ∈ runs) : r ≠ [] ∧ (∀ a ∈ r, p a = true) ∧ r <:+: l := by
  induction h with
  | nil => cases hmem
  | skip _ _ ih =>
      obtain ⟨hne, hr, hpart⟩ := ih hmem
      exact ⟨hne, hr, hpart.trans (List.suffix_cons _ _).isInfix⟩
  | run hne hr _ _ ih =>
      rcases List.mem_cons.mp hmem with rfl | hmem
      · exact ⟨hne, hr, (List.prefix_append _ _).isInfix⟩
      · obtain ⟨hne', hr', hpart⟩ := ih hmem
        exact ⟨hne', hr', hpart.trans (List.suffix_append _ _).isInfix⟩

end Runs

/-! ### The points of intervals -/

variable {α : Type}

/-- The points of intervals that follow one another. -/
def outline : List (Interval α) → Polyline α
  | [] => []
  | i :: l => i.left :: (i :: l).map Interval.right

/-- The intervals between the points of a line. -/
def segments (line : Polyline α) : List (Interval α) := line.zipWith Interval.mk line.tail

theorem outline_of_joined {a b : Point α} {r : List (Interval α)} (h : Joined a r b)
    (hne : r ≠ []) : outline r = a :: r.map Interval.right := by
  obtain ⟨i, l, rfl⟩ := List.exists_cons_of_ne_nil hne
  rw [outline, h.1]

theorem getLast?_outline {a b : Point α} {r : List (Interval α)} (h : Joined a r b)
    (hne : r ≠ []) : (outline r).getLast? = some b := by
  rw [outline_of_joined h hne]
  clear hne
  induction r generalizing a with
  | nil => exact congrArg some h
  | cons i l ih => rw [List.map_cons, List.getLast?_cons_cons, ih h.2]

theorem mem_outline {q : Point α} {r : List (Interval α)} (h : q ∈ outline r) :
    ∃ i ∈ r, q = i.left ∨ q = i.right := by
  cases r with
  | nil => cases h
  | cons i l =>
      rcases List.mem_cons.mp h with rfl | h
      · exact ⟨i, List.mem_cons_self, .inl rfl⟩
      · obtain ⟨j, hj, rfl⟩ := List.mem_map.mp h
        exact ⟨j, hj, .inr rfl⟩

theorem two_le_length_outline {r : List (Interval α)} (hne : r ≠ []) :
    2 ≤ (outline r).length := by
  obtain ⟨i, l, rfl⟩ := List.exists_cons_of_ne_nil hne
  simp [outline]

theorem segments_outline {a b : Point α} {r : List (Interval α)} (h : Joined a r b) :
    segments (outline r) = r := by
  induction r generalizing a with
  | nil => rfl
  | cons i l ih =>
      cases l with
      | nil => rfl
      | cons j l =>
          have hl : segments (j.left :: (j :: l).map Interval.right) = j :: l := ih h.2
          have hjoin : j.left = i.right := h.2.1
          rw [hjoin] at hl
          exact congrArg (i :: ·) hl

theorem adjacent_of_mem_segments {i : Interval α} {line : Polyline α} (h : i ∈ segments line) :
    [i.left, i.right] <:+: line := by
  induction line with
  | nil => cases h
  | cons a line ih =>
      cases line with
      | nil => cases h
      | cons b line =>
          rcases List.mem_cons.mp h with rfl | h
          · exact (List.prefix_append [a, b] line).isInfix
          · exact (ih h).trans (List.suffix_cons _ _).isInfix

/-- The segments of the lines through longest runs are what the runs consist of. -/
theorem segments_of_runs {a b : Point α} {p : Interval α → Bool} {l : List (Interval α)}
    {runs : List (List (Interval α))} (hruns : MaximalRuns p l runs) (h : Joined a l b) :
    (runs.map outline).flatMap segments = l.filter p := by
  have hback : ∀ r ∈ runs, segments (outline r) = r := by
    intro r hr
    obtain ⟨_, _, hjoined⟩ := joined_of_part (hruns.of_mem hr).2.2 h
    exact segments_outline hjoined
  rw [List.flatMap_map, ← hruns.flatten, List.flatMap_def, List.map_congr_left hback, List.map_id']

/-- The lines through longest runs, one after the other, leave points out and have none
twice. -/
theorem outlines_sublist {p : Interval α → Bool} {a b : Point α} {l : List (Interval α)}
    {runs : List (List (Interval α))} (hruns : MaximalRuns p l runs) (h : Joined a l b) :
    (runs.map outline).flatten.Sublist (a :: l.map Interval.right) ∧
      ((∀ i ∈ l.head?, p i = false) →
        (runs.map outline).flatten.Sublist (l.map Interval.right)) := by
  induction hruns generalizing a with
  | nil => exact ⟨List.nil_sublist _, fun _ => List.nil_sublist _⟩
  | skip _ _ ih =>
      have hskipped := (ih h.2).1
      exact ⟨hskipped.cons _, fun _ => hskipped⟩
  | @run r l runs hne hr hend _ ih =>
      obtain ⟨m, hjoined, hrest⟩ := joined_append.mp h
      refine ⟨?_, fun hhead => ?_⟩
      · rw [List.map_cons, List.flatten_cons, outline_of_joined hjoined hne, List.map_append,
          ← List.cons_append]
        exact (List.Sublist.refl _).append ((ih hrest).2 hend)
      · obtain ⟨i, s, rfl⟩ := List.exists_cons_of_ne_nil hne
        exact absurd (hr i (by simp)) (by simp [hhead i (by simp)])

/-! ### The pen -/

namespace Pen

variable {pen : Pen α} {p : Point α}

/-- The pen is lifted or at the point. -/
def At (pen : Pen α) (p : Point α) : Prop := ∀ q ∈ pen.current.head?, q = p

/-- The pen has drawn nothing since it was put down, at the point if anywhere. -/
def Rests (pen : Pen α) (p : Point α) : Prop := pen.current = [] ∨ pen.current = [p]

theorem Rests.at (h : pen.Rests p) : pen.At p := by
  rcases h with h | h <;> simp [At, h]

theorem Rests.lift (h : pen.Rests p) : pen.lift.finished = pen.finished := by
  rcases h with h | h <;> simp [Pen.lift, h]

theorem lift_current (pen : Pen α) : pen.lift.current = [] := by
  unfold lift
  split <;> rfl

/-- A line of two points or more is finished by lifting the pen. -/
theorem lift_line (h : 2 ≤ pen.current.length) :
    pen.lift.finished = pen.current.reverse :: pen.finished := by
  rcases pen with ⟨_ | ⟨p, _ | ⟨q, l⟩⟩, finished⟩
  · simp at h
  · simp at h
  · rfl

end Pen

variable [Scalar α] {height : α} {i : Interval α}

/-- The intervals go from left to right. -/
def Ascending (l : List (Interval α)) : Prop := ∀ i ∈ l, Scalar.lt i.left.x i.right.x = true

theorem pairwise_points [Scalar.Ordered α] {a b : Point α} {l : List (Interval α)}
    (h : Joined a l b) (hx : Ascending l) :
    (a :: l.map Interval.right).Pairwise fun q q' => Scalar.lt q.x q'.x = true := by
  induction l generalizing a with
  | nil => exact List.pairwise_singleton _ _
  | cons i l ih =>
      obtain ⟨rfl, hrest⟩ := h
      obtain ⟨hi, hx⟩ := List.forall_mem_cons.mp hx
      have hpoints := ih hrest hx
      refine List.pairwise_cons.mpr ⟨fun q hq => ?_, hpoints⟩
      rcases List.mem_cons.mp hq with rfl | hq
      · exact hi
      · exact Scalar.Ordered.lt_trans hi (List.rel_of_pairwise_cons hpoints hq)

/-! ### What can be drawn -/

/-- The point is neither above nor below the canvas. -/
def onCanvas (height : α) (p : Point α) : Bool :=
  Scalar.le Scalar.zero p.y && Scalar.le p.y height

/-- Both ends are finite and one of them is on the canvas. -/
def drawable (height : α) (i : Interval α) : Bool :=
  Scalar.isFinite i.left.y && Scalar.isFinite i.right.y &&
    (onCanvas height i.left || onCanvas height i.right)

theorem visibility_of_finite {p : Point α} (h : Scalar.isFinite p.y = true) :
    visibility height p = if onCanvas height p then .visible else .offScreen := by
  rw [visibility, h]
  rfl

theorem visibility_of_not_finite {p : Point α} (h : Scalar.isFinite p.y = false) :
    visibility height p = .absent := by
  rw [visibility, h]
  rfl

/-! ### Going over intervals -/

namespace Pen

variable {pen : Pen α} {p : Point α}

/-- Lifting the pen from a point where it was already leaves nothing more. -/
theorem lift_drawTo (hat : pen.At p) (hp : Scalar.le p.x p.x = true) :
    (pen.drawTo p).lift = pen.lift := by
  rcases pen with ⟨_ | ⟨q, earlier⟩, finished⟩
  · rfl
  · obtain rfl : q = p := hat q rfl
    simp [drawTo, hp]

theorem drawTo_rests (h : pen.Rests p) (hp : Scalar.le p.x p.x = true) :
    pen.drawTo p = ⟨[p], pen.finished⟩ := by
  rcases pen with ⟨current, finished⟩
  rcases h with h | h <;> cases h <;> simp [drawTo, hp]

theorem drawTo_next {q : Point α} {l : List (Point α)} {finished : List (Polyline α)}
    (h : Scalar.le q.x p.x = false) :
    Pen.drawTo ⟨p :: l, finished⟩ q = ⟨q :: p :: l, finished⟩ := by
  simp [drawTo, h]

theorem trace_of_drawable (h : drawable height i = true) (pen : Pen α) :
    pen.trace height i = (pen.drawTo i.left).drawTo i.right := by
  simp only [drawable, Bool.and_eq_true] at h
  obtain ⟨⟨hleft, hright⟩, hon⟩ := h
  rw [trace, visibility_of_finite hleft, visibility_of_finite hright]
  cases hl : onCanvas height i.left <;> cases hr : onCanvas height i.right <;>
    first | rfl | simp [hl, hr] at hon

/-- An interval that cannot be drawn ends the line, and the pen may be put down behind it. -/
theorem trace_of_not_drawable (h : drawable height i = false) (hat : pen.At i.left)
    (hx : Scalar.le i.left.x i.left.x = true) :
    (pen.trace height i).Rests i.right ∧
      (pen.trace height i).finished = pen.lift.finished := by
  have hlift : pen.lift.Rests i.right ∧ pen.lift.finished = pen.lift.finished :=
    ⟨.inl (lift_current pen), rfl⟩
  cases hleft : Scalar.isFinite i.left.y <;> cases hright : Scalar.isFinite i.right.y
  · rw [trace, visibility_of_not_finite hleft, visibility_of_not_finite hright]
    exact hlift
  · rw [trace, visibility_of_not_finite hleft, visibility_of_finite hright]
    cases onCanvas height i.right with
    | false => exact hlift
    | true =>
        have hdown : pen.lift.drawTo i.right = ⟨[i.right], pen.lift.finished⟩ := by
          simp [drawTo, lift_current]
        show (pen.lift.drawTo i.right).Rests i.right ∧ _ = _
        rw [hdown]
        exact ⟨.inr rfl, rfl⟩
  · rw [trace, visibility_of_finite hleft, visibility_of_not_finite hright]
    cases onCanvas height i.left with
    | false => exact hlift
    | true =>
        show ((pen.drawTo i.left).lift).Rests i.right ∧ _ = _
        rw [lift_drawTo hat hx]
        exact hlift
  · simp only [drawable, hleft, hright, Bool.true_and, Bool.or_eq_false_iff] at h
    rw [trace, visibility_of_finite hleft, visibility_of_finite hright, h.1, h.2]
    exact hlift

variable [Scalar.Ordered α]

/-- Once a line is begun, the pen goes on through the right ends of what can be drawn. -/
theorem foldl_trace_line {r : List (Interval α)} {a b : Point α} {l : List (Point α)}
    {finished : List (Polyline α)} (h : Joined a r b) (hx : Ascending r)
    (hr : ∀ i ∈ r, drawable height i = true) :
    r.foldl (trace height) ⟨a :: l, finished⟩ =
      ⟨(r.map Interval.right).reverse ++ a :: l, finished⟩ := by
  induction r generalizing a l with
  | nil => rfl
  | cons i r ih =>
      obtain ⟨rfl, hrest⟩ := h
      obtain ⟨hi, hx⟩ := List.forall_mem_cons.mp hx
      obtain ⟨hdrawable, hr⟩ := List.forall_mem_cons.mp hr
      have hstays : Pen.drawTo ⟨i.left :: l, finished⟩ i.left = ⟨i.left :: l, finished⟩ := by
        simp [drawTo, Scalar.Ordered.le_left hi]
      have hstep : Pen.trace height ⟨i.left :: l, finished⟩ i =
          ⟨i.right :: i.left :: l, finished⟩ := by
        rw [trace_of_drawable hdrawable, hstays, drawTo_next (Scalar.Ordered.not_le hi)]
      rw [List.foldl_cons, hstep, ih hrest hx hr]
      simp

/-- Over a run, a resting pen draws the run's line. -/
theorem foldl_trace_run {r : List (Interval α)} {a b : Point α} (hne : r ≠ [])
    (h : Joined a r b) (hx : Ascending r) (hr : ∀ i ∈ r, drawable height i = true)
    (hrests : pen.Rests a) :
    r.foldl (trace height) pen = ⟨(outline r).reverse, pen.finished⟩ := by
  obtain ⟨i, r, rfl⟩ := List.exists_cons_of_ne_nil hne
  obtain ⟨rfl, hrest⟩ := h
  obtain ⟨hi, hx⟩ := List.forall_mem_cons.mp hx
  obtain ⟨hdrawable, hr⟩ := List.forall_mem_cons.mp hr
  have hstep : pen.trace height i = ⟨[i.right, i.left], pen.finished⟩ := by
    rw [trace_of_drawable hdrawable, drawTo_rests hrests (Scalar.Ordered.le_left hi),
      drawTo_next (Scalar.Ordered.not_le hi)]
  rw [List.foldl_cons, hstep, foldl_trace_line hrest hx hr]
  simp [outline]

/-- Going over the intervals and lifting the pen adds one line for each longest run of what
can be drawn.  The pen may come with a line still open if that line ends here. -/
theorem lift_foldl_trace {l : List (Interval α)} {runs : List (List (Interval α))}
    {a b : Point α} (hruns : MaximalRuns (drawable height) l runs) (h : Joined a l b)
    (hx : Ascending l) (hat : pen.At a)
    (hopen : pen.Rests a ∨ ∀ i ∈ l.head?, drawable height i = false) :
    (l.foldl (trace height) pen).lift.finished =
      (runs.map outline).reverse ++ pen.lift.finished := by
  induction hruns generalizing pen a with
  | nil => rfl
  | @skip i l runs hi _ ih =>
      obtain ⟨rfl, hrest⟩ := h
      obtain ⟨hxi, hx⟩ := List.forall_mem_cons.mp hx
      obtain ⟨hrests, hfinished⟩ := trace_of_not_drawable hi hat (Scalar.Ordered.le_left hxi)
      rw [List.foldl_cons, ih hrest hx hrests.at (.inl hrests), hrests.lift, hfinished]
  | @run r l runs hne hr hend _ ih =>
      obtain ⟨m, hjoined, hrest⟩ := joined_append.mp h
      obtain ⟨hxr, hxl⟩ := List.forall_mem_append.mp hx
      have hrests : pen.Rests a := by
        rcases hopen with hrests | hhead
        · exact hrests
        · obtain ⟨i, s, rfl⟩ := List.exists_cons_of_ne_nil hne
          exact absurd (hr i List.mem_cons_self) (by simp [hhead i (by simp)])
      have hline : r.foldl (trace height) pen = ⟨(outline r).reverse, pen.finished⟩ :=
        foldl_trace_run hne hjoined hxr hr hrests
      have hat' : (⟨(outline r).reverse, pen.finished⟩ : Pen α).At m := by
        simp [At, getLast?_outline hjoined hne]
      rw [List.foldl_append, hline, ih hrest hxl hat' (.inr hend),
        lift_line (by simpa using two_le_length_outline hne), hrests.lift]
      simp

end Pen

/-- One line is drawn for each longest run of what can be drawn. -/
theorem draw_of_runs [Scalar.Ordered α] {l : List (Interval α)}
    {runs : List (List (Interval α))} {a b : Point α}
    (hruns : MaximalRuns (drawable height) l runs) (h : Joined a l b) (hx : Ascending l) :
    draw height l = runs.map outline := by
  have hdown : Pen.At Pen.start a := by simp [Pen.At, Pen.start]
  rw [draw, Pen.lift_foldl_trace hruns h hx hdown (.inl (.inl rfl))]
  simp [Pen.lift, Pen.start]

/-! ### Lines -/

/-- Both ends of what can be drawn are finite. -/
theorem finite_of_drawable {q : Point α} (h : drawable height i = true)
    (hq : q = i.left ∨ q = i.right) : Scalar.isFinite q.y = true := by
  simp only [drawable, Bool.and_eq_true] at h
  rcases hq with rfl | rfl
  · exact h.1.1
  · exact h.1.2

theorem visible_iff {q : Point α} (hq : Scalar.isFinite q.y = true) :
    visibility height q = .visible ↔ onCanvas height q = true := by
  rw [visibility_of_finite hq]
  cases onCanvas height q <;> simp

theorem offScreen_iff {q : Point α} (hq : Scalar.isFinite q.y = true) :
    visibility height q = .offScreen ↔ onCanvas height q = false := by
  rw [visibility_of_finite hq]
  cases onCanvas height q <;> simp

/-- One end of what can be drawn is visible; if it is not the one, it is the other. -/
theorem visible_of_offScreen (h : drawable height i = true) :
    (visibility height i.left = .offScreen → visibility height i.right = .visible) ∧
      (visibility height i.right = .offScreen → visibility height i.left = .visible) := by
  have hleft : Scalar.isFinite i.left.y = true := finite_of_drawable h (.inl rfl)
  have hright : Scalar.isFinite i.right.y = true := finite_of_drawable h (.inr rfl)
  rw [offScreen_iff hleft, offScreen_iff hright, visible_iff hleft, visible_iff hright]
  simp only [drawable, Bool.and_eq_true, Bool.or_eq_true] at h
  exact ⟨fun hoff => h.2.resolve_left (by simp [hoff]),
    fun hoff => h.2.resolve_right (by simp [hoff])⟩

/-- A point of a line that is off the screen has a visible point next to it. -/
theorem visible_neighbour {a b q : Point α} {r : List (Interval α)} (h : Joined a r b)
    (hr : ∀ i ∈ r, drawable height i = true) (hq : q ∈ outline r)
    (hoff : visibility height q = .offScreen) :
    ∃ q', visibility height q' = .visible ∧
      ([q, q'] <:+: outline r ∨ [q', q] <:+: outline r) := by
  obtain ⟨i, hi, hend⟩ := mem_outline hq
  have hnext : [i.left, i.right] <:+: outline r :=
    adjacent_of_mem_segments (by rwa [segments_outline h])
  obtain ⟨hleft, hright⟩ := visible_of_offScreen (hr i hi)
  rcases hend with rfl | rfl
  · exact ⟨i.right, hleft hoff, .inl hnext⟩
  · exact ⟨i.left, hright hoff, .inr hnext⟩

/-- A canvas that is divided into intervals from left to right is drawn on with the lines
through the longest runs of intervals that can be drawn, and with nothing else.  Any bound on
the depth will do within which the canvas can be divided; `sample` takes `maxDepth`.

The lines have two points or more.  Their points go from left to right, also from one line to
the next, and are finite; those off the screen are next to one that is visible.  The segments
of all lines are the intervals that can be drawn, each of them once. -/
theorem sample_spec (v : Viewport Float) (spacing : Spacing Float) (f : Float → Float)
    (depth : Nat) (b : Bisection Float) (hwidth : Scalar.lt Scalar.zero v.width = true)
    (hends : bisect v spacing f depth (canvas v f) = some b) (hx : Ascending b.leaves) :
    Joined (canvas v f).left b.leaves (canvas v f).right ∧
    ∃ runs lines,
      (∀ runs', MaximalRuns (drawable v.height) b.leaves runs' ↔ runs' = runs) ∧
      lines = runs.map outline ∧
      (∀ n, depth ≤ n → sampleWithin n v spacing f = some lines) ∧
      (∀ line ∈ lines, 2 ≤ line.length ∧
        line.Pairwise (fun p q => Scalar.lt p.x q.x = true) ∧
        (∀ p ∈ line, Scalar.isFinite p.y = true) ∧
        ∀ p ∈ line, visibility v.height p = .offScreen →
          ∃ q, visibility v.height q = .visible ∧ ([p, q] <:+: line ∨ [q, p] <:+: line)) ∧
      (lines.Pairwise fun line line' =>
        ∀ p ∈ line, ∀ q ∈ line', Scalar.lt p.x q.x = true) ∧
      lines.flatMap segments = b.leaves.filter (drawable v.height) := by
  have hjoined : Joined (canvas v f).left b.leaves (canvas v f).right := joined_leaves hends
  obtain ⟨runs, hruns⟩ := MaximalRuns.exist (drawable v.height) b.leaves
  have hpoints : (runs.map outline).flatten.Pairwise fun p q => Scalar.lt p.x q.x = true :=
    (pairwise_points hjoined hx).sublist (outlines_sublist hruns hjoined).1
  obtain ⟨hwithin, hacross⟩ := List.pairwise_flatten.mp hpoints
  refine ⟨hjoined, runs, runs.map outline, fun runs' => ⟨fun h => h.unique hruns, ?_⟩, rfl,
    fun n hn => ?_, fun line hline => ?_, hacross, segments_of_runs hruns hjoined⟩
  · rintro rfl
    exact hruns
  · rw [sampleWithin, if_pos hwidth, bisect_mono hn hends, Option.map_some,
      draw_of_runs hruns hjoined hx]
  · obtain ⟨r, hr, rfl⟩ := List.mem_map.mp hline
    obtain ⟨hne, hdrawable, hpart⟩ := hruns.of_mem hr
    obtain ⟨_, _, hr'⟩ := joined_of_part hpart hjoined
    refine ⟨two_le_length_outline hne, hwithin _ hline, fun p hp => ?_,
      fun p hp hoff => visible_neighbour hr' hdrawable hp hoff⟩
    obtain ⟨i, hi, hend⟩ := mem_outline hp
    exact finite_of_drawable (hdrawable i hi) hend

/-- The pole of a hyperbola parts its two branches. -/
theorem sample_spec_hyperbola :
    let v : Viewport Float := ⟨1, ⟨1, 1⟩, 2, 2⟩
    let spacing : Spacing Float := ⟨0.5, 1⟩
    let f : Float → Float := fun x => 1 / x
    ∃ b lines, bisect v spacing f 2 (canvas v f) = some b ∧ b.leaves.length = 4 ∧
      Ascending b.leaves ∧ sampleWithin 2 v spacing f = some lines ∧
      lines.map List.length = [2, 2] ∧
      lines.flatMap segments = b.leaves.filter (drawable v.height) := by
  intro v spacing f
  obtain ⟨b, hb, hlength, hx⟩ : ∃ b, bisect v spacing f 2 (canvas v f) = some b ∧
      b.leaves.length = 4 ∧ Ascending b.leaves := by
    have htest : ((bisect v spacing f 2 (canvas v f)).any fun b =>
        b.leaves.length == 4 && b.leaves.all fun i => Scalar.lt i.left.x i.right.x) = true := by
      decide +kernel
    obtain ⟨b, hb, hleaves⟩ := (Option.any_eq_true _ _).mp htest
    simp only [Bool.and_eq_true, beq_iff_eq, List.all_eq_true] at hleaves
    exact ⟨b, hb, hleaves⟩
  obtain ⟨-, runs, lines, -, -, hsample, -, -, hsegments⟩ :=
    sample_spec v spacing f 2 b (by decide +kernel) hb hx
  have htwo : ((sampleWithin 2 v spacing f).any fun lines => lines.map List.length == [2, 2])
      = true := by
    decide +kernel
  rw [hsample 2 le_rfl] at htwo
  exact ⟨b, lines, hb, hlength, hx, hsample 2 le_rfl, by simpa using htwo, hsegments⟩

end FormulaPlot.Curve
