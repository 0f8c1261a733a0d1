/-
The data file, read back.

The plotting program reads a data file line by line.  A line holds the two coordinates of a
point; a blank line ends a polyline, and two of them end a data set.  `readData?` is this rule:
the lines are split at every blank one, and a piece without lines, which stands between two
blank lines, ends a data set.

What is written is read back.  A separator is written before every item but the first, at two
levels, so the lines of the file are an intercalation of intercalations.  It can be undone
because no curve that is shown is without a polyline, no polyline without a point, and no point
without ink.
-/
import FormulaPlot.Plot.Data
import FormulaPlot.Proofs.Curve.Polyline
import FormulaPlot.Proofs.Decimal.Plain
import FormulaPlot.Proofs.Parser.Listing

namespace FormulaPlot

/-! ### Lines that are joined -/

section Intercalate

variable {α : Type} {sep : List α} {ls ls' : List (List α)}

theorem mem_intercalate {a : α} (h : a ∈ sep.intercalate ls) : a ∈ sep ∨ ∃ l ∈ ls, a ∈ l := by
  induction ls with
  | nil => cases h
  | cons l ls ih =>
      cases ls with
      | nil =>
          rw [List.intercalate_singleton] at h
          exact .inr ⟨l, List.mem_cons_self, h⟩
      | cons l' ls =>
          rw [List.intercalate_cons_cons] at h
          rcases List.mem_append.mp h with h | h
          · rcases List.mem_append.mp h with h | h
            · exact .inr ⟨l, List.mem_cons_self, h⟩
            · exact .inl h
          · refine (ih h).imp_right ?_
            rintro ⟨l'', hl'', ha⟩
            exact ⟨l'', List.mem_cons_of_mem _ hl'', ha⟩

theorem intercalate_append (h : ls ≠ []) (h' : ls' ≠ []) :
    sep.intercalate (ls ++ ls') = sep.intercalate ls ++ sep ++ sep.intercalate ls' := by
  induction ls with
  | nil => exact absurd rfl h
  | cons l ls ih =>
      cases ls with
      | nil =>
          obtain ⟨l', ls', rfl⟩ := List.exists_cons_of_ne_nil h'
          simp [List.intercalate_cons_cons]
      | cons l'' ls =>
          rw [List.cons_append, List.cons_append, List.intercalate_cons_cons,
            List.intercalate_cons_cons, ← List.cons_append, ih (List.cons_ne_nil _ _)]
          simp

theorem intercalate_ne_nil (hne : ls ≠ []) (h : ∀ l ∈ ls, l ≠ []) : sep.intercalate ls ≠ [] := by
  obtain ⟨l, ls, rfl⟩ := List.exists_cons_of_ne_nil hne
  have hl := h l List.mem_cons_self
  cases ls with
  | nil => rwa [List.intercalate_singleton]
  | cons l' ls => simp [List.intercalate_cons_cons, hl]

/-- Two separators between groups are one on each side of a group without items. -/
theorem intercalate_intercalate (a : α) {groups : List (List (List α))}
    (h : ∀ g ∈ groups, g ≠ []) :
    [a, a].intercalate (groups.map fun g => [a].intercalate g) =
      [a].intercalate ([[]].intercalate groups) := by
  induction groups with
  | nil => rfl
  | cons g groups ih =>
      obtain ⟨hg, hgroups⟩ := List.forall_mem_cons.mp h
      cases groups with
      | nil => simp
      | cons g' groups =>
          -- There are items on both sides of the group without any, so it has two separators.
          have hrest : [[]].intercalate (g' :: groups) ≠ [] :=
            intercalate_ne_nil (List.cons_ne_nil _ _) hgroups
          have hih := ih hgroups
          rw [List.map_cons] at hih
          rw [List.map_cons, List.map_cons, List.intercalate_cons_cons, hih,
            List.intercalate_cons_cons, List.append_assoc g,
            intercalate_append hg (by simp), intercalate_append (by simp) hrest]
          simp

end Intercalate

namespace Curve

/-! ### Lines with points -/

variable {α : Type} {pen : Pen α}

/-- Every finished line has a point. -/
def Pen.Inked (pen : Pen α) : Prop := ∀ line ∈ pen.finished, line ≠ []

theorem Pen.Inked.lift (h : pen.Inked) : pen.lift.Inked := by
  fun_cases Pen.lift pen with
  | case1 _ => exact h
  | case2 _ _ => exact h
  | case3 hempty _ =>
      refine List.forall_mem_cons.mpr ⟨fun hline => hempty ?_, h⟩
      exact List.reverse_eq_nil_iff.mp hline

variable [Scalar α]

theorem Pen.Inked.drawTo (h : pen.Inked) (p : Point α) : (pen.drawTo p).Inked := by
  have hfinished : (pen.drawTo p).finished = pen.finished := by
    fun_cases Pen.drawTo pen p <;> rfl
  rwa [Inked, hfinished]

theorem Pen.Inked.trace (h : pen.Inked) (height : α) (i : Interval α) :
    (pen.trace height i).Inked := by
  unfold Pen.trace
  split
  · exact (h.drawTo _).drawTo _
  · exact (h.drawTo _).drawTo _
  · exact (h.drawTo _).drawTo _
  · exact (h.drawTo _).lift
  · exact h.lift.drawTo _
  · exact h.lift

theorem Pen.Inked.foldl (h : pen.Inked) (height : α) (intervals : List (Interval α)) :
    (intervals.foldl (Pen.trace height) pen).Inked := by
  induction intervals generalizing pen with
  | nil => exact h
  | cons i intervals ih => exact ih (h.trace height i)

/-- No polyline of a curve is without points. -/
theorem ne_nil_of_sample {v : Viewport α} {spacing : Spacing α} {f : α → α}
    {lines : List (Polyline α)} (h : sample v spacing f = some lines) :
    ∀ line ∈ lines, line ≠ [] := by
  intro line hline
  unfold sample sampleWithin at h
  split at h
  · obtain ⟨b, -, rfl⟩ := Option.map_eq_some_iff.mp h
    have hstart : (Pen.start : Pen α).Inked := by
      intro line hline
      cases hline
    exact (hstart.foldl v.height b.leaves).lift line (List.mem_reverse.mp hline)
  · cases h
    cases hline

end Curve

namespace Text

/-- Lines, each with its end. -/
def unlines (texts : List String) : String := String.join (texts.map (· ++ "\n"))

theorem unlines_append (texts texts' : List String) :
    unlines (texts ++ texts') = unlines texts ++ unlines texts' := by
  simp [unlines, String.join_append]

theorem unlines_intercalate (sep : List String) (blocks : List (List String)) :
    unlines (sep.intercalate blocks) = (unlines sep).intercalate (blocks.map unlines) := by
  induction blocks with
  | nil => rfl
  | cons block blocks ih =>
      cases blocks with
      | nil => simp
      | cons block' blocks =>
          rw [List.intercalate_cons_cons, unlines_append, unlines_append, ih, List.map_cons,
            List.map_cons, List.map_cons, String.intercalate_cons_cons]

end Text

namespace Plot

/-! ### Reading a data file -/

/-- The point on a line: two numbers with a space between them. -/
def readPoint? (line : String) : Option (Point Float) := do
  let x ← Decimal.read? (line.toList.takeWhile (· ≠ ' '))
  let y ← Decimal.read? ((line.toList.dropWhile (· ≠ ' ')).drop 1)
  return ⟨x, y⟩

/-- The data sets of a file, each with its polylines.  One blank line ends a polyline, and two
end a data set. -/
def readData? (text : String) : Option (List (List (Curve.Polyline Float))) :=
  let polylines := (Text.lines text).splitOn ""
  let sets := polylines.splitOn []
  sets.mapM fun set => set.mapM fun line => line.mapM readPoint?

/-- Every element is read as it should be. -/
theorem mapM_map_eq_some {α β γ : Type} {l : List α} {write : α → β} {read : β → Option γ}
    {value : α → γ} (h : ∀ a ∈ l, read (write a) = some (value a)) :
    (l.map write).mapM read = some (l.map value) := by
  induction l with
  | nil => rfl
  | cons a l ih =>
      obtain ⟨ha, hl⟩ := List.forall_mem_cons.mp h
      rw [List.map_cons, List.mapM_cons, ha, ih hl]
      rfl

variable {v : Viewport Float} {p : Point Float} {s : DataSet} {sets : List DataSet}

/-- What stands on the line of a point. -/
def pointText (v : Viewport Float) (p : Point Float) : String :=
  Decimal.plain (v.toLogical p).x ++ " " ++ Decimal.plain (v.toLogical p).y

theorem toList_pointText : (pointText v p).toList =
    (Decimal.plain (v.toLogical p).x).toList ++
      ' ' :: (Decimal.plain (v.toLogical p).y).toList := by
  simp [pointText]

theorem readPoint?_pointText : readPoint? (pointText v p) = some (v.toLogical p) := by
  have hblank : ∀ c ∈ (Decimal.plain (v.toLogical p).x).toList, decide (c ≠ ' ') = true := by
    intro c hc
    have hink := Decimal.isInk_plain _ c hc
    exact decide_eq_true (Token.ne_of_class hink (by decide))
  unfold readPoint?
  rw [toList_pointText, List.takeWhile_append_of_pos hblank, List.dropWhile_append_of_pos hblank]
  simp [Decimal.read?_plain]

/-- A point takes up one line. -/
theorem pointText_line : ∀ c ∈ (pointText v p).toList, c ≠ '\n' ∧ c ≠ '\r' := by
  have hink : ∀ {x : Float}, ∀ c ∈ (Decimal.plain x).toList, c ≠ '\n' ∧ c ≠ '\r' := by
    intro x c hc
    have hink := Decimal.isInk_plain _ c hc
    exact ⟨Token.ne_of_class hink (by decide), Token.ne_of_class hink (by decide)⟩
  rw [toList_pointText]
  exact List.forall_mem_append.mpr ⟨hink, List.forall_mem_cons.mpr ⟨by decide, hink⟩⟩

/-- The line of a point is not blank. -/
theorem pointText_ne : pointText v p ≠ "" := by
  intro hempty
  have hchars : (pointText v p).toList = [] := by
    rw [hempty]
    rfl
  rw [toList_pointText] at hchars
  simp at hchars

/-! ### Writing a data file -/

/-- The lines of a data set, without those between its polylines. -/
def DataSet.blocks (v : Viewport Float) (s : DataSet) : List (List String) :=
  s.lines.map fun line => line.map (pointText v)

theorem polylineText_eq (line : Curve.Polyline Float) :
    polylineText v line = Text.unlines (line.map (pointText v)) := by
  rw [polylineText, Text.unlines, List.map_map]
  rfl

theorem DataSet.dataText_eq (s : DataSet) :
    s.dataText v = Text.unlines ([""].intercalate (s.blocks v)) := by
  have hlines : s.lines.map (polylineText v) = (s.blocks v).map Text.unlines := by
    rw [DataSet.blocks, List.map_map]
    exact List.map_congr_left fun line _ => polylineText_eq line
  rw [DataSet.dataText, hlines, Text.unlines_intercalate]
  rfl

/-- The lines of the file. -/
theorem dataText_eq (h : ∀ s ∈ sets, s.lines ≠ []) : dataText v sets =
    Text.unlines ([""].intercalate ([[]].intercalate (sets.map (·.blocks v)))) := by
  have hblocks : ∀ blocks ∈ sets.map (·.blocks v), blocks ≠ [] := by
    intro blocks hblocks
    obtain ⟨s, hs, rfl⟩ := List.mem_map.mp hblocks
    simpa [DataSet.blocks] using h s hs
  have hsets : sets.map (·.dataText v) =
      ((sets.map (·.blocks v)).map fun blocks => [""].intercalate blocks).map Text.unlines := by
    rw [List.map_map, List.map_map]
    exact List.map_congr_left fun s _ => s.dataText_eq
  rw [← intercalate_intercalate "" hblocks, Text.unlines_intercalate, dataText, hsets]
  rfl

/-- Every line of a polyline is that of a point; what stands between two data sets has none. -/
theorem exists_point {block : List String} {text : String}
    (h : block ∈ [[]].intercalate (sets.map (·.blocks v))) (htext : text ∈ block) :
    ∃ p, text = pointText v p := by
  rcases mem_intercalate h with hnil | ⟨blocks, hblocks, hblock⟩
  · rw [List.mem_singleton.mp hnil] at htext
    cases htext
  · obtain ⟨s, -, rfl⟩ := List.mem_map.mp hblocks
    obtain ⟨line, -, rfl⟩ := List.mem_map.mp hblock
    obtain ⟨p, -, rfl⟩ := List.mem_map.mp htext
    exact ⟨p, rfl⟩

theorem lines_dataText (h : ∀ s ∈ sets, s.lines ≠ []) :
    Text.lines (dataText v sets) = [""].intercalate ([[]].intercalate (sets.map (·.blocks v))) := by
  rw [dataText_eq h]
  refine Text.lines_join fun text htext => ?_
  rcases mem_intercalate htext with hnil | ⟨block, hblock, htext⟩
  · rw [List.mem_singleton.mp hnil]
    intro c hc
    cases hc
  · obtain ⟨p, rfl⟩ := exists_point hblock htext
    exact pointText_line

/-- The file is read as the curves that are written to it, in logical coordinates. -/
theorem readData?_dataText (hne : sets ≠ []) (hlines : ∀ s ∈ sets, s.lines ≠ [])
    (hpoints : ∀ s ∈ sets, ∀ line ∈ s.lines, line ≠ []) :
    readData? (dataText v sets) =
      some (sets.map fun s => s.lines.map fun line => line.map v.toLogical) := by
  have hpolylines : ∀ block ∈ [[]].intercalate (sets.map (·.blocks v)), "" ∉ block := by
    intro block hblock hnil
    obtain ⟨p, hp⟩ := exists_point hblock hnil
    exact pointText_ne hp.symm
  have hblocks : [[]].intercalate (sets.map (·.blocks v)) ≠ [] := by
    refine intercalate_ne_nil (by simpa using hne) fun blocks hblocks => ?_
    obtain ⟨s, hs, rfl⟩ := List.mem_map.mp hblocks
    simpa [DataSet.blocks] using hlines s hs
  have hsets : ∀ blocks ∈ sets.map (·.blocks v), [] ∉ blocks := by
    intro blocks hmem hnil
    obtain ⟨s, hs, rfl⟩ := List.mem_map.mp hmem
    obtain ⟨line, hline, hempty⟩ := List.mem_map.mp hnil
    exact hpoints s hs line hline (List.map_eq_nil_iff.mp hempty)
  unfold readData?
  dsimp only
  rw [lines_dataText hlines, List.splitOn_intercalate "" hpolylines hblocks,
    List.splitOn_intercalate [] hsets (by simpa using hne)]
  refine mapM_map_eq_some fun s _ => ?_
  refine mapM_map_eq_some fun line _ => ?_
  exact mapM_map_eq_some fun p _ => readPoint?_pointText

end Plot

end FormulaPlot
