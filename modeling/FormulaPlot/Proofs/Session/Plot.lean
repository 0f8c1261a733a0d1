/-
What a plot leaves behind.

A plot writes two files that know nothing of each other but how many data sets there are and in
which order.  Both are written from one list, and each is read back as that list: so the title
of the clause at a place belongs to the curve at that place.

The list is what is left of the formulas after three sieves, a tree, a curve, and a line on the
canvas.  `visibleCurves` says it of the formulas themselves.  Their numbers are given before
anything is sieved, and the places in the file after.
-/
import FormulaPlot.Session.Step
import FormulaPlot.Proofs.Plot.Script

namespace FormulaPlot

open Plot (DataSet drawable dataSet? dataText scriptText readData? readScript?)

namespace Plot

/-- The formulas that have a tree and some of whose curve is on the canvas, in their order, each
with its number, its text and the lines of its curve. -/
def visibleCurves (d : Document) (v : Viewport Float) : List DataSet :=
  (d.formulas.zipIdx 1).filterMap fun (f, number) =>
    match f.expr with
    | none => none
    | some e =>
      match Curve.sample v .screen fun x => e.eval [x] with
      | none | some [] => none
      | some lines => some ⟨number, f.text, lines⟩

/-- What is left after three sieves is left after one. -/
theorem filter_of_mapM {α β γ : Type} {l : List α} {f : α → Option β} {g : β → Option γ}
    {p : γ → Bool} {cs : List γ} (h : (l.filterMap f).mapM g = some cs) :
    cs.filter p = l.filterMap fun a => ((f a).bind g).filter p := by
  induction l generalizing cs with
  | nil =>
      cases h
      rfl
  | cons a l ih =>
      rw [List.filterMap_cons] at h ⊢
      cases hf : f a with
      | none =>
          rw [hf] at h
          exact ih h
      | some b =>
          rw [hf] at h
          dsimp only at h
          rw [List.mapM_cons, Option.bind_eq_bind, Option.bind_eq_some_iff] at h
          obtain ⟨c, hg, hrest⟩ := h
          rw [Option.bind_eq_bind, Option.bind_eq_some_iff] at hrest
          obtain ⟨others, hothers, hcs⟩ := hrest
          obtain rfl : c :: others = cs := Option.some.inj hcs
          rw [Option.bind_some, hg, List.filter_cons, ih hothers]
          cases hp : p c <;> simp [Option.filter, hp]

variable {d : Document} {v : Viewport Float} {sets : List DataSet}

/-- The data sets that are shown are those of the visible curves. -/
theorem filter_isVisible (h : (drawable d).mapM (dataSet? v) = some sets) :
    sets.filter (·.isVisible) = visibleCurves d v := by
  rw [filter_of_mapM h, visibleCurves]
  refine List.filterMap_congr fun (f, number) _ => ?_
  dsimp only
  cases f.expr with
  | none => rfl
  | some e =>
      rw [Option.map_some, Option.bind_some, dataSet?]
      dsimp only
      cases Curve.sample v .screen fun x => e.eval [x] with
      | none => rfl
      | some lines => cases lines <;> rfl

/-- A visible curve is that of a formula. -/
theorem exists_of_visible {c : DataSet} (h : c ∈ visibleCurves d v) :
    ∃ f e, (f, c.number) ∈ d.formulas.zipIdx 1 ∧ f.text = c.text ∧ f.expr = some e ∧
      (Curve.sample v .screen fun x => e.eval [x]) = some c.lines ∧ c.lines ≠ [] := by
  obtain ⟨⟨f, number⟩, hf, hc⟩ := List.mem_filterMap.mp h
  dsimp only at hc
  cases hexpr : f.expr with
  | none =>
      rw [hexpr] at hc
      cases hc
  | some e =>
      rw [hexpr] at hc
      dsimp only at hc
      cases hsample : Curve.sample v .screen fun x => e.eval [x] with
      | none =>
          rw [hsample] at hc
          cases hc
      | some lines =>
          rw [hsample] at hc
          cases lines with
          | nil => cases hc
          | cons line lines =>
              cases hc
              exact ⟨f, e, hf, rfl, hexpr, hsample, List.cons_ne_nil line lines⟩

/-- A visible curve has lines, and its lines have points. -/
theorem lines_of_visible {c : DataSet} (h : c ∈ visibleCurves d v) :
    c.lines ≠ [] ∧ ∀ line ∈ c.lines, line ≠ [] := by
  obtain ⟨_, _, -, -, -, hsample, hne⟩ := exists_of_visible h
  exact ⟨hne, Curve.ne_nil_of_sample hsample⟩

/-- A moment in time as it goes into file names, with neither a line end nor an apostrophe. -/
def IsStamp (stamp : String) : Prop := ∀ c ∈ stamp.toList, c ≠ '\n' ∧ c ≠ '\x27'

variable {stamp : String}

/-- The names of the files keep to a line. -/
theorem IsStamp.isLine (h : IsStamp stamp) : isLine (FileNames.at stamp).data = true ∧
    Plot.isLine (FileNames.at stamp).picture = true := by
  have hstamp : Plot.isLine stamp = true :=
    List.all_eq_true.mpr fun c hc => decide_eq_true (h c hc).1
  have hbase : Plot.isLine ("graph_eq_output-" ++ stamp) = true :=
    isLine_append (by decide) hstamp
  exact ⟨isLine_append hbase (by decide), isLine_append hbase (by decide)⟩

/-- The name of the data file can stand between apostrophes. -/
theorem IsStamp.data_quoted (h : IsStamp stamp) :
    ∀ c ∈ (FileNames.at stamp).data.toList, c ≠ '\x27' := by
  have hdata : (FileNames.at stamp).data.toList =
      "graph_eq_output-".toList ++ (stamp.toList ++ ".data".toList) := by
    unfold FileNames.at
    rw [String.toList_append, String.toList_append, List.append_assoc]
  rw [hdata]
  refine List.forall_mem_append.mpr ⟨by simp, List.forall_mem_append.mpr ⟨?_, by simp⟩⟩
  intro c hc
  exact (h c hc).2

end Plot

namespace Session

open Plot

variable {around : Surroundings} {s : Session}

/-- A plot writes no file, or it writes what is visible to two of them. -/
theorem plot_files (around : Surroundings) (s : Session) :
    let names := FileNames.at around.stamp
    let curves := visibleCurves s.document s.viewport
    (s.plot around).2.files = [] ∨ (s.plot around).2.files =
      [(names.data, dataText s.viewport curves),
        (names.script, if curves.isEmpty then "" else scriptText names s.viewport curves)] := by
  intro names curves
  unfold plot
  dsimp only
  by_cases hempty : (drawable s.document).isEmpty = true
  · rw [if_pos hempty]
    exact .inl rfl
  rw [if_neg hempty]
  cases hsets : (drawable s.document).mapM (dataSet? s.viewport) with
  | none => exact .inl rfl
  | some sets =>
      have hcurves : sets.filter (·.isVisible) = curves := filter_isVisible hsets
      right
      dsimp only
      rw [hcurves]
      by_cases hnone : curves.isEmpty = true
      · rw [if_pos hnone, if_pos hnone]
      · rw [if_neg hnone, if_neg hnone]
        split <;> rfl

/-- The data file and the script of a plot are about the same curves.  Read as the plotting program
reads it, the data file has one data set for each visible curve, in the order of the formulas and
with the lines of the curve in logical coordinates; and the clauses of the script are one for
each of them, with the place of its data set, its number and its text. -/
theorem plot_curves (around : Surroundings) (s : Session) {dataName data scriptName script : String}
    (hstamp : IsStamp around.stamp)
    (hfiles : (s.plot around).2.files = [(dataName, data), (scriptName, script)])
    (hscript : script ≠ "") :
    let curves := visibleCurves s.document s.viewport
    readData? data =
        some (curves.map fun c => c.lines.map fun line => line.map s.viewport.toLogical) ∧
      readScript? script =
        some (curves.zipIdx.map fun (c, index) => ⟨dataName, index, c.number, c.text⟩) := by
  intro curves
  rcases plot_files around s with hnone | hsome
  · rw [hnone] at hfiles
    cases hfiles
  · obtain ⟨⟨rfl, rfl⟩, -, rfl⟩ : ((FileNames.at around.stamp).data = dataName ∧
        dataText s.viewport curves = data) ∧ (FileNames.at around.stamp).script = scriptName ∧
        (if curves.isEmpty then "" else
          scriptText (FileNames.at around.stamp) s.viewport curves) = script := by
      simpa using hsome.symm.trans hfiles
    cases hcurves : curves.isEmpty with
    | true =>
        rw [hcurves] at hscript
        exact absurd rfl hscript
    | false =>
        have hne : curves ≠ [] := List.isEmpty_eq_false_iff.mp hcurves
        have hlines : ∀ c ∈ curves, c.lines ≠ [] := fun c hc => (lines_of_visible hc).1
        have hpoints : ∀ c ∈ curves, ∀ line ∈ c.lines, line ≠ [] :=
          fun c hc => (lines_of_visible hc).2
        obtain ⟨hdata, hpicture⟩ := hstamp.isLine
        refine ⟨readData?_dataText hne hlines hpoints, ?_⟩
        exact readScript?_scriptText s.viewport hne hdata hpicture hstamp.data_quoted

/-- A blank formula and one that lies above the canvas are left out, and keep their numbers. -/
theorem plot_curves_sieved :
    let around : Surroundings := ⟨"now", true⟩
    let rising : Formula := ⟨"x", some (.var 0), none⟩
    let high : Formula := ⟨"9", some (.const 9), none⟩
    let falling : Formula := ⟨"-x ; \"", some (.unary .neg (.var 0)), none⟩
    let d : Document := { Document.empty with formulas := [rising, .blank, high, falling] }
    let s : Session := ⟨d, ⟨1, ⟨0.5, 0.5⟩, 1, 1⟩, .command⟩
    ∃ data script, (s.plot around).2.files =
        [("graph_eq_output-now.data", data), ("graph_eq_output-now.gnuplot", script)] ∧
      (readData? data).map (·.map (·.map List.length)) = some [[2], [2]] ∧
      readScript? script = some [⟨"graph_eq_output-now.data", 0, 1, "x"⟩,
        ⟨"graph_eq_output-now.data", 1, 4, "-x ; \""⟩] := by
  intro around rising high falling d s
  have hfiles := (plot_files around s).resolve_left (by decide +kernel)
  have hvisible : (visibleCurves s.document s.viewport).isEmpty = false := by decide +kernel
  have hlengths : (visibleCurves s.document s.viewport).map (fun c => c.lines.map List.length) =
      [[2], [2]] := by
    decide +kernel
  have hclauses : ((visibleCurves s.document s.viewport).zipIdx.map fun (c, index) =>
      (⟨"graph_eq_output-now.data", index, c.number, c.text⟩ : Clause)) =
        [⟨"graph_eq_output-now.data", 0, 1, "x"⟩,
          ⟨"graph_eq_output-now.data", 1, 4, "-x ; \""⟩] := by
    decide +kernel
  have hstamp : IsStamp "now" := by simp [IsStamp]
  have hscript := scriptText_ne s.viewport (visibleCurves s.document s.viewport) hstamp.isLine.1
    hstamp.isLine.2
  rw [hvisible, if_neg Bool.false_ne_true] at hfiles
  obtain ⟨hdata, htitles⟩ := plot_curves around s hstamp hfiles hscript
  refine ⟨_, _, hfiles, ?_, htitles.trans (congrArg some hclauses)⟩
  rw [hdata, Option.map_some, List.map_map, ← hlengths]
  refine congrArg some (List.map_congr_left fun c _ => ?_)
  rw [Function.comp_apply, List.map_map]
  exact List.map_congr_left fun line _ => List.length_map _

end Session

end FormulaPlot
