/-
The titles that a session plots.

A text comes into a session in two ways.  What the user types is a line of the input, and what is
kept of it has no line end.  A text among the arguments is taken as it is.  Each step leaves the
texts of the formulas alone but for the one that the user has just typed, so a text with a line
end was an argument.

Such a text can be a formula all the same, because the line end closes it for the parser.  Then
its title breaks in two.  Nothing else breaks one: a title depends on the texts alone, and where
they are lines it can be read back.
-/
import FormulaPlot.Session.Run
import FormulaPlot.Proofs.Document.History
import FormulaPlot.Proofs.Plot.Title
import FormulaPlot.Proofs.Session.Plot

namespace FormulaPlot

/-! ### Lines of the input -/

namespace Text

/-- A mark that can only be the last element of a list. -/
def EndsAt {α : Type} (mark : α) (l : List α) : Prop :=
  ∀ before after, l = before ++ mark :: after → after = []

theorem EndsAt.cons {α : Type} {mark a : α} {l : List α} (h : EndsAt mark l) (ha : a ≠ mark) :
    EndsAt mark (a :: l) := by
  rintro (_ | ⟨b, before⟩) after hsplit
  · exact absurd (List.cons.inj hsplit).1 ha
  · exact h before after (List.cons.inj hsplit).2

theorem endsAt_nil {α : Type} (mark : α) : EndsAt mark [] := by
  intro before after hsplit
  simp at hsplit

theorem endsAt_byteLines {bytes line : List UInt8} (h : line ∈ byteLines bytes) :
    EndsAt 10 line := by
  induction bytes generalizing line with
  | nil => cases h
  | cons b bytes ih =>
      rw [byteLines] at h
      split at h
      · rcases List.mem_cons.mp h with rfl | h
        · rintro (_ | ⟨b', before⟩) after hsplit
          · exact (List.cons.inj hsplit).2.symm
          · simp at hsplit
        · exact ih h
      · rename_i hb
        split at h
        · rw [List.mem_singleton.mp h]
          exact (endsAt_nil 10).cons hb
        · rename_i first others hlines
          rw [hlines] at ih
          rcases List.mem_cons.mp h with rfl | h
          · exact (ih List.mem_cons_self).cons hb
          · exact ih (List.mem_cons_of_mem _ h)

theorem toByteArray_of_fromUTF8? {bytes : ByteArray} {input : String}
    (h : String.fromUTF8? bytes = some input) : input.toByteArray = bytes := by
  unfold String.fromUTF8? at h
  split at h
  · cases h
    rfl
  · cases h

/-- The line end is a byte of its own, so a line of the bytes is one of the text. -/
theorem endsAt_of_fromUTF8? {line : List UInt8} {input : String} (hline : EndsAt 10 line)
    (h : String.fromUTF8? ⟨line.toArray⟩ = some input) : EndsAt '\n' input.toList := by
  intro before after hsplit
  have hbytes : line = before.utf8Encode.data.toList ++ 10 :: after.utf8Encode.data.toList := by
    have hdata := congrArg (·.data.toList) (toByteArray_of_fromUTF8? h)
    have hnewline : String.utf8EncodeChar '\n' = [10] := by decide
    rw [← String.utf8Encode_toList, hsplit, List.utf8Encode_append, List.utf8Encode_cons,
      List.utf8Encode_singleton, hnewline] at hdata
    simpa using hdata.symm
  have hafter := hline _ _ hbytes
  exact List.utf8Encode_eq_empty.mp (ByteArray.ext (Array.toList_inj.mp hafter))

/-- What is kept of a typed line has no line end. -/
theorem isLine_trim {typed : ByteArray} {input : String} (h : some input ∈ inputLines typed) :
    Plot.isLine (trim input) = true := by
  obtain ⟨line, hline, hinput⟩ := List.mem_map.mp h
  have hends := endsAt_of_fromUTF8? (endsAt_byteLines hline) hinput
  refine Plot.isLine_iff.mpr fun c hc hnewline => ?_
  subst hnewline
  have htrim : (trim input).toList = (input.toList.dropWhile isBlank).rdropWhile isBlank :=
    String.toList_ofList
  rw [htrim] at hc
  obtain ⟨start, hstart⟩ := List.dropWhile_suffix isBlank (l := input.toList)
  obtain ⟨stop, hstop⟩ := List.rdropWhile_prefix isBlank (input.toList.dropWhile isBlank)
  obtain ⟨before, after, hsplit⟩ := List.append_of_mem hc
  -- Nothing stands behind the line end, so it is last; but what is last is not blank.
  obtain ⟨rfl, -⟩ : after = [] ∧ stop = [] := by
    refine List.append_eq_nil_iff.mp (hends (start ++ before) (after ++ stop) ?_)
    rw [← hstart, ← hstop, hsplit]
    simp
  have hlast := List.rdropWhile_last_not isBlank (input.toList.dropWhile isBlank)
    (List.ne_nil_of_mem hc)
  simp only [hsplit, List.getLast_append_singleton] at hlast
  exact hlast (by decide)

end Text

theorem Plot.text_of_visible {d : Document} {v : Viewport Float} {c : Plot.DataSet}
    (h : c ∈ Plot.visibleCurves d v) : c.text ∈ d.texts := by
  obtain ⟨f, -, hf, htext, -⟩ := Plot.exists_of_visible h
  rw [← htext]
  exact List.mem_map_of_mem (List.fst_mem_of_mem_zipIdx hf)

/-! ### The texts of a session -/

namespace Session

open Plot

variable {s : Session} {o : CommandLine.Options}

theorem document_plot (around : Surroundings) (s : Session) :
    (s.plot around).1.document = s.document := by
  unfold plot
  dsimp only
  split
  · rfl
  · split
    · rfl
    · split
      · rfl
      · split <;> rfl

theorem document_takeCommand (around : Surroundings) (s : Session) (word : String) :
    (s.takeCommand around word).1.document = s.document := by
  unfold takeCommand
  cases Command.ofName? (Text.lowercase word) with
  | none => rfl
  | some c =>
      cases c with
      | plot => exact document_plot around s
      | set =>
          unfold obey
          dsimp only
          split <;> rfl
      | _ => rfl

theorem document_takeNumber (s : Session) (text : String) :
    (s.takeNumber text).1.document = s.document := by
  fun_cases takeNumber s text <;> rfl

theorem document_takeDimension (s : Session) (dimension : Dimension) (draft : Viewport Float)
    (text : String) : (s.takeDimension dimension draft text).1.document = s.document := by
  have hresize : ∀ draft, (s.resize draft).1.document = s.document := by
    intro draft
    fun_cases resize s draft <;> rfl
  unfold takeDimension
  cases dimension.next? with
  | none =>
      dsimp only
      split
      · exact hresize draft
      · split
        · exact hresize _
        · rfl
  | some d =>
      dsimp only
      split
      · rfl
      · split <;> rfl

/-- A step keeps the texts of the formulas, except for the one that the user has typed. -/
theorem texts_step (around : Surroundings) (s : Session) (input : String) :
    (s.step around input).1.document.texts ⊆ Text.trim input :: s.document.texts := by
  have hsame : ∀ {d : Document}, d = s.document →
      d.texts ⊆ Text.trim input :: s.document.texts := by
    rintro _ rfl
    exact List.subset_cons_self _ _
  unfold step
  dsimp only
  cases s.mode with
  | command => exact hsame (document_takeCommand around s _)
  | choosing => exact hsame (document_takeNumber s _)
  | resizing d draft => exact hsame (document_takeDimension s d draft _)
  | tokens => exact hsame rfl
  | adding =>
      dsimp only
      unfold takeNew
      split
      · exact hsame rfl
      · show (s.document.addFormula _).texts ⊆ _
        rw [Document.texts_addFormula]
        simp
  | editing index =>
      dsimp only
      unfold takeEdit
      dsimp only
      split
      · show (s.document.removeFormula index).1.texts ⊆ _
        rw [Document.texts_removeFormula]
        exact List.subset_cons_of_subset _ (List.eraseIdx_sublist _ _).subset
      · show (s.document.setFormula index _).1.texts ⊆ _
        rw [Document.texts_setFormula]
        intro text htext
        exact List.mem_cons.mpr (List.mem_or_eq_of_mem_set htext).symm
  | defining entered =>
      dsimp only
      unfold takeDefinition
      split
      · exact hsame rfl
      · show (s.document.setFunctionsText _).1.texts ⊆ _
        rw [Document.texts_setFunctionsText]
        exact List.subset_cons_self _ _

theorem texts_withFormulas (texts : List String) (d : Document × String) :
    (texts.foldl withFormula d).1.texts = d.1.texts ++ texts := by
  induction texts generalizing d with
  | nil => exact (List.append_nil _).symm
  | cons text texts ih =>
      have hadd : (withFormula d text).1.texts = d.1.texts ++ [text] := d.1.texts_addFormula text
      rw [List.foldl_cons, ih, hadd, List.append_assoc, List.singleton_append]

theorem texts_withFunctions (functions : Option String) :
    (withFunctions functions).1.texts = [] := by
  cases functions with
  | none => rfl
  | some text => exact Document.empty.texts_setFunctionsText text

theorem viewportOf_eq {v : Viewport Float}
    (h : v = .centered (o.scale.getD 50) (o.width.getD 800) (o.height.getD 600))
    (hfault : ViewportFault.of? v = none) : viewportOf o = .ok v := by
  subst h
  unfold viewportOf
  dsimp only
  rw [hfault]

/-- What a session starts with, where nothing keeps it from starting. -/
theorem start_eq {readFile : String → Except String String} {v : Viewport Float}
    {functions : Option String} (hviewport : viewportOf o = .ok v)
    (hfunctions : functionsOf readFile o = .ok functions) :
    let opened := o.formulas.foldl withFormula (withFunctions functions)
    Session.start readFile o = .ok (⟨opened.1, v, .command⟩, opened.2) := by
  unfold Session.start
  rw [hviewport, hfunctions]
  rfl

/-- A session starts with the formulas among the arguments. -/
theorem texts_start {readFile : String → Except String String} {report : String}
    (h : Session.start readFile o = .ok (s, report)) : s.document.texts = o.formulas := by
  cases hviewport : viewportOf o with
  | error f =>
      unfold Session.start at h
      rw [hviewport] at h
      cases h
  | ok v =>
      cases hfunctions : functionsOf readFile o with
      | error f =>
          unfold Session.start at h
          rw [hviewport, hfunctions] at h
          cases h
      | ok functions =>
          rw [start_eq hviewport hfunctions] at h
          cases h
          show (o.formulas.foldl withFormula (withFunctions functions)).1.texts = o.formulas
          rw [texts_withFormulas, texts_withFunctions, List.nil_append]

/-- The states of a session that some options start, when lines of some input have been typed. -/
inductive Conversed (o : CommandLine.Options) : Session → Prop
  | start {readFile : String → Except String String} {s : Session} {report : String}
      (hstart : Session.start readFile o = .ok (s, report)) : Conversed o s
  | step {s : Session} (h : Conversed o s) {around : Surroundings} {typed : ByteArray}
      {input : String} (htyped : some input ∈ Text.inputLines typed)
      (hgoes : (s.step around input).2.ending = none) : Conversed o (s.step around input).1

/-- A text with a line end was an argument. -/
theorem Conversed.texts (h : Conversed o s) :
    ∀ text ∈ s.document.texts, isLine text = true ∨ text ∈ o.formulas := by
  induction h with
  | start hstart =>
      rw [texts_start hstart]
      exact fun text htext => .inr htext
  | @step s _ around _ input htyped _ ih =>
      intro text htext
      rcases List.mem_cons.mp (texts_step around s input htext) with rfl | hold
      · exact .inl (Text.isLine_trim htyped)
      · exact ih text hold

/-- A script that is not empty is that of the visible curves, of which there are some. -/
theorem script_of_plot {around : Surroundings} {dataName data scriptName script : String}
    (hfiles : (s.plot around).2.files = [(dataName, data), (scriptName, script)])
    (hscript : script ≠ "") :
    dataName = (FileNames.at around.stamp).data ∧ visibleCurves s.document s.viewport ≠ [] ∧
      script = scriptText (FileNames.at around.stamp) s.viewport
        (visibleCurves s.document s.viewport) := by
  rcases plot_files around s with hnone | hsome
  · rw [hnone] at hfiles
    cases hfiles
  · rw [hfiles, List.cons.injEq, List.cons.injEq, Prod.mk.injEq, Prod.mk.injEq] at hsome
    obtain ⟨⟨hdata, -⟩, ⟨-, hwritten⟩, -⟩ := hsome
    cases hempty : (visibleCurves s.document s.viewport).isEmpty with
    | true =>
        rw [hempty] at hwritten
        exact absurd hwritten hscript
    | false =>
        rw [hempty] at hwritten
        exact ⟨hdata, List.isEmpty_eq_false_iff.mp hempty, hwritten⟩

/-- The titles of a script are quoted faithfully if no formula that is plotted has a line end in
its text, and only then.  No text has one but those that were given as arguments.

Quoted faithfully means that each clause has a line of its own, and that its title, read up to the
first quotation mark that is not escaped, ends right before the end of the clause and says the
number and the text of the formula. -/
theorem plot_titles (h : Conversed o s) (around : Surroundings)
    {dataName data scriptName script : String} (hstamp : IsStamp around.stamp)
    (hfiles : (s.plot around).2.files = [(dataName, data), (scriptName, script)])
    (hscript : script ≠ "") :
    let curves := visibleCurves s.document s.viewport
    (∀ c ∈ curves, isLine c.text = true ∨ c.text ∈ o.formulas) ∧
      ∃ lines, plotLines? script = some lines ∧
        (TitlesQuoted dataName curves lines ↔ ∀ c ∈ curves, isLine c.text = true) := by
  intro curves
  obtain ⟨rfl, hne, rfl⟩ := script_of_plot hfiles hscript
  obtain ⟨hdata, hpicture⟩ := hstamp.isLine
  exact ⟨fun c hc => h.texts c.text (text_of_visible hc),
    titlesQuoted_iff s.viewport hne hdata hpicture⟩

/-- A quotation mark and a backslash behind the formula, given as an argument or typed. -/
theorem plot_titles_escaped :
    let around : Surroundings := ⟨"now", true⟩
    let o : CommandLine.Options := ⟨["-x ; \\"], none, some 1, some 1, some 1, 0⟩
    ∃ s data script lines, Conversed o s ∧ IsStamp around.stamp ∧
      (s.plot around).2.files =
        [("graph_eq_output-now.data", data), ("graph_eq_output-now.gnuplot", script)] ∧
      script ≠ "" ∧ plotLines? script = some lines ∧
      TitlesQuoted "graph_eq_output-now.data" (visibleCurves s.document s.viewport) lines ∧
      (visibleCurves s.document s.viewport).map (fun c => String.ofList c.title) =
        ["1: y = -x ; \\", "2: y = x ; \"y\\\""] := by
  intro around o
  let opened : Document × String := o.formulas.foldl withFormula (withFunctions none)
  let first : Session := ⟨opened.1, .centered 1 1 1, .command⟩
  let asked : Session := (first.step around "add\n").1
  let s : Session := (asked.step around "x ; \"y\\\" \n").1
  have hviewport : viewportOf o = .ok (.centered 1 1 1) := viewportOf_eq rfl (by decide)
  have hstart : Session.start (fun _ => .error "") o = .ok (first, opened.2) :=
    start_eq hviewport rfl
  have hadd : some "add\n" ∈ Text.inputLines "add\n".toUTF8 := by decide +kernel
  have hformula : some "x ; \"y\\\" \n" ∈ Text.inputLines "x ; \"y\\\" \n".toUTF8 := by
    decide +kernel
  have hasked : Conversed o asked :=
    (Conversed.start hstart).step hadd (Option.isNone_iff_eq_none.mp (by decide +kernel))
  have hs : Conversed o s :=
    hasked.step hformula (Option.isNone_iff_eq_none.mp (by decide +kernel))
  have hfiles := (plot_files around s).resolve_left (by decide +kernel)
  have hempty : (visibleCurves s.document s.viewport).isEmpty = false := by decide +kernel
  have hlines : (visibleCurves s.document s.viewport).all (fun c => isLine c.text) = true := by
    decide +kernel
  have hstamp : IsStamp around.stamp := by simp [IsStamp, around]
  have hscript := scriptText_ne s.viewport (visibleCurves s.document s.viewport) hstamp.isLine.1
    hstamp.isLine.2
  rw [hempty, if_neg Bool.false_ne_true] at hfiles
  obtain ⟨-, lines, hplot, hquoted⟩ := plot_titles hs around hstamp hfiles hscript
  refine ⟨s, _, _, lines, hs, hstamp, hfiles, hscript, hplot, hquoted.mpr ?_, by decide +kernel⟩
  exact List.all_eq_true.mp hlines

/-- A line end in an argument breaks the title in two.  The parser takes it for the end of the
formula. -/
theorem title_broken :
    let around : Surroundings := ⟨"now", true⟩
    let o : CommandLine.Options := ⟨["x\n"], none, some 1, some 1, some 1, 0⟩
    ∃ s report data script lines, Session.start (fun _ => .error "") o = .ok (s, report) ∧
      (s.plot around).2.files =
        [("graph_eq_output-now.data", data), ("graph_eq_output-now.gnuplot", script)] ∧
      plotLines? script = some lines ∧
      lines.map String.ofList =
        ["  'graph_eq_output-now.data' index 0 with lines lw 2 title \"1: y = x", "\" noenhanced",
          "set term pop", "replot", ""] ∧
      ¬ TitlesQuoted "graph_eq_output-now.data" (visibleCurves s.document s.viewport) lines := by
  intro around o
  let opened : Document × String := o.formulas.foldl withFormula (withFunctions none)
  let s : Session := ⟨opened.1, .centered 1 1 1, .command⟩
  have hviewport : viewportOf o = .ok (.centered 1 1 1) := viewportOf_eq rfl (by decide)
  have hstart : Session.start (fun _ => .error "") o = .ok (s, opened.2) := start_eq hviewport rfl
  have hfiles := (plot_files around s).resolve_left (by decide +kernel)
  have hempty : (visibleCurves s.document s.viewport).isEmpty = false := by decide +kernel
  have hbroken : (visibleCurves s.document s.viewport).all (fun c => isLine c.text) = false := by
    decide +kernel
  have hstamp : IsStamp around.stamp := by simp [IsStamp, around]
  rw [hempty, if_neg Bool.false_ne_true] at hfiles
  have hlines := plotLines?_scriptText s.viewport (visibleCurves s.document s.viewport)
    hstamp.isLine.1 hstamp.isLine.2
  refine ⟨s, opened.2, _, _, _, hstart, hfiles, hlines, by decide +kernel, ?_⟩
  obtain ⟨lines, hlines', hquoted⟩ := titlesQuoted_iff s.viewport
    (List.isEmpty_eq_false_iff.mp hempty) hstamp.isLine.1 hstamp.isLine.2
  obtain rfl := Option.some.inj (hlines.symm.trans hlines')
  intro htitles
  rw [List.all_eq_true.mpr (hquoted.mp htitles)] at hbroken
  cases hbroken

end Session

end FormulaPlot
