/-
The titles of a script, line by line.

The plotting program reads a script by lines.  A statement goes on with the next line only where
a line ends in a backslash, and a text between quotation marks ends on its line.  So a clause has
to keep to one line, and its title has to end where the clause says so.

Escaping takes care of the second and not of the first.  A backslash goes before a backslash and
before a quotation mark, whatever they stand next to, but a line end is left as it is.
`titlesQuoted_iff` says what follows: the titles can be read back from the lines if and only if
no formula that is plotted has a line end in its text.
-/
import FormulaPlot.Proofs.Plot.Script

namespace FormulaPlot

/-! ### Lines -/

namespace Text

variable {line cs : List Char}

/-- No line has a line end in it. -/
theorem ne_newline_of_pieces (h : line ∈ pieces cs) : ∀ c ∈ line, c ≠ '\n' := by
  induction cs generalizing line with
  | nil =>
      rw [pieces, List.mem_singleton] at h
      rw [h]
      exact List.forall_mem_nil _
  | cons c cs ih =>
      rw [pieces] at h
      split at h
      · rcases List.mem_cons.mp h with rfl | h
        · exact List.forall_mem_nil _
        · exact ih h
      · rename_i hc
        split at h
        · rw [List.mem_singleton.mp h]
          exact List.forall_mem_singleton.mpr hc
        · rename_i first others hpieces
          rcases List.mem_cons.mp h with rfl | h
          · refine List.forall_mem_cons.mpr ⟨hc, ih ?_⟩
            rw [hpieces]
            exact List.mem_cons_self
          · refine ih ?_
            rw [hpieces]
            exact List.mem_cons_of_mem _ h

end Text

namespace Plot

theorem isLine_iff {text : String} : isLine text = true ↔ ∀ c ∈ text.toList, c ≠ '\n' := by
  simp [isLine]

/-! ### Reading a script by lines -/

/-- The lines of a script behind the one that starts to plot. -/
def plotLines? (script : String) : Option (List (List Char)) :=
  (plotStatement? true script.toList).map Text.pieces

/-- The clause of a data set, up to the quotation mark that starts its title. -/
def clauseStart (data : String) (index : Nat) : List Char :=
  ("  '" ++ data ++ "' index " ++ index.repr ++ " with lines lw 2 title \"").toList

/-- What stands behind the title of the clause at a place: all but the last one are continued. -/
def clauseEnd (count index : Nat) : List Char :=
  " noenhanced".toList ++ if index + 1 = count then [] else ", \\".toList

/-- The title on the line of a clause, and what is behind it. -/
def lineTitle? (data : String) (index : Nat) (line : List Char) :
    Option (List Char × List Char) := do
  let quoted ← line.dropPrefix? (clauseStart data index)
  readQuoted? quoted

/-- Each curve has a line, and nothing but the statements after the plot follows.  The line is a
clause whose title, a text between quotation marks that ends right before the end of the clause,
is that of the curve. -/
structure TitlesQuoted (data : String) (curves : List DataSet) (lines : List (List Char)) :
    Prop where
  title : ∀ index c, curves[index]? = some c → ∃ line, lines[index]? = some line ∧
    lineTitle? data index line = some (c.title, clauseEnd curves.length index)
  rest : lines.drop curves.length = ["set term pop".toList, "replot".toList, []]

variable {data : String} {s : DataSet} {sets : List DataSet} {index : Nat}

/-! ### Lines that are written -/

/-- The line of the clause at a place, where a number of clauses are written. -/
def clauseLine (data : String) (count : Nat) (s : DataSet) (index : Nat) : List Char :=
  (clause data index s).toList ++ if index + 1 = count then [] else ", \\".toList

theorem toList_clause_start (index : Nat) : (clause data index s).toList =
    clauseStart data index ++ (s.title.flatMap escapeChar ++ '"' :: " noenhanced".toList) := by
  rw [toList_clause, clauseStart]
  simp only [String.toList_append, List.append_assoc]

theorem clauseLine_eq (count : Nat) : clauseLine data count s index =
    clauseStart data index ++ (s.title.flatMap escapeChar ++ '"' :: clauseEnd count index) := by
  rw [clauseLine, toList_clause_start, List.append_assoc, List.append_assoc]
  rfl

theorem lineTitle?_clauseLine (count : Nat) :
    lineTitle? data index (clauseLine data count s index) =
      some (s.title, clauseEnd count index) := by
  unfold lineTitle?
  rw [clauseLine_eq, dropPrefix?_append]
  simp only [Option.bind_eq_bind, Option.bind_some, readQuoted?_escape]

/-- Escaping neither makes a line end nor takes one away. -/
theorem isLine_escape (text : String) : isLine (escape text) = isLine text := by
  have hchar : ∀ c, (escapeChar c).all (· ≠ '\n') = decide (c ≠ '\n') := by
    intro c
    fun_cases escapeChar c with
    | case1 => rfl
    | case2 => rfl
    | case3 => simp
  unfold isLine escape
  rw [String.toList_ofList, List.all_flatMap]
  simp only [hchar]

/-- A clause keeps to a line if the name of the file and the text do. -/
theorem isLine_clause (hdata : isLine data = true) (htext : isLine s.text = true) (index : Nat) :
    isLine (clause data index s) = true := by
  have hfile : isLine ("  '" ++ data ++ "' index ") = true :=
    isLine_append (isLine_append (by decide) hdata) (by decide)
  have hindex : isLine (index.repr ++ " with lines lw 2 title \"") = true :=
    isLine_append (isLine_repr index) (by decide)
  have htitle : isLine (s.number.repr ++ ": y = " ++ escape s.text) = true :=
    isLine_append (isLine_append (isLine_repr _) (by decide)) (by rwa [isLine_escape])
  have hclause := isLine_append (isLine_append hfile hindex)
    (isLine_append htitle (b := "\" noenhanced") (by decide))
  simpa only [clause, String.append_assoc] using hclause

theorem ne_newline_of_clauseLine (hdata : isLine data = true) (htext : isLine s.text = true)
    (count : Nat) : ∀ c ∈ clauseLine data count s index, c ≠ '\n' := by
  have hclause := isLine_iff.mp (isLine_clause hdata htext index)
  have hmore : isLine ", \\" = true := by decide
  unfold clauseLine
  refine List.forall_mem_append.mpr ⟨hclause, ?_⟩
  split
  · exact List.forall_mem_nil _
  · exact isLine_iff.mp hmore

/-- The clauses are written one after the other, each on a line if its text is one. -/
theorem clauses_lines (data : String) (hne : sets ≠ []) (first : Nat) (rest : List Char) :
    (", \\\n".intercalate ((sets.zipIdx first).map fun (s, index) =>
        clause data index s)).toList ++ '\n' :: rest =
      ((sets.zipIdx first).map fun (s, index) =>
        clauseLine data (first + sets.length) s index).flatMap (· ++ ['\n']) ++ rest := by
  -- The places count up from the first one, and the number of clauses is where they end.
  induction sets generalizing first with
  | nil => exact absurd rfl hne
  | cons s sets ih =>
      cases sets with
      | nil => simp [clauseLine]
      | cons s' sets =>
          have hcount : first + 1 + (s' :: sets).length = first + (s :: s' :: sets).length := by
            simp only [List.length_cons]
            omega
          have hline : clauseLine data (first + (s :: s' :: sets).length) s first =
              (clause data first s).toList ++ ", \\".toList := by
            rw [clauseLine, if_neg (by simp only [List.length_cons]; omega)]
          have hcomma : ", \\\n".toList = ", \\".toList ++ ['\n'] := rfl
          have hothers := ih (List.cons_ne_nil _ _) (first + 1)
          rw [hcount, List.zipIdx_cons, List.map_cons] at hothers
          rw [List.zipIdx_cons, List.zipIdx_cons, List.map_cons, List.map_cons, List.map_cons,
            String.intercalate_cons_cons, String.toList_append, String.toList_append, hcomma,
            List.append_assoc, hothers]
          simp only [List.map_cons, List.flatMap_cons, List.append_assoc, hline]

variable {names : FileNames}

/-- The lines of a script behind the one that starts to plot. -/
theorem plotLines?_scriptText (v : Viewport Float) (sets : List DataSet)
    (hdata : isLine names.data = true) (hpicture : isLine names.picture = true) :
    plotLines? (scriptText names v sets) =
      some (Text.pieces
        (Text.unlines [clauses names.data sets, "set term pop", "replot"]).toList) := by
  unfold plotLines?
  rw [plotStatement?_scriptText v sets hdata hpicture, Option.map_some]

/-- Each clause has a line if no text has a line end. -/
theorem pieces_clauses (hdata : isLine data = true) (hne : sets ≠ [])
    (htexts : ∀ s ∈ sets, isLine s.text = true) :
    Text.pieces (Text.unlines [clauses data sets, "set term pop", "replot"]).toList =
      (sets.zipIdx.map fun (s, index) => clauseLine data sets.length s index) ++
        ["set term pop".toList, "replot".toList, []] := by
  have hunlines : (Text.unlines [clauses data sets, "set term pop", "replot"]).toList =
      (clauses data sets).toList ++
        '\n' :: (["set term pop".toList, "replot".toList].flatMap (· ++ ['\n']) ++ []) := by
    simp [Text.unlines]
  have hlines := clauses_lines data hne 0
    (["set term pop".toList, "replot".toList].flatMap (· ++ ['\n']) ++ [])
  have hpop : isLine "set term pop" = true := by decide
  have hreplot : isLine "replot" = true := by decide
  rw [Nat.zero_add] at hlines
  rw [hunlines, clauses, hlines, Text.pieces_flatMap, Text.pieces_flatMap]
  · rfl
  · exact List.forall_mem_cons.mpr ⟨isLine_iff.mp hpop, List.forall_mem_singleton.mpr
      (isLine_iff.mp hreplot)⟩
  · intro line hline
    obtain ⟨⟨s, index⟩, hs, rfl⟩ := List.mem_map.mp hline
    exact ne_newline_of_clauseLine hdata (htexts s (List.fst_mem_of_mem_zipIdx hs)) _

/-! ### Titles that are read back -/

/-- What is read between quotation marks has been there. -/
theorem mem_of_readQuoted? {cs text rest : List Char} (h : readQuoted? cs = some (text, rest)) :
    ∀ c ∈ text, c ∈ cs := by
  induction cs using readQuoted?.induct generalizing text with
  | case1 => cases h
  | case2 cs =>
      cases h
      exact List.forall_mem_nil _
  | case3 c cs hescaped ih =>
      rw [readQuoted?, if_pos hescaped, Option.map_eq_some_iff] at h
      obtain ⟨⟨text, rest⟩, hread, ⟨⟩⟩ := h
      refine List.forall_mem_cons.mpr ⟨by simp, fun d hd => ?_⟩
      exact List.mem_cons_of_mem _ (List.mem_cons_of_mem _ (ih hread d hd))
  | case4 c cs hescaped =>
      rw [readQuoted?, if_neg hescaped] at h
      cases h
  | case5 c cs hquote hslash ih =>
      rw [readQuoted?.eq_4 c cs hquote hslash, Option.map_eq_some_iff] at h
      obtain ⟨⟨text, rest⟩, hread, ⟨⟩⟩ := h
      refine List.forall_mem_cons.mpr ⟨by simp, fun d hd => ?_⟩
      exact List.mem_cons_of_mem _ (ih hread d hd)

theorem mem_of_lineTitle? {line title rest : List Char}
    (h : lineTitle? data index line = some (title, rest)) : ∀ c ∈ title, c ∈ line := by
  obtain ⟨quoted, hquoted, hread⟩ := Option.bind_eq_some_iff.mp h
  obtain ⟨start, hstart, -⟩ := List.dropPrefix?_eq_some_iff.mp hquoted
  intro c hc
  rw [hstart]
  exact List.mem_append_right _ (mem_of_readQuoted? hread c hc)

/-- The titles on the lines of a script are those of the curves if and only if the text of each
is a line. -/
theorem titlesQuoted_iff (v : Viewport Float) (hne : sets ≠ [])
    (hdata : isLine names.data = true) (hpicture : isLine names.picture = true) :
    ∃ lines, plotLines? (scriptText names v sets) = some lines ∧
      (TitlesQuoted names.data sets lines ↔ ∀ s ∈ sets, isLine s.text = true) := by
  refine ⟨_, plotLines?_scriptText v sets hdata hpicture, fun hquoted s hs => ?_, fun htexts => ?_⟩
  · -- A line end in the text would be in the title, and so on the line where the title is read.
    obtain ⟨index, hindex⟩ := List.mem_iff_getElem?.mp hs
    obtain ⟨line, hline, htitle⟩ := hquoted.title index s hindex
    refine isLine_iff.mpr fun c hc => ?_
    refine Text.ne_newline_of_pieces (List.mem_of_getElem? hline) c ?_
    refine mem_of_lineTitle? htitle c ?_
    exact List.mem_append_right _ (List.mem_append_right _ hc)
  · rw [pieces_clauses hdata hne htexts]
    refine ⟨fun index c hc => ⟨clauseLine names.data sets.length c index, ?_,
      lineTitle?_clauseLine _⟩, ?_⟩
    · have hlt : index < sets.length := (List.getElem?_eq_some_iff.mp hc).1
      rw [List.getElem?_append_left (by simpa using hlt), List.getElem?_map, List.getElem?_zipIdx,
        hc]
      simp
    · rw [List.drop_append_of_le_length (by simp), List.drop_of_length_le (by simp),
      List.nil_append]

end Plot

end FormulaPlot
