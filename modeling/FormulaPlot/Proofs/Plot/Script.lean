/-
The script, read back.

The plotting program passes over the statements of a script until one plots, and reads that one
clause by clause.  A clause names a file and the place of a data set in it, and has a title
between quotation marks.  In the title a backslash stands before every backslash and quotation
mark that is part of it.

Titles are what makes this more than a split at commas: a formula may contain anything, also
what looks like the next clause.  The title ends where it should because every character that
could end it, or could keep its end from being seen, is escaped.
-/
import FormulaPlot.Plot.Script
import FormulaPlot.Proofs.Plot.Data

namespace FormulaPlot.Plot

/-! ### Reading a script -/

/-- What a clause says: the file and the data set in it, and the number and the text of a formula
in the title. -/
structure Clause where
  data : String
  index : Nat
  number : Nat
  text : String
deriving DecidableEq, Repr

/-- A text up to the quotation mark that ends it, and what is behind the mark. -/
def readQuoted? : List Char → Option (List Char × List Char)
  | [] => none
  | '"' :: cs => some ([], cs)
  | '\\' :: c :: cs =>
    if c = '\\' ∨ c = '"' then (readQuoted? cs).map fun (text, rest) => (c :: text, rest)
    else none
  | c :: cs => (readQuoted? cs).map fun (text, rest) => (c :: text, rest)

/-- A clause, and what is behind it. -/
def readClause? (cs : List Char) : Option (Clause × List Char) := do
  let cs ← cs.dropPrefix? "  '".toList
  let data := cs.takeWhile (· ≠ '\x27')
  let cs ← (cs.drop data.length).dropPrefix? "' index ".toList
  let index := cs.takeWhile Char.isDigit
  let cs ← (cs.drop index.length).dropPrefix? " with lines lw 2 title \"".toList
  let (title, cs) ← readQuoted? cs
  let number := title.takeWhile Char.isDigit
  let text ← (title.drop number.length).dropPrefix? ": y = ".toList
  let cs ← cs.dropPrefix? " noenhanced".toList
  let clause := {
    data := String.ofList data
    index := Decimal.digitsValue index
    number := Decimal.digitsValue number
    text := String.ofList text }
  return (clause, cs)

/-- The clauses of a statement, and what is behind it.  A clause goes on with the next one after a
comma and a continued line. -/
def readClauses? (cs : List Char) : Option (List Clause × List Char) := do
  let (clause, rest) ← readClause? cs
  match rest.dropPrefix? ", \\\n".toList with
  | none => return ([clause], rest)
  | some next =>
    if next.length < cs.length then
      let (others, rest) ← readClauses? next
      return (clause :: others, rest)
    else none
termination_by cs.length

/-- What is behind the first line that starts to plot.  The text begins a line, or it does not. -/
def plotStatement? : (atStart : Bool) → List Char → Option (List Char)
  | _, [] => none
  | atStart, c :: cs =>
    match if atStart then (c :: cs).dropPrefix? "plot \\\n".toList else none with
    | some rest => some rest
    | none => plotStatement? (c = '\n') cs

/-- The clauses of a script's plot statement. -/
def readScript? (script : String) : Option (List Clause) := do
  let statement ← plotStatement? true script.toList
  let (clauses, rest) ← readClauses? statement
  if rest.head? = some '\n' then some clauses else none

/-! ### A clause -/

theorem dropPrefix?_append (start rest : List Char) :
    (start ++ rest).dropPrefix? start = some rest :=
  List.dropPrefix?_eq_some_iff.mpr ⟨start, rfl, BEq.rfl⟩

theorem escapeChar_eq {c : Char} (hslash : c ≠ '\\') (hquote : c ≠ '"') : escapeChar c = [c] := by
  fun_cases escapeChar c with
  | case1 => exact absurd rfl hslash
  | case2 => exact absurd rfl hquote
  | case3 => rfl

/-- Only a backslash and a quotation mark are escaped. -/
theorem flatMap_escapeChar {cs : List Char} (h : ∀ c ∈ cs, c ≠ '\\' ∧ c ≠ '"') :
    cs.flatMap escapeChar = cs := by
  induction cs with
  | nil => rfl
  | cons c cs ih =>
      obtain ⟨hc, hcs⟩ := List.forall_mem_cons.mp h
      rw [List.flatMap_cons, escapeChar_eq hc.1 hc.2, ih hcs, List.singleton_append]

/-- An escaped text ends at the mark behind it. -/
theorem readQuoted?_escape (cs rest : List Char) :
    readQuoted? (cs.flatMap escapeChar ++ '"' :: rest) = some (cs, rest) := by
  induction cs with
  | nil => rfl
  | cons c cs ih =>
      rw [List.flatMap_cons, List.append_assoc]
      by_cases hslash : c = '\\'
      · subst hslash
        simp [escapeChar, readQuoted?, ih]
      by_cases hquote : c = '"'
      · subst hquote
        simp [escapeChar, readQuoted?, ih]
      · simp [escapeChar_eq hslash hquote, readQuoted?, hslash, ih]

/-- A number ends where there is no digit. -/
theorem takeWhile_repr (n : Nat) {c : Char} (hc : c.isDigit = false) (rest : List Char) :
    (n.repr.toList ++ c :: rest).takeWhile Char.isDigit = n.repr.toList := by
  rw [Nat.toList_repr]
  refine (Decimal.digits_append (Decimal.isDigit_toDigits n) ?_).1
  rintro _ ⟨⟩
  exact hc

theorem digitsValue_repr (n : Nat) : Decimal.digitsValue n.repr.toList = n := by
  rw [Nat.toList_repr, Decimal.digitsValue_toDigits]

variable {data : String} {s : DataSet} {sets : List DataSet}

/-- What the clause of a data set says. -/
def DataSet.clause (data : String) (s : DataSet) (index : Nat) : Clause :=
  ⟨data, index, s.number, s.text⟩

/-- The title of a data set, before anything is escaped. -/
def DataSet.title (s : DataSet) : List Char :=
  s.number.repr.toList ++ (": y = ".toList ++ s.text.toList)

theorem DataSet.escape_title (s : DataSet) : s.title.flatMap escapeChar =
    s.number.repr.toList ++ (": y = ".toList ++ (escape s.text).toList) := by
  have hnumber : s.number.repr.toList.flatMap escapeChar = s.number.repr.toList := by
    refine flatMap_escapeChar fun c hc => ?_
    rw [Nat.toList_repr] at hc
    have hdigit := Decimal.isDigit_toDigits _ c hc
    exact ⟨Token.ne_of_class hdigit (by decide), Token.ne_of_class hdigit (by decide)⟩
  have hequals : ": y = ".toList.flatMap escapeChar = ": y = ".toList := by decide
  have hescape : (escape s.text).toList = s.text.toList.flatMap escapeChar := String.toList_ofList
  rw [DataSet.title, List.flatMap_append, List.flatMap_append, hnumber, hequals, hescape]

theorem toList_clause (index : Nat) : (clause data index s).toList =
    "  '".toList ++ (data.toList ++ ("' index ".toList ++ (index.repr.toList ++
      (" with lines lw 2 title \"".toList ++ (s.title.flatMap escapeChar ++
        '"' :: " noenhanced".toList))))) := by
  rw [DataSet.escape_title]
  simp only [clause, String.toList_append, List.append_assoc]
  rfl

theorem readClause?_clause (hdata : ∀ c ∈ data.toList, c ≠ '\x27') (index : Nat)
    (rest : List Char) : readClause? ((clause data index s).toList ++ rest) =
      some (s.clause data index, rest) := by
  have hfile : ∀ cs, (data.toList ++ ("' index ".toList ++ cs)).takeWhile (· ≠ '\x27') =
      data.toList := by
    intro cs
    rw [List.takeWhile_append_of_pos fun c hc => decide_eq_true (hdata c hc)]
    exact List.append_nil _
  have hindex : ∀ cs, (index.repr.toList ++ (" with lines lw 2 title \"".toList ++ cs)).takeWhile
      Char.isDigit = index.repr.toList := by
    intro cs
    exact takeWhile_repr index (by decide) _
  have hnumber : s.title.takeWhile Char.isDigit = s.number.repr.toList :=
    takeWhile_repr s.number (by decide) _
  have htext : (s.title.drop s.number.repr.toList.length).dropPrefix? ": y = ".toList =
      some s.text.toList := by
    rw [DataSet.title, List.drop_left, dropPrefix?_append]
  unfold readClause?
  simp only [toList_clause, List.append_assoc, List.cons_append, dropPrefix?_append,
    Option.bind_eq_bind, Option.bind_some, hfile, hindex, List.drop_left, readQuoted?_escape,
    hnumber, htext, digitsValue_repr, String.ofList_toList]
  rfl

/-! ### All clauses -/

theorem readClauses?_last {clause : Clause} {cs rest : List Char}
    (h : readClause? cs = some (clause, rest)) (hrest : rest.dropPrefix? ", \\\n".toList = none) :
    readClauses? cs = some ([clause], rest) := by
  rw [readClauses?, h]
  simp only [Option.bind_eq_bind, Option.bind_some, hrest]
  rfl

theorem readClauses?_next {clause : Clause} {cs next rest : List Char} {others : List Clause}
    (h : readClause? cs = some (clause, ", \\\n".toList ++ next))
    (hlength : next.length < cs.length) (hnext : readClauses? next = some (others, rest)) :
    readClauses? cs = some (clause :: others, rest) := by
  rw [readClauses?, h]
  simp only [Option.bind_eq_bind, Option.bind_some, dropPrefix?_append, if_pos hlength, hnext]
  rfl

/-- The clauses are read one after the other, up to the end of the last line. -/
theorem readClauses?_intercalate (hdata : ∀ c ∈ data.toList, c ≠ '\x27') (hne : sets ≠ [])
    (first : Nat) (rest : List Char) :
    readClauses? ((", \\\n".intercalate ((sets.zipIdx first).map fun (s, index) =>
        clause data index s)).toList ++ '\n' :: rest) =
      some ((sets.zipIdx first).map fun (s, index) => s.clause data index, '\n' :: rest) := by
  -- The places count up from the first one, so the first one is arbitrary.
  induction sets generalizing first with
  | nil => exact absurd rfl hne
  | cons s sets ih =>
      cases sets with
      | nil =>
          have hclause := readClause?_clause (s := s) hdata first ('\n' :: rest)
          simpa using readClauses?_last hclause rfl
      | cons s' sets =>
          have hothers := ih (List.cons_ne_nil _ _) (first + 1)
          rw [List.zipIdx_cons, List.map_cons] at hothers
          rw [List.zipIdx_cons, List.zipIdx_cons, List.map_cons, List.map_cons, List.map_cons,
            String.intercalate_cons_cons, String.toList_append, String.toList_append,
            List.append_assoc, List.append_assoc]
          refine readClauses?_next (readClause?_clause hdata first _) ?_ hothers
          have hcomma : ", \\\n".toList.length = 4 := rfl
          simp only [List.length_append, hcomma]
          omega

/-! ### The statements before -/

/-- A text without a line end. -/
def isLine (text : String) : Bool := text.toList.all (· ≠ '\n')

theorem isLine_append {a b : String} (ha : isLine a = true) (hb : isLine b = true) :
    isLine (a ++ b) = true := by
  unfold isLine at *
  rw [String.toList_append, List.all_append, ha, hb]
  rfl

theorem isLine_plain (x : Float) : isLine (Decimal.plain x) = true := by
  refine List.all_eq_true.mpr fun c hc => decide_eq_true ?_
  exact Token.ne_of_class (Decimal.isInk_plain x c hc) (by decide)

theorem isLine_repr (n : Nat) : isLine n.repr = true := by
  refine List.all_eq_true.mpr fun c hc => decide_eq_true ?_
  rw [Nat.toList_repr] at hc
  exact Token.ne_of_class (Decimal.isDigit_toDigits n c hc) (by decide)

theorem isLine_whole (x : Float) : isLine (Decimal.whole x) = true := by
  fun_cases Decimal.whole x with
  | case1 => rfl
  | case2 => rfl
  | case3 => exact isLine_repr _
  | case4 => exact isLine_repr _

theorem isLine_intercalate {sep : String} {texts : List String} (hsep : isLine sep = true)
    (h : ∀ text ∈ texts, isLine text = true) : isLine (sep.intercalate texts) = true := by
  refine List.all_eq_true.mpr fun c hc => ?_
  rw [String.toList_intercalate] at hc
  rcases mem_intercalate hc with hc | ⟨chars, hchars, hc⟩
  · exact List.all_eq_true.mp hsep c hc
  · obtain ⟨text, htext, rfl⟩ := List.mem_map.mp hchars
    exact List.all_eq_true.mp (h text htext) c hc

/-- A line that does not start to plot. -/
def passes (line : String) : Bool := isLine line && line.toList.head?.any (· ≠ 'p')

theorem passes_append {a b : String} (ha : passes a = true) (hb : isLine b = true) :
    passes (a ++ b) = true := by
  obtain ⟨hline, hhead⟩ := Bool.and_eq_true_iff.mp ha
  refine Bool.and_eq_true_iff.mpr ⟨isLine_append hline hb, ?_⟩
  obtain ⟨c, hc, hne⟩ := (Option.any_eq_true _ _).mp hhead
  obtain ⟨rest, hrest⟩ := List.head?_eq_some_iff.mp hc
  rw [String.toList_append, hrest]
  exact hne

theorem passes_rangeLine {axis : String} (haxis : isLine axis = true) (range : Float × Float) :
    passes (rangeLine axis range) = true := by
  have hstart : passes ("set " ++ axis) = true := passes_append (by decide) haxis
  have hlow := passes_append (passes_append hstart (b := "range[") (by decide))
    (isLine_plain range.1)
  have hhigh := passes_append (passes_append hlow (b := ":") (by decide)) (isLine_plain range.2)
  exact passes_append hhigh (by decide)

theorem passes_ticsLine {axis : String} (haxis : isLine axis = true) (tics : List Float) :
    passes (ticsLine axis tics) = true := by
  unfold ticsLine
  split
  · exact passes_append (passes_append (by decide) haxis) (by decide)
  · have hstart : passes ("set " ++ axis) = true := passes_append (by decide) haxis
    have hlabels : isLine (", ".intercalate (tics.map Decimal.plain)) = true := by
      refine isLine_intercalate (by decide) fun text htext => ?_
      obtain ⟨x, -, rfl⟩ := List.mem_map.mp htext
      exact isLine_plain x
    exact passes_append (passes_append (passes_append hstart (by decide)) hlabels) (by decide)

theorem plotStatement?_rest {line : List Char} (h : line.all (· ≠ '\n') = true) (cs : List Char) :
    plotStatement? false (line ++ '\n' :: cs) = plotStatement? true cs := by
  induction line with
  | nil => simp [plotStatement?]
  | cons c line ih =>
      rw [List.all_cons, Bool.and_eq_true, decide_eq_true_iff] at h
      rw [List.cons_append, plotStatement?]
      simp only [Bool.false_eq_true, if_false, decide_eq_false h.1]
      exact ih h.2

/-- A line that does not start to plot is passed over. -/
theorem plotStatement?_line {line : String} (h : passes line = true) (cs : List Char) :
    plotStatement? true (line.toList ++ '\n' :: cs) = plotStatement? true cs := by
  obtain ⟨hline, hhead⟩ := Bool.and_eq_true_iff.mp h
  obtain ⟨c, hc, hne⟩ := (Option.any_eq_true _ _).mp hhead
  obtain ⟨rest, hrest⟩ := List.head?_eq_some_iff.mp hc
  rw [isLine, hrest, List.all_cons, Bool.and_eq_true, decide_eq_true_iff] at hline
  -- The first character tells the line from one that plots.
  have hdrop : ∀ cs, (c :: cs).dropPrefix? "plot \\\n".toList = none := by
    intro cs
    have hplot : "plot \\\n".toList = 'p' :: "lot \\\n".toList := rfl
    rw [hplot, List.dropPrefix?, if_neg]
    simpa using hne
  rw [hrest, List.cons_append, plotStatement?]
  simp only [if_true, hdrop, decide_eq_false hline.1]
  exact plotStatement?_rest hline.2 cs

/-- What is behind the line that starts to plot. -/
theorem plotStatement?_plot (rest : List Char) :
    plotStatement? true ("plot \\\n".toList ++ rest) = some rest := by
  have hdrop := dropPrefix?_append "plot \\\n".toList rest
  have hplot : "plot \\\n".toList ++ rest = 'p' :: ("lot \\\n".toList ++ rest) := rfl
  rw [hplot] at hdrop ⊢
  rw [plotStatement?]
  simp only [if_true, hdrop]

theorem plotStatement?_unlines {before after : List String} (h : before.all passes = true) :
    plotStatement? true (Text.unlines (before ++ "plot \\" :: after)).toList =
      some (Text.unlines after).toList := by
  have hcons : ∀ line lines, (Text.unlines (line :: lines)).toList =
      line.toList ++ '\n' :: (Text.unlines lines).toList := by
    intro line lines
    simp [Text.unlines]
  induction before with
  | nil =>
      have hplot : "plot \\".toList ++ '\n' :: (Text.unlines after).toList =
          "plot \\\n".toList ++ (Text.unlines after).toList := rfl
      rw [List.nil_append, hcons, hplot, plotStatement?_plot]
  | cons line before ih =>
      rw [List.all_cons, Bool.and_eq_true] at h
      rw [List.cons_append, hcons, plotStatement?_line h.1, ih h.2]

theorem plotStatement?_scriptText {names : FileNames} (v : Viewport Float) (sets : List DataSet)
    (hdata : isLine names.data = true) (hpicture : isLine names.picture = true) :
    plotStatement? true (scriptText names v sets).toList =
      some (Text.unlines [clauses names.data sets, "set term pop", "replot"]).toList := by
  unfold scriptText
  refine @plotStatement?_unlines [_, _, _, _, _, _, _, _, _, _, _, _, _, _, _, _] [_, _, _] ?_
  refine List.all_eq_true.mpr ?_
  simp only [List.forall_mem_cons]
  refine ⟨?reset, ?push, ?size, ?output, ?xRange, ?yRange, ?ratio, ?xTics, ?yTics, ?zero, ?border,
    ?title, ?plain, ?label, ?outside, ?key, List.forall_mem_nil _⟩
  case size =>
    have hwidth := passes_append (a := "set terminal svg size ") (by decide)
      (isLine_whole (Scalar.larger v.width 1))
    have hheight := passes_append (passes_append hwidth (b := ",") (by decide))
      (isLine_whole (Scalar.larger v.height 1))
    exact passes_append hheight (by decide)
  case output => exact passes_append (passes_append (by decide) hpicture) (by decide)
  case title => exact passes_append (passes_append (by decide) hdata) (by decide)
  case xRange => exact passes_rangeLine (by decide) _
  case yRange => exact passes_rangeLine (by decide) _
  case xTics => exact passes_ticsLine (by decide) _
  case yTics => exact passes_ticsLine (by decide) _
  all_goals decide

/-- A script has statements, so it is not empty. -/
theorem scriptText_ne {names : FileNames} (v : Viewport Float) (sets : List DataSet)
    (hdata : isLine names.data = true) (hpicture : isLine names.picture = true) :
    scriptText names v sets ≠ "" := by
  intro hempty
  have hplot := plotStatement?_scriptText v sets hdata hpicture
  rw [hempty] at hplot
  cases hplot

/-- The script is read as the clauses that are written to it. -/
theorem readScript?_scriptText {names : FileNames} (v : Viewport Float) (hne : sets ≠ [])
    (hdata : isLine names.data = true) (hpicture : isLine names.picture = true)
    (hquote : ∀ c ∈ names.data.toList, c ≠ '\x27') :
    readScript? (scriptText names v sets) =
      some (sets.zipIdx.map fun (s, index) => s.clause names.data index) := by
  have hclauses : (Text.unlines [clauses names.data sets, "set term pop", "replot"]).toList =
      (clauses names.data sets).toList ++
        '\n' :: (Text.unlines ["set term pop", "replot"]).toList := by
    simp [Text.unlines]
  unfold readScript?
  rw [plotStatement?_scriptText v sets hdata hpicture, hclauses, clauses]
  simp only [Option.bind_eq_bind, Option.bind_some, readClauses?_intercalate hquote hne]
  rfl

end FormulaPlot.Plot
