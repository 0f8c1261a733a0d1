/-
Where errors point.

An error of a formula is on its one line.  An error of a block is on a line that is not blank,
and belongs to the name that this line begins with, unless there is none.  On its line, an
error stands at the first character of a token; if the error is about a name, this token is
the name, and if it is about a character, no token begins there.

The body of a definition is a part of its line, and its tokens are tokens of the line, so
that columns are counted from the start of the line.  A body can be read early for the sake of
another line, but its errors are noted with its own line.
-/
import FormulaPlot.Proofs.Parser.Message
import FormulaPlot.Proofs.Parser.Outcome
import FormulaPlot.Proofs.Parser.Places

namespace FormulaPlot

open Token (IsLexeme IsIdent Munched)

/-- The class of the error or its message says that it is about this name. -/
inductive ParseError.Names (e : ParseError) (name : String) : Prop
  | undefined (h : e.cause.kind = .undefinedName name)
  | unknown (h : e.cause.kind = .unknownFunction name)
  | arity {n : Nat} (h : e.message = (Cause.arity name n).message)
  | calleeHasErrors (h : e.message = "Function " ++ name ++ "() has errors.")
  | recursive (h : e.message = "Recursive reference to function: " ++ name ++ ".")

theorem ParseError.Names.subject? {e : ParseError} {name : String} (hlegible : e.cause.Legible)
    (h : e.Names name) : e.cause.subject? = some name := by
  have hkind : ∀ kind, e.cause.kind = kind →
      kind = .undefinedName name ∨ kind = .unknownFunction name →
      e.cause.subject? = some name := by
    rintro kind rfl
    cases e.cause <;> simp [Cause.kind, Cause.subject?]
  cases h with
  | undefined h => exact hkind _ h (.inl rfl)
  | unknown h => exact hkind _ h (.inr rfl)
  | arity h =>
      rw [Cause.eq_of_message_arity hlegible h]
      rfl
  | calleeHasErrors h =>
      rw [Cause.eq_of_message_calleeHasErrors hlegible h]
      rfl
  | recursive h =>
      rw [Cause.eq_of_message_recursive hlegible h]
      rfl

namespace Parser

/-- The error stands at a token of the text, and this token is what the error is about. -/
structure PointsAt (text : String) (e : ParseError) : Prop where
  inside : 1 ≤ e.column ∧ e.column ≤ text.length + 1
  token : ∃ t ∈ Token.tokenize text, t.column = e.column ∧
    t.lexeme.toList <+: text.toList.drop (e.column - 1) ∧
    ∀ name, e.Names name → t.kind = .ident name ∧ t.lexeme = name
  character : e.cause.kind = .lexical .invalidChar →
    ∀ lexeme, IsLexeme lexeme → ¬ lexeme <+: text.toList.drop (e.column - 1)

variable {names : List String} {ts rest : List Token} {t : Token} {text : String}

theorem Fits.named {cause : Cause} {name : String} (h : Fits names cause t rest)
    (hname : cause.subject? = some name) : t.kind = .ident name := by
  cases cause with
  | unknownFunction | calleeHasErrors | recursive =>
      cases hname
      exact Calling.named h
  | undefinedName | arity | nameOfIntrinsic | nameOfConstant | alreadyDefined
  | duplicateParameter =>
      cases hname
      exact h
  | _ => cases hname

/-- A name in an error is a token, so it is spelled like a name. -/
theorem Points.legible {fault : Fault} (h : Points names (Token.tokenize text) fault) :
    fault.cause.Legible := by
  obtain ⟨used, t, rest, htokens, -, hfits⟩ := h
  intro name hname
  have hmem : t ∈ Token.tokenize text := by simp [htokens]
  obtain ⟨_, _, -, -, hmunched⟩ := (Token.lexes_tokenizeFrom [] text.toList).place hmem
  rw [hfits.named hname] at hmunched
  obtain ⟨rfl, hident⟩ := hmunched.ident
  rwa [String.toList_ofList]

/-- What a fault points to among the tokens of a text, it points to in the text. -/
theorem pointsAt_of_points {e : ParseError}
    (h : Points names (Token.tokenize text) ⟨e.cause, e.column⟩) : PointsAt text e := by
  have hlegible : e.cause.Legible := h.legible
  obtain ⟨used, t, rest, htokens, hcolumn, hfits⟩ := h
  dsimp only at hcolumn hfits
  have hmem : t ∈ Token.tokenize text := by simp [htokens]
  obtain ⟨before, after, htext, hplace, hmunched⟩ :=
    (Token.lexes_tokenizeFrom [] text.toList).place hmem
  have hbefore : e.column = before.length + 1 := by
    rw [← hcolumn, hplace]
    rfl
  have hafter : text.toList.drop (e.column - 1) = after := by
    rw [hbefore, htext, Nat.add_sub_cancel, List.drop_left]
  refine ⟨?_, ⟨t, hmem, hcolumn, hafter ▸ hmunched.isPrefix, fun name hname => ?_⟩,
    fun hkind lexeme hlexeme => ?_⟩
  · have hlength : text.length = before.length + after.length := by
      rw [← String.length_toList, htext, List.length_append]
    omega
  · have hident := hfits.named (hname.subject? hlegible)
    rw [hident] at hmunched
    obtain ⟨rfl, -⟩ := hmunched.ident
    exact ⟨hident, String.ofList_toList.symm⟩
  · have hcause : e.cause = .lexical .invalidChar := by
      revert hkind
      cases e.cause <;> simp [Cause.kind]
    rw [hcause] at hfits
    rw [show t.kind = .invalid .invalidChar from hfits] at hmunched
    rw [hafter]
    exact hmunched.none_starts lexeme hlexeme

/-! ### Formulas -/

/-- An error of a formula is on line one, belongs to no function and points to a token. -/
theorem read_pointsAt {functions : Registry} {e : ParseError}
    (h : read text functions names = .error e) :
    e.line = 1 ∧ e.function = "" ∧ PointsAt text e := by
  unfold read at h
  cases hfault : (topLevel names (Token.tokenize text)).against functions with
  | ok e' =>
      rw [hfault] at h
      cases h
  | error fault =>
      rw [hfault] at h
      cases h
      exact ⟨rfl, rfl,
        pointsAt_of_points ((points_topLevel names (left_tokenize text)).fault hfault)⟩

/-! ### Blocks -/

variable {block : String} {functions : Registry} {definitions : List Definition}
  {finish : Expr → Expr} {before told : List ParseError} {p : Progress}

/-- The errors in headers are on lines of the block. -/
theorem headers_refused (functions : Registry) (lines : List (String × Nat))
    (before : List Definition) :
    ∀ e ∈ (headers functions before lines).2, ∃ text taken, (text, e.line) ∈ lines ∧
      header taken e.line (Token.tokenize text) = .error e := by
  induction lines generalizing before with
  | nil => exact fun e he => absurd he List.not_mem_nil
  | cons entry lines ih =>
      obtain ⟨text, line⟩ := entry
      have hlater : ∀ before, ∀ e ∈ (headers functions before lines).2, ∃ text' taken,
          (text', e.line) ∈ (text, line) :: lines ∧
            header taken e.line (Token.tokenize text') = .error e := by
        intro before e he
        obtain ⟨text', taken, hmem, hheader⟩ := ih before e he
        exact ⟨text', taken, List.mem_cons_of_mem _ hmem, hheader⟩
      rw [headers]
      by_cases hblank : Text.isAllBlank text = true
      · rw [if_pos hblank]
        exact hlater before
      · rw [if_neg hblank]
        dsimp only
        cases hheader : header (fun name => functions.contains name ||
            before.any (·.name == name)) line (Token.tokenize text) with
        | ok d => exact hlater (before ++ [d])
        | error e =>
            refine List.forall_mem_cons.mpr ⟨?_, hlater before⟩
            obtain ⟨rfl, -⟩ := header_eq_error hheader
            exact ⟨text, _, List.mem_cons_self, hheader⟩

/-- Headers and bodies: what is known of any block that has been read. -/
theorem parseBlock_ended (block : String) (functions : Registry) :
    ∃ told p, Ended (headers functions [] (numbered block)).1 Expr.simplify functions
        (headers functions [] (numbered block)).2 told p ∧
      (parseBlock block functions).2.Perm
        (told ++ (headers functions [] (numbered block)).2) := by
  obtain ⟨hnames, -⟩ := headers_spec functions (numbered block) [] ⟨List.nodup_nil, by simp⟩
  obtain ⟨told, hended⟩ := defineAll_ended Expr.simplify hnames
    (headers functions [] (numbered block)).2
  refine ⟨told, _, hended, ?_⟩
  rw [← hended.recorded.errors]
  exact List.mergeSort_perm _ _

/-- A definition of a block stands on one of its lines. -/
theorem exists_line {d : Definition} (hd : d ∈ (headers functions [] (numbered block)).1) :
    ∃ text taken, (text, d.line) ∈ numbered block ∧
      header taken d.line (Token.tokenize text) = .ok d := by
  obtain ⟨-, hlines⟩ := headers_spec functions (numbered block) [] ⟨List.nodup_nil, by simp⟩
  rcases hlines d hd with hmem | hline
  · cases hmem
  · exact hline

/-- What is said instead of a fault is said of the same token. -/
theorem Points.stated {own fault : Fault} (h : Points names ts own)
    (hcolumn : own.column = fault.column) (hstated : Stated definitions own.cause fault.cause) :
    Points names ts fault := by
  obtain ⟨used, t, rest, hts, hcolumn', hfits⟩ := h
  refine ⟨used, t, rest, hts, hcolumn'.trans hcolumn, ?_⟩
  generalize own.cause = cause, fault.cause = cause' at hfits hstated
  cases hstated <;> exact hfits

/-- An error in a body points to one of its tokens. -/
theorem Ended.points
    (h : Ended (headers functions [] (numbered block)).1 finish functions before told p)
    {e : ParseError} (he : e ∈ told) :
    ∃ d ∈ (headers functions [] (numbered block)).1, e.function = d.name ∧ e.line = d.line ∧
      Points d.params d.body ⟨e.cause, e.column⟩ := by
  obtain ⟨d, hd, hfunction, hline, hexplained⟩ := h.recorded.explained e he
  obtain ⟨own, hown, hcolumn, hstated⟩ := hexplained _ h.allows
  obtain ⟨text, taken, -, hheader⟩ := exists_line hd
  have hleft : Left d.body d.body :=
    ((left_tokenize text).behind (header_eq_ok hheader).2.2).self
  exact ⟨d, hd, hfunction, hline,
    ((points_topLevel d.params hleft).fault hown).stated hcolumn hstated⟩

/-- Every error of a block is on a line of it, belongs to the name that the line begins with or to
no function, and points to a token of the line. -/
theorem parseBlock_points {e : ParseError} (he : e ∈ (parseBlock block functions).2) :
    ∃ text names, (text, e.line) ∈ numbered block ∧
      (e.function = "" ∨ leadingName? text = some e.function) ∧
      Points names (Token.tokenize text) ⟨e.cause, e.column⟩ := by
  obtain ⟨told, p, hended, hperm⟩ := parseBlock_ended block functions
  rcases List.mem_append.mp (hperm.mem_iff.mp he) with hbody | hheader
  · obtain ⟨d, hd, hfunction, hline, hpoints⟩ := hended.points hbody
    obtain ⟨text, taken, hmem, hheader⟩ := exists_line hd
    refine ⟨text, d.params, hline ▸ hmem, .inr ?_,
      hpoints.behind (header_eq_ok hheader).2.2⟩
    rw [hfunction]
    exact ident?_of_header hheader
  · obtain ⟨text, taken, hmem, hheader⟩ := headers_refused functions (numbered block) [] e hheader
    obtain ⟨-, hfunction, -⟩ := header_eq_error hheader
    refine ⟨text, [], hmem, ?_, points_header (left_tokenize text) hheader⟩
    rw [hfunction, leadingName?]
    cases ident? (Token.tokenize text) with
    | none => exact .inl rfl
    | some found => exact .inr rfl

/-- The errors of a block are on lines that are not blank. -/
theorem isAllBlank_of_error {e : ParseError} {line : String}
    (he : e ∈ (parseBlock block functions).2) (hline : (line, e.line) ∈ numbered block) :
    Text.isAllBlank line = false := by
  obtain ⟨⟨added, houtcomes⟩, -⟩ := parseBlock_outcomes block functions
  have hfilled : e.line ∈ filled (numbered block) :=
    houtcomes.once.mem_iff.mp (List.mem_append_right _ (List.mem_map_of_mem he))
  obtain ⟨⟨text, number⟩, hmem, hnumber⟩ := List.mem_map.mp hfilled
  obtain rfl : number = e.line := hnumber
  obtain ⟨hentry, hblank⟩ := List.mem_filter.mp hmem
  obtain rfl := numbered_unique hline hentry
  simpa using hblank

/-- **Errors stand where the thing is that they are about.**  An error of a formula is on line
one, an error of a block on the line of the definition that it belongs to, and each of them is
at the first character of a token.  This is the name that the error tells, or a character that
no token begins with, if that is what the error says. -/
theorem errors_point :
    (∀ text functions names e, parse text functions names = .error e →
      e.line = 1 ∧ e.function = "" ∧ PointsAt text e) ∧
    ∀ block functions, ∀ e ∈ (parseBlock block functions).2,
      ∃ line, (line, e.line) ∈ numbered block ∧ Text.isAllBlank line = false ∧
        (e.function = "" ∨ leadingName? line = some e.function) ∧ PointsAt line e := by
  refine ⟨fun text functions names e h => ?_, fun block functions e he => ?_⟩
  · unfold parse at h
    cases hread : read text functions names with
    | ok e' =>
        rw [hread] at h
        cases h
    | error e' =>
        rw [hread] at h
        cases h
        exact read_pointsAt hread
  · obtain ⟨line, names, hline, hfunction, hpoints⟩ := parseBlock_points he
    exact ⟨line, hline, isAllBlank_of_error he hline, hfunction, pointsAt_of_points hpoints⟩

/-- Columns count characters and lines count blank ones.  The call with too many arguments is
found wrong behind them, but the error is at its name. -/
theorem errors_point_arity :
    let block := "f(x) = x\n\ng(a, b) = a*f(a, b)"
    parse "2*é" .empty ["x"] = .error ⟨.lexical .invalidChar, "", 1, 3⟩ ∧
      PointsAt "2*é" ⟨.lexical .invalidChar, "", 1, 3⟩ ∧
      (parseBlock block .empty).2 = [⟨.arity "f" 1, "g", 3, 13⟩] ∧
      PointsAt "g(a, b) = a*f(a, b)" ⟨.arity "f" 1, "g", 3, 13⟩ := by
  intro block
  have hread : read "2*é" .empty ["x"] = .error ⟨.lexical .invalidChar, "", 1, 3⟩ :=
    error?_eq_some.mp (by decide +kernel)
  have hparse : parse "2*é" .empty ["x"] = .error ⟨.lexical .invalidChar, "", 1, 3⟩ := by
    rw [parse, hread]
    rfl
  have herrors : (defineAll Expr.simplify (headers .empty [] (numbered block)).1
      ⟨.empty, [], [], (headers .empty [] (numbered block)).2⟩).errors =
        [⟨.arity "f" 1, "g", 3, 13⟩] := by decide +kernel
  have hblock : (parseBlock block .empty).2 = [⟨.arity "f" 1, "g", 3, 13⟩] :=
    (congrArg (List.mergeSort · _) herrors).trans (List.mergeSort_singleton _)
  have hline : ("g(a, b) = a*f(a, b)", 3) ∈ numbered block := by decide +kernel
  obtain ⟨line, hmem, -, -, hpoints⟩ :=
    errors_point.2 block .empty ⟨.arity "f" 1, "g", 3, 13⟩ (hblock ▸ List.mem_cons_self)
  obtain rfl := numbered_unique hline hmem
  exact ⟨hparse, (errors_point.1 _ _ _ _ hparse).2.2, hblock, hpoints⟩

end Parser

end FormulaPlot
