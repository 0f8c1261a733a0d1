/-
What is suggested instead of a name.

A note names what was looked for: the variable of a plotted formula or a constant where a name
is undefined, a function where one is unknown.  It is not told in which scope the name was looked
up.  In a formula this makes little difference, since its variable is the one that is suggested.
A definition has parameters of its own, so the suggested variable may not be there, and any of
them may hide a constant or a function of its name.

So a suggestion holds just when nothing in its own scope stands in its way, and that is all that
there is to see to: whatever is suggested is a candidate, by whichever measure names are compared,
and each candidate is something of its kind where no variable hides it.  That there is a scope
takes one more fact, that names are only looked up in bodies.
-/
import FormulaPlot.Proofs.Parser.Position
import FormulaPlot.Proofs.Text.Similarity
import FormulaPlot.Report

namespace FormulaPlot

/-- A name was looked up and not found. -/
def Cause.isLookup : Cause → Bool
  | undefinedName _ | unknownFunction _ => true
  | _ => false

/-- What a name can be said to be. -/
inductive Role where
  | variable
  | constant
  | function
deriving DecidableEq

/-- The word for it. -/
def Role.word : Role → String
  | .variable => "variable"
  | .constant => "constant"
  | .function => "function"

namespace Report

variable {measure : String → String → Float} {shown : String} {e : ParseError}
  {known : Registry} {role role' : Role} {name name' : String}

/-! ### Suggestions -/

/-- The text of a suggestion. -/
def suggestion (role : Role) (name : String) : String :=
  role.word ++ " '" ++ name ++ "' has a similar name"

/-- What is shown of an error whether or not there is a note. -/
def heading (shown : String) (e : ParseError) : String :=
  let place := if e.function.isEmpty then "" else " in " ++ e.function ++ "()"
  underline shown e.column 1 ++ line ("parse error" ++ place ++ ": " ++ e.message)

/-- The explanation of the error says that a name of some kind is similar. -/
def Suggests (measure : String → String → Float) (shown : String) (e : ParseError)
    (known : Registry) (role : Role) (name : String) : Prop :=
  explainBy measure shown e known = heading shown e ++ line ("note: " ++ suggestion role name)

theorem suggestion_inj (h : suggestion role name = suggestion role' name') :
    role = role' ∧ name = name' := by
  -- The words begin with different letters, so the kind is told by the first of them.
  have hrole : role = role' := by
    have hletters := congrArg String.toList h
    cases role <;> cases role' <;> first | rfl | simp [suggestion, Role.word] at hletters
  subst hrole
  refine ⟨rfl, ?_⟩
  simpa [suggestion] using h

/-- An explanation is what is always shown, and behind it the note. -/
theorem explainBy_eq (measure : String → String → Float) (shown : String) (e : ParseError)
    (known : Registry) :
    explainBy measure shown e known = heading shown e ++
      ((noteBy? measure shown e known).map fun n => line ("note: " ++ n)).getD "" := by
  unfold explainBy heading
  cases noteBy? measure shown e known <;> rfl

/-- A suggestion is a note, and only its own text is a suggestion. -/
theorem suggests_iff :
    Suggests measure shown e known role name ↔
      noteBy? measure shown e known = some (suggestion role name) := by
  rw [Suggests, explainBy_eq, String.append_right_inj]
  cases noteBy? measure shown e known with
  | none => simp [line]
  | some n => simp [line]

/-- An undefined name may have been meant for a variable or a constant. -/
theorem noteBy?_undefinedName {looked : String} (hcause : e.cause = .undefinedName looked) :
    noteBy? measure shown e known =
      (Text.mostSimilarBy measure looked (plotVariables ++ Constant.all.map (·.1))).map
        fun similar =>
          suggestion (if similar ∈ plotVariables then .variable else .constant) similar := by
  simp only [noteBy?, hcause]
  refine congrArg (Option.map · _) (funext fun similar => ?_)
  split <;> rfl

/-- An unknown function may have been meant for another one. -/
theorem noteBy?_unknownFunction {looked : String} (hcause : e.cause = .unknownFunction looked) :
    noteBy? measure shown e known =
      (Text.mostSimilarBy measure looked (Intrinsic.all.map (·.name) ++ known.names)).map
        (suggestion .function) := by
  simp only [noteBy?, hcause]
  rfl

/-! ### Candidates -/

/-- The name is a candidate for a suggestion of the kind. -/
def Candidate (known : Registry) (name : String) : Role → Prop
  | .variable => name ∈ plotVariables
  | .constant => (Constant.value? name).isSome
  | .function => (Intrinsic.ofName? name).isSome ∨ (known.get? name).isSome

theorem isSome_constant (h : name ∈ Constant.all.map (·.1)) : (Constant.value? name).isSome := by
  obtain ⟨⟨name, value⟩, hmem, rfl⟩ := List.mem_map.mp h
  rw [Constant.value?, List.lookup_isSome_iff]
  exact ⟨⟨name, value⟩, hmem, beq_self_eq_true name⟩

theorem isSome_intrinsic (h : name ∈ Intrinsic.all.map (·.name)) :
    (Intrinsic.ofName? name).isSome := by
  obtain ⟨f, hf, rfl⟩ := List.mem_map.mp h
  exact List.find?_isSome.mpr ⟨f, hf, beq_self_eq_true f.name⟩

theorem isSome_get? (h : name ∈ known.names) : (known.get? name).isSome := by
  rw [Option.isSome_iff_ne_none, Ne, Registry.get?_eq_none, not_not]
  exact h

/-- What is suggested is a candidate, and a name was looked up in vain. -/
theorem candidate_of_suggests (h : Suggests measure shown e known role name) :
    e.cause.isLookup = true ∧ Candidate known name role := by
  -- The other notes do not begin with the word for a kind.
  have hother : ∀ n : String, n.toList.head? ∉ [some 'v', some 'c', some 'f'] →
      n ≠ suggestion role name := by
    rintro n hn rfl
    revert hn
    cases role <;> simp [suggestion, Role.word]
  rw [suggests_iff] at h
  cases hcause : e.cause with
  | undefinedName looked =>
      rw [noteBy?_undefinedName hcause] at h
      obtain ⟨similar, hsimilar, htext⟩ := Option.map_eq_some_iff.mp h
      obtain ⟨rfl, rfl⟩ := suggestion_inj htext
      refine ⟨rfl, ?_⟩
      split
      next hvar => exact hvar
      next hvar =>
        have hmem := List.mem_append.mp (Text.mem_of_mostSimilarBy hsimilar)
        exact isSome_constant (hmem.resolve_left hvar)
  | unknownFunction looked =>
      rw [noteBy?_unknownFunction hcause] at h
      obtain ⟨similar, hsimilar, htext⟩ := Option.map_eq_some_iff.mp h
      obtain ⟨rfl, rfl⟩ := suggestion_inj htext
      have hmem := List.mem_append.mp (Text.mem_of_mostSimilarBy hsimilar)
      exact ⟨rfl, hmem.imp isSome_intrinsic isSome_get?⟩
  | lexical error =>
      simp only [noteBy?, hcause] at h
      cases error with
      | invalidChar =>
          dsimp only at h
          split at h
          · exact absurd (Option.some.inj h) (hother _ (by decide))
          · exact absurd (Option.some.inj h) (hother _ (by decide))
      | invalidNumber => exact absurd (Option.some.inj h) (hother _ (by decide))
  | unexpectedToken =>
      simp only [noteBy?, hcause] at h
      exact absurd (Option.some.inj h) (hother _ (by decide))
  | _ =>
      simp only [noteBy?, hcause] at h
      cases h

/-! ### Scopes -/

/-- The parser takes the name for something of the kind where these variables and functions are
in scope. -/
def Resolves (names : List String) (functions : Registry) (name : String) : Role → Prop
  | .variable => ∃ i, ∀ operand column tokens,
      Parser.resolve operand names name column tokens = pure (.var i, tokens)
  | .constant => ∃ value, ∀ operand column tokens,
      Parser.resolve operand names name column tokens = pure (.const value, tokens)
  | .function => ∃ f, ∀ operand column tokens, (Parser.after? .openParen tokens).isSome →
      Parser.resolve operand names name column tokens = Parser.call operand name column tokens ∧
        (Parser.callee name column).against functions = .ok f

/-- Nothing in the scope stands in the way of a name. -/
def Unhidden (names : List String) (name : String) : Role → Prop
  | .variable => name ∈ names
  | .constant => name ∉ names
  | .function => name ∉ names ∧ Constant.value? name = none

variable {names : List String}

theorem resolve_of_mem (h : name ∈ names) : ∃ i, ∀ operand column tokens,
    Parser.resolve operand names name column tokens = pure (.var i, tokens) := by
  cases hvar : names.idxOf? name with
  | none => exact absurd h (List.idxOf?_eq_none_iff.mp hvar)
  | some i => exact ⟨i, fun _ _ _ => by rw [Parser.resolve, hvar]⟩

theorem resolve_of_constant (hvar : name ∉ names) (h : (Constant.value? name).isSome) :
    ∃ value, ∀ operand column tokens,
      Parser.resolve operand names name column tokens = pure (.const value, tokens) := by
  obtain ⟨value, hvalue⟩ := Option.isSome_iff_exists.mp h
  exact ⟨value, fun _ _ _ => by
    rw [Parser.resolve, List.idxOf?_eq_none_iff.mpr hvar, hvalue]⟩

theorem resolve_of_unhidden (h : Unhidden names name .function) (operand : Parser.Reader Expr)
    (column : Nat) {tokens : List Token} (hopen : (Parser.after? .openParen tokens).isSome) :
    Parser.resolve operand names name column tokens =
      Parser.call operand name column tokens := by
  obtain ⟨hvar, hconst⟩ := h
  rw [Parser.resolve, List.idxOf?_eq_none_iff.mpr hvar, hconst]
  exact if_pos hopen

/-- A call is read as the call of a function. -/
theorem call_ne_pure {operand : Parser.Reader Expr} {column : Nat} {tokens : List Token}
    {tree : Expr} (htree : ∀ (f : Parser.Callee) args, tree ≠ f.applyTo args) :
    Parser.call operand name column tokens ≠ pure (tree, tokens) := by
  intro heq
  have hread : (Parser.call operand name column tokens).against .empty = .ok (tree, tokens) := by
    rw [heq, Inquiry.against_pure]
  obtain ⟨f, us, args, vs, -, -, -, -, -, happly⟩ := (Parser.against_call_eq_ok []).mp hread
  exact htree f args happly

theorem exists_callee (h : Candidate known name .function) :
    ∃ f, ∀ column, (Parser.callee name column).against known = .ok f := by
  have hcalls : ∃ f, Grammar.Scope.Calls ⟨[], known⟩ name f := by
    cases hintrinsic : Intrinsic.ofName? name with
    | some f => exact ⟨_, .intrinsic hintrinsic⟩
    | none =>
        rw [Candidate, hintrinsic] at h
        obtain ⟨f, hf⟩ := Option.isSome_iff_exists.mp (h.resolve_left nofun)
        exact ⟨_, .user hintrinsic hf⟩
  obtain ⟨f, hf⟩ := hcalls
  exact ⟨f, fun _ => (Parser.against_callee_eq_ok []).mpr hf⟩

/-- A candidate is something of its kind if nothing stands in its way, and only then. -/
theorem resolves_iff (h : Candidate known name role) :
    Resolves names known name role ↔ Unhidden names name role := by
  -- What a name stands for can be told where a parenthesis comes next, whatever is behind it.
  let operand : Parser.Reader Expr := fun _ => .fail ⟨.expressionExpected, 1⟩
  let tokens : List Token := [⟨.symbol .openParen, "(", 0, 1⟩]
  have hopen : (Parser.after? .openParen tokens).isSome := rfl
  have hvariable : ∀ i (f : Parser.Callee) args, Expr.var i ≠ f.applyTo args := by
    rintro i (f | f) args <;> exact nofun
  have hconstant : ∀ value (f : Parser.Callee) args, Expr.const value ≠ f.applyTo args := by
    rintro value (f | f) args <;> exact nofun
  cases role with
  | «variable» =>
      refine ⟨?_, resolve_of_mem⟩
      rintro ⟨i, hread⟩
      by_contra hvar
      cases hconst : Constant.value? name with
      | some value =>
          obtain ⟨value, hvalue⟩ := resolve_of_constant hvar (hconst ▸ rfl)
          cases (hread operand 1 tokens).symm.trans (hvalue operand 1 tokens)
      | none =>
          have hcall := resolve_of_unhidden ⟨hvar, hconst⟩ operand 1 hopen
          exact call_ne_pure (hvariable i) (hcall.symm.trans (hread operand 1 tokens))
  | constant =>
      refine ⟨?_, fun hvar => resolve_of_constant hvar h⟩
      rintro ⟨value, hread⟩ hvar
      obtain ⟨i, hi⟩ := resolve_of_mem hvar
      cases (hread operand 1 tokens).symm.trans (hi operand 1 tokens)
  | function =>
      refine ⟨?_, fun hunhidden => ?_⟩
      · rintro ⟨f, hread⟩
        have hcall := (hread operand 1 tokens hopen).1
        have hvar : name ∉ names := by
          intro hvar
          obtain ⟨i, hi⟩ := resolve_of_mem hvar
          exact call_ne_pure (hvariable i) (hcall.symm.trans (hi operand 1 tokens))
        refine ⟨hvar, Option.eq_none_iff_forall_ne_some.mpr fun value hconst => ?_⟩
        obtain ⟨value, hvalue⟩ := resolve_of_constant hvar (hconst ▸ rfl)
        exact call_ne_pure (hconstant value) (hcall.symm.trans (hvalue operand 1 tokens))
      · obtain ⟨f, hf⟩ := exists_callee h
        exact ⟨f, fun operand column tokens hopen =>
          ⟨resolve_of_unhidden hunhidden operand column hopen, hf column⟩⟩

end Report

namespace Parser

open Inquiry (Yields)

variable {taken : String → Bool} {line : Nat} {ts : List Token} {e : ParseError}

/-! ### Where names are looked up -/

/-- The reading does not fail for want of a name. -/
def Unasking {α : Type} (m : Inquiry α) : Prop :=
  m.Yields (fun _ => True) fun fault => fault.cause.isLookup = false

theorem unasking_moveTo (ts : List Token) : Unasking (moveTo ts) := by
  unfold moveTo
  split
  · exact .fail rfl
  · exact .pure trivial

theorem unasking_expect (sym : Symbol) (ts : List Token) : Unasking (expect sym ts) := by
  unfold expect
  split
  · exact unasking_moveTo _
  · exact .fail rfl

theorem unasking_parameters_of_length (n : Nat) (seen : List String) (hn : ts.length ≤ n) :
    Unasking (parameters seen ts) := by
  induction n generalizing seen ts with
  | zero =>
      obtain rfl := List.length_eq_zero_iff.mp (Nat.le_zero.mp hn)
      exact .fail rfl
  | succ n ih =>
      fun_cases parameters seen ts with
      | case1 => exact .fail rfl
      | case2 name lexeme start column us hseen =>
          refine (unasking_moveTo us).bind fun _ _ => ?_
          split
          · rename_i vs
            have hless : vs.length ≤ n := by
              simp only [List.length_cons] at hn
              omega
            refine (unasking_moveTo vs).bind fun _ _ => ?_
            exact (ih _ hless).bind fun _ _ => .pure trivial
          · exact .pure trivial
      | case3 => exact .fail rfl

theorem unasking_signature (taken : String → Bool) (name : String) (column : Nat)
    (ts : List Token) : Unasking (signature taken name column ts) := by
  have hname : Unasking (checkName taken name column) := by
    unfold checkName
    split
    · exact .fail rfl
    · split
      · exact .fail rfl
      · split
        · exact .fail rfl
        · exact .pure trivial
  unfold signature
  refine hname.bind fun _ _ => (unasking_moveTo _).bind fun us _ => ?_
  refine (unasking_expect _ _).bind fun us _ => ?_
  refine (unasking_parameters_of_length _ [] (Nat.le_refl _)).bind fun out _ => ?_
  refine (unasking_expect _ _).bind fun us _ => ?_
  exact (unasking_expect _ _).bind fun _ _ => .pure trivial

/-- In a header no name is looked up. -/
theorem isLookup_of_header (h : header taken line ts = .error e) : e.cause.isLookup = false := by
  unfold header at h
  split at h
  · rename_i name lexeme start column us
    cases hread : (signature taken name column us).against .empty with
    | ok read =>
        rw [hread] at h
        cases h
    | error fault =>
        rw [hread] at h
        cases h
        exact (unasking_signature taken name column us).fault hread
  · cases herror : ts.head?.bind Token.error? with
    | some error =>
        rw [herror] at h
        cases h
        rfl
    | none =>
        rw [herror] at h
        cases h
        rfl

/-- A name that was looked up in vain on a line of a block stands in the definition there. -/
theorem definition?_of_isLookup {block shown : String} {functions : Registry}
    (he : e ∈ (parseBlock block functions).2) (hshown : (shown, e.line) ∈ numbered block)
    (hlookup : e.cause.isLookup = true) :
    ∃ d, definition? .empty (shown, e.line) = some d ∧ d.name = e.function := by
  obtain ⟨told, p, hended, hperm⟩ := parseBlock_ended block functions
  rcases List.mem_append.mp (hperm.mem_iff.mp he) with hbody | hrefused
  · obtain ⟨d, hd, hfunction, hline, -⟩ := hended.points hbody
    obtain ⟨text, taken, hmem, hheader⟩ := exists_line hd
    rw [← hline] at hmem hheader
    obtain rfl := numbered_unique hshown hmem
    have hblank : Text.isAllBlank shown = false := isAllBlank_of_error he hshown
    have haccepted : header Registry.empty.contains e.line (Token.tokenize shown) = .ok d :=
      header_of_ok hheader rfl
    refine ⟨d, ?_, hfunction.symm⟩
    rw [definition?, hblank, haccepted]
    rfl
  · obtain ⟨text, taken, -, hheader⟩ := headers_refused functions (numbered block) [] e hrefused
    rw [isLookup_of_header hheader] at hlookup
    cases hlookup

end Parser

namespace Report

open FormulaPlot.Parser (parse parseBlock numbered definition?)

/-! ### What the suggestions are worth -/

/-- **When a suggested name is what it is said to be.**  In the scope of a plotted formula a
variable and a constant always are, and a function is one unless it has the name of one of these.
In the scope of a definition a variable is one only if it is a parameter, and no parameter may have
the name of a constant or of a function.  This holds by whichever measure names are compared. -/
theorem suggestions_resolve_iff (measure : String → String → Float) (known : Registry)
    (role : Role) (name : String) :
    (∀ text functions e, parse text functions plotVariables = .error e →
      Suggests measure text e known role name →
        (Resolves plotVariables known name role ↔
          (role = .function → name ∉ plotVariables ∧ Constant.value? name = none))) ∧
    ∀ block functions, ∀ e ∈ (parseBlock block functions).2,
      ∀ line, (line, e.line) ∈ numbered block → Suggests measure line e known role name →
        ∃ d, definition? .empty (line, e.line) = some d ∧ d.name = e.function ∧
          (Resolves d.params known name role ↔ Unhidden d.params name role) := by
  refine ⟨fun text functions e _ h => ?_, fun block functions e he line hline h => ?_⟩
  · obtain ⟨-, hcandidate⟩ := candidate_of_suggests h
    rw [resolves_iff hcandidate]
    cases role with
    | «variable» => exact iff_of_true hcandidate nofun
    | constant =>
        have hfree : (Constant.value? plotVariable).isSome = false := by decide
        refine iff_of_true (fun hvar => ?_) nofun
        obtain rfl := List.mem_singleton.mp hvar
        exact absurd hcandidate (Bool.eq_false_iff.mp hfree)
    | function => exact ⟨fun hunhidden _ => hunhidden, fun hunhidden => hunhidden rfl⟩
  · obtain ⟨hlookup, hcandidate⟩ := candidate_of_suggests h
    obtain ⟨d, hd, hname⟩ := Parser.definition?_of_isLookup he hline hlookup
    exact ⟨d, hd, hname, resolves_iff hcandidate⟩

/-- Where a block has one error, there is nothing to sort. -/
theorem only_error {block : String} {functions : Registry} {e : ParseError}
    (h : (Parser.defineAll Expr.simplify (Parser.headers functions [] (numbered block)).1
      ⟨functions, [], [], (Parser.headers functions [] (numbered block)).2⟩).errors = [e]) :
    (parseBlock block functions).2 = [e] :=
  (congrArg (List.mergeSort · _) h).trans (List.mergeSort_singleton _)

/-- The formula calls `sin`, the definition means `pi`, and both are in scope. -/
theorem suggestions_resolve_near_misses :
    let block := "f(a) = pie*a"
    let formula := "sine(x)"
    parse formula .empty plotVariables = .error ⟨.unknownFunction "sine", "", 1, 1⟩ ∧
      Suggests Text.similarity formula ⟨.unknownFunction "sine", "", 1, 1⟩ .empty .function "sin" ∧
      Resolves plotVariables .empty "sin" .function ∧
      (parseBlock block .empty).2 = [⟨.undefinedName "pie", "f", 1, 8⟩] ∧
      Suggests Text.similarity block ⟨.undefinedName "pie", "f", 1, 8⟩ .empty .constant "pi" ∧
      ∃ d, definition? .empty (block, 1) = some d ∧ Resolves d.params .empty "pi" .constant := by
  intro block formula
  have hparse : parse formula .empty plotVariables =
      .error ⟨.unknownFunction "sine", "", 1, 1⟩ := by
    have hread : Parser.read formula .empty plotVariables =
        .error ⟨.unknownFunction "sine", "", 1, 1⟩ := Parser.error?_eq_some.mp (by decide +kernel)
    rw [parse, hread]
    rfl
  have hsine : Text.mostSimilarBy Text.similarity "sine"
      (Intrinsic.all.map (·.name) ++ Registry.empty.names) = some "sin" := by decide +kernel
  have hfunction : Suggests Text.similarity formula ⟨.unknownFunction "sine", "", 1, 1⟩ .empty
      .function "sin" := by
    rw [suggests_iff, noteBy?_unknownFunction rfl, hsine, Option.map_some]
  have hblock : (parseBlock block .empty).2 = [⟨.undefinedName "pie", "f", 1, 8⟩] :=
    only_error (by decide +kernel)
  have hpie : Text.mostSimilarBy Text.similarity "pie"
      (plotVariables ++ Constant.all.map (·.1)) = some "pi" := by decide +kernel
  have hconstant : Suggests Text.similarity block ⟨.undefinedName "pie", "f", 1, 8⟩ .empty
      .constant "pi" := by
    rw [suggests_iff, noteBy?_undefinedName rfl, hpie, Option.map_some]
    rfl
  have hline : (block, 1) ∈ numbered block := by decide +kernel
  obtain ⟨-, hbodies⟩ := suggestions_resolve_iff Text.similarity .empty .constant "pi"
  obtain ⟨d, hd, -, hresolves⟩ := hbodies block .empty
    ⟨.undefinedName "pie", "f", 1, 8⟩ (hblock ▸ List.mem_cons_self) block hline hconstant
  have hparams : (definition? .empty (block, 1)).map (·.params) = some ["a"] := by decide +kernel
  have hfree : "pi" ∉ d.params := by
    have hparams : d.params = ["a"] := Option.some.inj ((congrArg _ hd).symm.trans hparams)
    rw [hparams]
    decide
  obtain ⟨hformulas, -⟩ := suggestions_resolve_iff Text.similarity .empty .function "sin"
  have hsin := hformulas formula .empty _ hparse hfunction
  exact ⟨hparse, hfunction, hsin.mpr fun _ => ⟨by decide, rfl⟩, hblock, hconstant, d, hd,
    hresolves.mpr hfree⟩

/-- A name that differs from the variable of plotted formulas only in its case is looked up in the
body of a function of `a`.  The variable is suggested, but there is none of this name there. -/
theorem suggestions_outside_scope :
    let block := "f(a) = X"
    (parseBlock block .empty).2 = [⟨.undefinedName "X", "f", 1, 8⟩] ∧
      (block, 1) ∈ numbered block ∧
      (∃ d, definition? .empty (block, 1) = some d ∧ d.params = ["a"]) ∧
      Suggests Text.similarity block ⟨.undefinedName "X", "f", 1, 8⟩ (parseBlock block .empty).1
        .variable "x" ∧
      ¬ Resolves ["a"] (parseBlock block .empty).1 "x" .variable := by
  intro block
  have hblock : (parseBlock block .empty).2 = [⟨.undefinedName "X", "f", 1, 8⟩] :=
    only_error (by decide +kernel)
  have hsimilar : Text.mostSimilarBy Text.similarity "X"
      (plotVariables ++ Constant.all.map (·.1)) = some "x" := by decide +kernel
  have hparams : (definition? .empty (block, 1)).map (·.params) = some ["a"] := by decide +kernel
  refine ⟨hblock, by decide +kernel, Option.map_eq_some_iff.mp hparams, ?_, ?_⟩
  · rw [suggests_iff, noteBy?_undefinedName rfl, hsimilar]
    rfl
  · have hcandidate : Candidate (parseBlock block .empty).1 "x" .variable :=
      List.mem_singleton_self "x"
    rw [resolves_iff hcandidate]
    exact fun hvar => absurd (List.mem_singleton.mp hvar) (by decide)

end Report

end FormulaPlot
