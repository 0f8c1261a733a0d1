/-
More functions change nothing.

A reading looks at a registry only where it asks for a function.  A function that was found
is still found if the registry has more of them, and one that was missing ends the reading
at once.  So over the larger registry the outcome is the same, a tree or an error, unless
the formula missed a function that is there now.  A name that is a variable, a constant or
an intrinsic is never asked for, whatever functions there are of that name.
-/
import FormulaPlot.Proofs.Expr.Callees
import FormulaPlot.Proofs.Parser.Growth

namespace FormulaPlot

variable {r r' : Registry}

/-- Over more functions a reading has the same outcome, unless it missed one of them. -/
theorem Inquiry.Honest.against_more {α : Type} {m : Inquiry α} (hm : m.Honest)
    (hmore : ∀ name f, r.get? name = some f → r'.get? name = some f) :
    m.against r' = m.against r ∨
      ∃ name column f, m.against r = .error ⟨.unknownFunction name, column⟩ ∧
        r.get? name = none ∧ r'.get? name = some f := by
  induction hm with
  | done _ => exact .inl rfl
  | @ask name column next _ other ih =>
      simp only [Inquiry.against]
      cases hget : r.get? name with
      | some f =>
          rw [hmore name f hget]
          exact ih f
      | none =>
          have hmissing : next .missing = .done (.error ⟨.unknownFunction name, column⟩) :=
            other .missing _ rfl
          cases hget' : r'.get? name with
          | none =>
              left
              simp only [hmissing, Inquiry.against]
          | some f =>
              right
              exact ⟨name, column, f, by simp only [hmissing, Inquiry.against], hget, hget'⟩

namespace Parser

/-- Over more functions a formula is read and folded as before, or refused as before, unless
it missed one of them. -/
theorem parse_more (hmore : ∀ name f, r.get? name = some f → r'.get? name = some f)
    (text : String) (names : List String) :
    parse text r' names = parse text r names ∨
      ∃ name column f, parse text r names = .error ⟨.unknownFunction name, "", 1, column⟩ ∧
        r.get? name = none ∧ r'.get? name = some f := by
  unfold parse read
  rcases (honest_topLevel names (Token.tokenize text)).against_more hmore with
    hsame | ⟨name, column, f, hmissed, hno, hnow⟩
  · left
    rw [hsame]
  · right
    refine ⟨name, column, f, ?_, hno, hnow⟩
    rw [hmissed]
    rfl

/-- A block keeps the functions that there are. -/
theorem get?_parseBlock {name : String} {f : UserFunction} (h : r.get? name = some f)
    (block : String) : (parseBlock block r).1.get? name = some f := by
  obtain ⟨added, -, hfunctions⟩ := parseBlock_layers block r
  show Registry.get? ⟨(parseBlock block r).1.functions⟩ name = some f
  rw [hfunctions]
  exact Registry.get?_append h _

/-- A formula that missed no function has the same tree or the same error over every registry
that has the functions it was read over, and also after further blocks. -/
theorem parse_mono {text : String} {names : List String}
    (hmore : ∀ name f, r.get? name = some f → r'.get? name = some f)
    (h : ∀ error name, parse text r names = .error error →
      error.cause.kind ≠ .unknownFunction name) :
    parse text r' names = parse text r names ∧
      ∀ blocks : List String,
        parse text (blocks.foldl (fun s block => (parseBlock block s).1) r') names =
          parse text r names := by
  have hsame : ∀ s : Registry, (∀ name f, r.get? name = some f → s.get? name = some f) →
      parse text s names = parse text r names := by
    intro s hs
    rcases parse_more hs text names with hsame | ⟨name, column, f, hmissed, -⟩
    · exact hsame
    · exact absurd rfl (h _ name hmissed)
  refine ⟨hsame r' hmore, fun blocks => hsame _ ?_⟩
  induction blocks generalizing r' with
  | nil => exact hmore
  | cons block blocks ih =>
      exact ih fun name f hf => get?_parseBlock (hmore name f hf) block

/-- Functions named like a variable or an intrinsic, and one that the formula would have missed
further on, do not change what is wrong with it. -/
theorem parse_mono_arity :
    parse "f(x) + max(x) + g(x)" ⟨[⟨"f", ["a"], .var 0⟩]⟩ ["x"] =
        .error ⟨.arity "max" 2, "", 1, 8⟩ ∧
      parse "f(x) + max(x) + g(x)" ⟨[⟨"x", ["a"], .var 0⟩, ⟨"max", ["a"], .var 0⟩,
          ⟨"f", ["a"], .var 0⟩, ⟨"g", ["a"], .var 0⟩]⟩ ["x"] =
        .error ⟨.arity "max" 2, "", 1, 8⟩ := by
  have hread : parse "f(x) + max(x) + g(x)" ⟨[⟨"f", ["a"], .var 0⟩]⟩ ["x"] =
      .error ⟨.arity "max" 2, "", 1, 8⟩ :=
    error?_eq_some.mp (by decide +kernel)
  refine ⟨hread, ?_⟩
  rw [← hread]
  refine (parse_mono (fun name f hget => ?_) fun error name herror => ?_).1
  · obtain ⟨hmem, rfl⟩ := Registry.mem_of_get? hget
    obtain rfl := List.mem_singleton.mp hmem
    rfl
  · obtain rfl := Except.error.inj (hread.symm.trans herror)
    exact nofun

end Parser

end FormulaPlot
