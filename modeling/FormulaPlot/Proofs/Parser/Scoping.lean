/-
What is read has everything it needs.

In a registry that is made of blocks, the body of a function calls only functions that
stand before it.  So the bodies are scoped one after the other, in the order of the
registry, and with them every formula that is read over it.  Evaluating such a formula
never falls back to NaN for something that is missing, however deep the calls go.
-/
import FormulaPlot.Proofs.Expr.Scoping
import FormulaPlot.Proofs.Parser.Closure

namespace FormulaPlot.Parser

open FormulaPlot.Expr (Callable Scoped ScopedBodies)

variable {fs : List UserFunction} {r : Registry} {text : String} {names : List String} {e : Expr}

/-- In an orderly registry the bodies are scoped: each is by those before it. -/
theorem Orderly.scopedBodies (h : Orderly fs) : ScopedBodies fs := by
  induction h with
  | nil => exact List.forall_mem_nil _
  | snoc _ hf ih =>
      intro g hg
      rcases List.mem_append.mp hg with hg | hg
      · exact ih g hg
      · obtain rfl := List.mem_singleton.mp hg
        exact hf.body.scoped ih

/-- The tree of a formula that is read over an orderly registry is scoped. -/
theorem Orderly.scoped_of_read (h : Orderly r.functions) (hread : read text r names = .ok e) :
    Scoped true names.length e := by
  have hcallable : ∀ f ∈ r.functions, Callable f := fun f hf =>
    ⟨(h.declarable f hf).isName, (h.declarable f hf).nonempty⟩
  exact (Expr.writable_of_derives hcallable (derives_of_read hread)).scoped h.scopedBodies

/-- So is the folded tree. -/
theorem Orderly.scoped_of_parse (h : Orderly r.functions) (hparse : parse text r names = .ok e) :
    Scoped true names.length e := by
  unfold parse at hparse
  cases hread : read text r names with
  | error error =>
      rw [hread] at hparse
      cases hparse
  | ok tree =>
      rw [hread] at hparse
      obtain rfl : tree.simplify = e := Except.ok.inj hparse
      exact (h.scoped_of_read hread).simplify

/-- Whatever blocks a registry is made of, a formula that is read over it is scoped by the
names that were declared, folded or not, and folding keeps every scoped tree so.  Evaluated
with at least as many arguments as there are names it takes no fallback, and what it is given
beyond them does not matter. -/
theorem read_scoped (blocks : List String) (text : String) (names : List String) :
    let functions := blocks.foldl (fun r block => (parseBlock block r).1) .empty
    (∀ e, read text functions names = .ok e ∨ parse text functions names = .ok e →
      e.Scoped true names.length ∧
        ∀ env : List Float, names.length ≤ env.length →
          e.eval? env = some (e.eval env) ∧ ∀ extra, e.eval (env ++ extra) = e.eval env) ∧
    ∀ (n : Nat) (e : Expr), e.Scoped true n → e.simplify.Scoped true n := by
  intro functions
  have horderly : Orderly functions.functions := Orderly.foldl .nil blocks
  refine ⟨fun e h => ?_, fun n e h => h.simplify⟩
  have hscoped : Scoped true names.length e := by
    rcases h with hread | hparse
    · exact horderly.scoped_of_read hread
    · exact horderly.scoped_of_parse hparse
  exact ⟨hscoped, fun env henv => ⟨hscoped.eval? henv, hscoped.eval_append henv⟩⟩

/-- A function that calls another one, over two variables and with an argument too many. -/
theorem read_scoped_nested_call :
    ∃ e, parse "g(y)" (["f(x) = x, where x\ng(x) = f(f(x))"].foldl
        (fun r block => (parseBlock block r).1) .empty) ["x", "y"] = .ok e ∧
      e.Scoped true 2 ∧ e.simplify.Scoped true 2 ∧ e.eval? [0, 1] = some (e.eval [0, 1]) ∧
      e.eval [0, 1, 2] = e.eval [0, 1] := by
  have hread : ∃ e, parse "g(y)" (["f(x) = x, where x\ng(x) = f(f(x))"].foldl
      (fun r block => (parseBlock block r).1) .empty) ["x", "y"] = .ok e := by
    have hok : (parse "g(y)" (["f(x) = x, where x\ng(x) = f(f(x))"].foldl
        (fun r block => (parseBlock block r).1) .empty) ["x", "y"]).isOk = true := by
      decide +kernel
    revert hok
    generalize parse _ _ _ = result
    intro hok
    cases result with
    | ok e => exact ⟨e, rfl⟩
    | error => cases hok
  obtain ⟨e, he⟩ := hread
  obtain ⟨hparsed, hsimplify⟩ :=
    read_scoped ["f(x) = x, where x\ng(x) = f(f(x))"] "g(y)" ["x", "y"]
  obtain ⟨hscoped, hvalue⟩ := hparsed e (.inr he)
  obtain ⟨hdefined, hextra⟩ := hvalue [0, 1] (by decide)
  exact ⟨e, he, hscoped, hsimplify 2 e hscoped, hdefined, hextra [2]⟩

end FormulaPlot.Parser
