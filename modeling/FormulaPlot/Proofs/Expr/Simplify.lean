/-
Folding constants keeps the value.

Every node is folded after its subtrees, so it is enough that folding one node keeps
its value.  A node whose subtrees are all constants has the same value for every list of
arguments, and folding takes the value for the empty list.
-/
import FormulaPlot.Expr.Simplify
import FormulaPlot.Proofs.Number.Special

namespace FormulaPlot

/-- Both numbers are NaN, or they have the same bits. -/
def SameValue (x y : Float) : Prop :=
  x.isNaN = true ∧ y.isNaN = true ∨ x.toBits = y.toBits

theorem sameValue_of_eq {x y : Float} (h : x = y) : SameValue x y := .inr (congrArg Float.toBits h)

namespace Expr

theorem eval_of_isConst {e : Expr} (h : e.isConst = true) (env env' : List Float) :
    e.eval env = e.eval env' := by
  cases e with
  | const value => simp only [eval]
  | _ => cases h

theorem evalAll_of_isConst {es : List Expr} (h : es.all isConst = true) (env env' : List Float) :
    evalAll env es = evalAll env' es := by
  induction es with
  | nil => simp only [evalAll]
  | cons e es ih =>
      rw [List.all_cons, Bool.and_eq_true] at h
      rw [evalAll, evalAll, eval_of_isConst h.1 env env', ih h.2]

/-- Constant subtrees are all that a node needs to lose its arguments, unless it is a variable. -/
theorem eval_of_children {e : Expr} (hvar : ∀ index, e ≠ var index)
    (h : e.children.all isConst = true) (env env' : List Float) : e.eval env = e.eval env' := by
  have hall := evalAll_of_isConst h env env'
  cases e with
  | const value => simp only [eval]
  | var index => exact absurd rfl (hvar index)
  | _ =>
      simp only [children, evalAll, List.cons.injEq, and_true] at hall
      simp only [eval, hall]

theorem eval_fold {e : Expr} (hvar : ∀ index, e ≠ var index) (env : List Float) :
    (fold e).eval env = e.eval env := by
  unfold fold
  by_cases h : e.children.all isConst = true
  · rw [if_pos h, eval, canonical_eq]
    exact eval_of_children hvar h [] env
  · rw [if_neg h]

mutual

/-- Folding keeps the value. -/
theorem eval_simplify (env : List Float) : (e : Expr) → e.simplify.eval env = e.eval env
  | const _ | var _ => by rw [simplify]
  | unary op e => by
      rw [simplify, eval_fold (by simp), eval, eval, eval_simplify env e]
  | binary op a b => by
      rw [simplify, eval_fold (by simp), eval, eval, eval_simplify env a, eval_simplify env b]
  | apply f args => by
      rw [simplify, eval_fold (by simp), eval, eval, evalAll_simplifyAll env args]
  | call name params body args => by
      rw [simplify, eval_fold (by simp), eval, eval, evalAll_simplifyAll env args]
  | ternary c a b => by
      rw [simplify, eval_fold (by simp), eval, eval, eval_simplify env c, eval_simplify env a,
        eval_simplify env b]
  | limit e c => by
      rw [simplify, eval_fold (by simp), eval, eval, eval_simplify env e, eval_simplify env c]

theorem evalAll_simplifyAll (env : List Float) :
    (es : List Expr) → evalAll env (simplifyAll es) = evalAll env es
  | [] => by rw [simplifyAll]
  | e :: es => by
      rw [simplifyAll, evalAll, evalAll, eval_simplify env e, evalAll_simplifyAll env es]

end

end Expr

end FormulaPlot
