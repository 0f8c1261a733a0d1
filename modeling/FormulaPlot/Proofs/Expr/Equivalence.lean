/-
Equivalence of expressions.

Equivalent trees differ in nothing but the names of the parameters of the functions they
call.  `unnamed` takes those names away, and two trees are equivalent exactly if they are
then the same.  So equivalence is an equivalence relation, and whatever does not look at
these names, such as the value or the text of a tree, is the same for equivalent trees.
-/
import FormulaPlot.Expr.Equivalence
import FormulaPlot.Expr.Eval
import FormulaPlot.Expr.Printer
import FormulaPlot.Proofs.Number.Special

namespace FormulaPlot.Expr

mutual

/-- A tree is equivalent to itself. -/
theorem isEquivalent_refl : (e : Expr) → e.isEquivalent e = true
  | const _ | var _ => by simp [isEquivalent]
  | unary _ e => by simp [isEquivalent, isEquivalent_refl e]
  | binary _ a b => by simp [isEquivalent, isEquivalent_refl a, isEquivalent_refl b]
  | apply _ args => by simp [isEquivalent, areEquivalent_refl args]
  | call _ _ body args => by simp [isEquivalent, isEquivalent_refl body, areEquivalent_refl args]
  | ternary c a b => by
      simp [isEquivalent, isEquivalent_refl c, isEquivalent_refl a, isEquivalent_refl b]
  | limit e c => by simp [isEquivalent, isEquivalent_refl e, isEquivalent_refl c]

theorem areEquivalent_refl : (es : List Expr) → areEquivalent es es = true
  | [] => rfl
  | e :: es => by simp [areEquivalent, isEquivalent_refl e, areEquivalent_refl es]

end

/-! ### Trees without the names of parameters -/

mutual

/-- The tree with all parameters of called functions named alike. -/
def unnamed : Expr → Expr
  | const value => const value
  | var index => var index
  | unary op e => unary op (unnamed e)
  | binary op a b => binary op (unnamed a) (unnamed b)
  | apply f args => apply f (unnamedAll args)
  | call name params body args =>
    call name (params.map fun _ => "") (unnamed body) (unnamedAll args)
  | ternary c a b => ternary (unnamed c) (unnamed a) (unnamed b)
  | limit e c => limit (unnamed e) (unnamed c)

/-- Several trees with all parameters of called functions named alike. -/
def unnamedAll : List Expr → List Expr
  | [] => []
  | e :: es => unnamed e :: unnamedAll es

end

theorem map_blank_inj {α β : Type} {as : List α} {bs : List β} :
    (as.map fun _ => "") = (bs.map fun _ => "") ↔ as.length = bs.length := by
  rw [List.map_const', List.map_const', List.replicate_left_inj]

mutual

/-- Trees are equivalent if they are the same without the names of parameters. -/
theorem isEquivalent_iff : (a b : Expr) → (a.isEquivalent b = true ↔ a.unnamed = b.unnamed)
  | const x, b => by
      have hbits : ∀ y : Float, x.toBits = y.toBits ↔ x = y :=
        fun y => ⟨toBits_injective, congrArg Float.toBits⟩
      cases b <;> simp [isEquivalent, unnamed, hbits]
  | var i, b => by cases b <;> simp [isEquivalent, unnamed]
  | unary op a, b => by
      cases b with
      | unary op' b => simp [isEquivalent, unnamed, isEquivalent_iff a b]
      | _ => simp [isEquivalent, unnamed]
  | binary op a c, b => by
      cases b with
      | binary op' b d =>
          simp [isEquivalent, unnamed, isEquivalent_iff a b, isEquivalent_iff c d, and_assoc]
      | _ => simp [isEquivalent, unnamed]
  | apply f as, b => by
      cases b with
      | apply g bs => simp [isEquivalent, unnamed, areEquivalent_iff as bs]
      | _ => simp [isEquivalent, unnamed]
  | call f ps a as, b => by
      cases b with
      | call g qs b bs =>
          simp only [isEquivalent, unnamed, Bool.and_eq_true, beq_iff_eq, call.injEq,
            isEquivalent_iff a b, areEquivalent_iff as bs, map_blank_inj, and_assoc]
      | _ => simp [isEquivalent, unnamed]
  | ternary a c e, b => by
      cases b with
      | ternary b d f =>
          simp [isEquivalent, unnamed, isEquivalent_iff a b, isEquivalent_iff c d,
            isEquivalent_iff e f, and_assoc]
      | _ => simp [isEquivalent, unnamed]
  | limit a c, b => by
      cases b with
      | limit b d => simp [isEquivalent, unnamed, isEquivalent_iff a b, isEquivalent_iff c d]
      | _ => simp [isEquivalent, unnamed]

theorem areEquivalent_iff :
    (as bs : List Expr) → (areEquivalent as bs = true ↔ unnamedAll as = unnamedAll bs)
  | [], bs => by cases bs <;> simp [areEquivalent, unnamedAll]
  | a :: as, bs => by
      cases bs with
      | nil => simp [areEquivalent, unnamedAll]
      | cons b bs =>
          simp [areEquivalent, unnamedAll, isEquivalent_iff a b, areEquivalent_iff as bs]

end

variable {a b c : Expr}

theorem isEquivalent_symm (h : a.isEquivalent b = true) : b.isEquivalent a = true :=
  (isEquivalent_iff b a).mpr ((isEquivalent_iff a b).mp h).symm

theorem isEquivalent_trans (h : a.isEquivalent b = true) (h' : b.isEquivalent c = true) :
    a.isEquivalent c = true :=
  (isEquivalent_iff a c).mpr (((isEquivalent_iff a b).mp h).trans ((isEquivalent_iff b c).mp h'))

/-! ### What does not look at the names of parameters -/

mutual

theorem eval_unnamed (env : List Float) : (e : Expr) → e.unnamed.eval env = e.eval env
  | const _ | var _ => by rw [unnamed]
  | unary op e => by simp only [unnamed, eval, eval_unnamed env e]
  | binary op a b => by simp only [unnamed, eval, eval_unnamed env a, eval_unnamed env b]
  | apply f args => by simp only [unnamed, eval, evalAll_unnamed env args]
  | call name params body args => by
      simp only [unnamed, eval, evalAll_unnamed env args]
      exact eval_unnamed (evalAll env args) body
  | ternary c a b => by
      simp only [unnamed, eval, eval_unnamed env c, eval_unnamed env a, eval_unnamed env b]
  | limit e c => by simp only [unnamed, eval, eval_unnamed env e, eval_unnamed env c]

theorem evalAll_unnamed (env : List Float) :
    (es : List Expr) → evalAll env (unnamedAll es) = evalAll env es
  | [] => by rw [unnamedAll]
  | e :: es => by
      simp only [unnamedAll, evalAll, eval_unnamed env e, evalAll_unnamed env es]

end

mutual

theorem write_unnamed (names : List String) (asked : Precedence) :
    (e : Expr) → e.unnamed.write names asked = e.write names asked
  | const _ | var _ => by rw [unnamed]
  | unary op e => by simp only [unnamed, write, write_unnamed names _ e]
  | binary op a b => by simp only [unnamed, write, write_unnamed names _ a, write_unnamed names _ b]
  | apply f args => by simp only [unnamed, write, writeArgs_unnamed names args]
  | call name params body args => by simp only [unnamed, write, writeArgs_unnamed names args]
  | ternary c a b => by
      simp only [unnamed, write, write_unnamed names _ c, write_unnamed names _ a,
        write_unnamed names _ b]
  | limit e c => by simp only [unnamed, write, write_unnamed names _ e, write_unnamed names _ c]

theorem writeArgs_unnamed (names : List String) :
    (es : List Expr) → writeArgs names (unnamedAll es) = writeArgs names es
  | [] => by rw [unnamedAll]
  | [e] => by simp only [unnamedAll, writeArgs, write_unnamed names _ e]
  | e :: e' :: es => by
      have hrest := writeArgs_unnamed names (e' :: es)
      simp only [unnamedAll] at hrest ⊢
      simp only [writeArgs, write_unnamed names _ e, hrest]

end

/-- Equivalent trees have the same value for all arguments. -/
theorem eval_of_isEquivalent (h : a.isEquivalent b = true) (env : List Float) :
    a.eval env = b.eval env := by
  rw [← eval_unnamed env a, (isEquivalent_iff a b).mp h, eval_unnamed]

/-- Equivalent trees have the same text. -/
theorem text_of_isEquivalent (h : a.isEquivalent b = true) (names : List String) :
    a.text names = b.text names := by
  unfold text
  rw [← write_unnamed names _ a, (isEquivalent_iff a b).mp h, write_unnamed]

end FormulaPlot.Expr
