/-
What can be seen of an expression.

Equivalent trees cannot be told apart: they have the same values, the same text and the same
precedence, one is constant if the other is, and folding leaves them equivalent.  The reason
is always the same.  Equivalent trees differ in the names of parameters alone, and none of
these observations looks at them, so each makes no difference between a tree and the tree
without those names.

A tree that is shared need not be compared with itself.  `comparing` takes such shortcuts,
wherever somebody knows that the two sides are one and the same, and has the same answer.
-/
import FormulaPlot.Proofs.Expr.Equivalence
import FormulaPlot.Proofs.Expr.Simplify

namespace FormulaPlot.Expr

/-! ### More that does not look at the names of parameters -/

mutual

theorem isConstant_unnamed : (e : Expr) → e.unnamed.isConstant = e.isConstant
  | const _ | var _ => by rw [unnamed]
  | unary op e => by simp only [unnamed, isConstant, isConstant_unnamed e]
  | binary op a b => by
      simp only [unnamed, isConstant, isConstant_unnamed a, isConstant_unnamed b]
  | apply f args => by simp only [unnamed, isConstant, allConstant_unnamed args]
  | call name params body args => by simp only [unnamed, isConstant, allConstant_unnamed args]
  | ternary c a b => by
      simp only [unnamed, isConstant, isConstant_unnamed c, isConstant_unnamed a,
        isConstant_unnamed b]
  | limit e c => by simp only [unnamed, isConstant, isConstant_unnamed e, isConstant_unnamed c]

theorem allConstant_unnamed : (es : List Expr) → allConstant (unnamedAll es) = allConstant es
  | [] => by rw [unnamedAll]
  | e :: es => by
      simp only [unnamedAll, allConstant, isConstant_unnamed e, allConstant_unnamed es]

end

theorem precedence_unnamed (e : Expr) : e.unnamed.precedence = e.precedence := by
  cases e <;> rfl

theorem isConst_unnamed (e : Expr) : e.unnamed.isConst = e.isConst := by
  cases e <;> rfl

theorem unnamedAll_eq_map (es : List Expr) : unnamedAll es = es.map unnamed := by
  induction es with
  | nil => rfl
  | cons e es ih => rw [unnamedAll, ih, List.map_cons]

theorem children_unnamed (e : Expr) : e.unnamed.children = e.children.map unnamed := by
  cases e <;> simp [unnamed, children, unnamedAll_eq_map]

/-! ### Folding -/

/-- Whether a tree is folded, and to which value, does not depend on the names. -/
theorem unnamed_fold (e : Expr) : (fold e).unnamed = fold e.unnamed := by
  have hchildren : e.unnamed.children.all isConst = e.children.all isConst := by
    rw [children_unnamed, List.all_map]
    exact congrArg e.children.all (funext isConst_unnamed)
  unfold fold
  rw [hchildren, eval_unnamed]
  split
  · rw [unnamed]
  · rfl

mutual

theorem unnamed_simplify : (e : Expr) → e.simplify.unnamed = e.unnamed.simplify
  | const _ | var _ => by simp only [unnamed, simplify]
  | unary op e => by simp only [simplify, unnamed_fold, unnamed, unnamed_simplify e]
  | binary op a b => by
      simp only [simplify, unnamed_fold, unnamed, unnamed_simplify a, unnamed_simplify b]
  | apply f args => by simp only [simplify, unnamed_fold, unnamed, unnamedAll_simplifyAll args]
  | call name params body args => by
      simp only [simplify, unnamed_fold, unnamed, unnamedAll_simplifyAll args]
  | ternary c a b => by
      simp only [simplify, unnamed_fold, unnamed, unnamed_simplify c, unnamed_simplify a,
        unnamed_simplify b]
  | limit e c => by
      simp only [simplify, unnamed_fold, unnamed, unnamed_simplify e, unnamed_simplify c]

theorem unnamedAll_simplifyAll :
    (es : List Expr) → unnamedAll (simplifyAll es) = simplifyAll (unnamedAll es)
  | [] => rfl
  | e :: es => by
      simp only [simplifyAll, unnamedAll, unnamed_simplify e, unnamedAll_simplifyAll es]

end

variable {a b : Expr}

/-- Equivalent trees stay equivalent when their constants are folded. -/
theorem simplify_of_isEquivalent (h : a.isEquivalent b = true) :
    a.simplify.isEquivalent b.simplify = true := by
  rw [isEquivalent_iff, unnamed_simplify, unnamed_simplify, (isEquivalent_iff a b).mp h]

/-! ### Comparing with shortcuts

The same tree may be shared in one place and copied in another.  So what is known of two trees
also depends on the place where they are met: the steps that lead there, the latest first.
-/

/-- Which trees and which functions are known to be one and the same, place by place. -/
structure Shared where
  tree : (place : List Nat) → Expr → Expr → Bool
  function : (place : List Nat) → UserFunction → UserFunction → Bool

/-- What is known is right. -/
structure Shared.Right (s : Shared) : Prop where
  tree : ∀ place a b, s.tree place a b = true → a = b
  function : ∀ place f g, s.function place f g = true → f = g

mutual

/-- Compares two trees, but not what is known to be the same. -/
def comparing (s : Shared) (place : List Nat) (x y : Expr) : Bool :=
  s.tree place x y || match x, y with
  | const a, const b => a.toBits == b.toBits
  | var i, var j => i == j
  | unary p a, unary q b => p == q && comparing s (0 :: place) a b
  | binary p a c, binary q b d =>
    p == q && comparing s (0 :: place) a b && comparing s (1 :: place) c d
  | apply f as, apply g bs => f == g && comparingAll s place 1 as bs
  | call f ps a as, call g qs b bs =>
    (s.function place ⟨f, ps, a⟩ ⟨g, qs, b⟩ ||
      (f == g && ps.length == qs.length && comparing s (0 :: place) a b)) &&
      comparingAll s place 1 as bs
  | ternary a c e, ternary b d f =>
    comparing s (0 :: place) a b && comparing s (1 :: place) c d && comparing s (2 :: place) e f
  | limit a c, limit b d => comparing s (0 :: place) a b && comparing s (1 :: place) c d
  | _, _ => false

/-- Compares two lists of arguments, from the one of a number on. -/
def comparingAll (s : Shared) (place : List Nat) (number : Nat) : List Expr → List Expr → Bool
  | [], [] => true
  | a :: as, b :: bs =>
    comparing s (number :: place) a b && comparingAll s place (number + 1) as bs
  | _, _ => false

end

variable {s : Shared}

/-- A shortcut does not change an answer that is right without it. -/
theorem or_eq_of_known {known answer : Bool} (hknown : known = true → a = b)
    (h : answer = a.isEquivalent b) : (known || answer) = a.isEquivalent b := by
  cases known with
  | false => exact h
  | true => rw [hknown rfl, isEquivalent_refl, Bool.true_or]

/-- The same for a shortcut over the name, the parameters and the body of a function. -/
theorem or_eq_of_known_function {f g : UserFunction} {known answer : Bool}
    (hknown : known = true → f = g) (h : answer = f.body.isEquivalent g.body) :
    (known || (f.name == g.name && f.params.length == g.params.length && answer)) =
      (f.name == g.name && f.params.length == g.params.length && f.body.isEquivalent g.body) := by
  cases known with
  | false => rw [h, Bool.false_or]
  | true => simp [hknown rfl, isEquivalent_refl]

mutual

theorem comparing_eq (h : s.Right) (place : List Nat) :
    (a b : Expr) → comparing s place a b = a.isEquivalent b
  | const x, b => by
      rw [comparing.eq_def]
      refine or_eq_of_known (h.tree place _ _) ?_
      cases b <;> rfl
  | var i, b => by
      rw [comparing.eq_def]
      refine or_eq_of_known (h.tree place _ _) ?_
      cases b <;> rfl
  | unary op a, b => by
      rw [comparing.eq_def]
      refine or_eq_of_known (h.tree place _ _) ?_
      cases b with
      | unary op' b => simp only [isEquivalent, comparing_eq h _ a b]
      | _ => rfl
  | binary op a c, b => by
      rw [comparing.eq_def]
      refine or_eq_of_known (h.tree place _ _) ?_
      cases b with
      | binary op' b d => simp only [isEquivalent, comparing_eq h _ a b, comparing_eq h _ c d]
      | _ => rfl
  | apply f as, b => by
      rw [comparing.eq_def]
      refine or_eq_of_known (h.tree place _ _) ?_
      cases b with
      | apply g bs => simp only [isEquivalent, comparingAll_eq h place 1 as bs]
      | _ => rfl
  | call f ps a as, b => by
      rw [comparing.eq_def]
      refine or_eq_of_known (h.tree place _ _) ?_
      cases b with
      | call g qs b bs =>
          have hfunction := or_eq_of_known_function (h.function place ⟨f, ps, a⟩ ⟨g, qs, b⟩)
            (comparing_eq h (0 :: place) a b)
          simp only [isEquivalent, hfunction, comparingAll_eq h place 1 as bs]
      | _ => rfl
  | ternary a c e, b => by
      rw [comparing.eq_def]
      refine or_eq_of_known (h.tree place _ _) ?_
      cases b with
      | ternary b d f =>
          simp only [isEquivalent, comparing_eq h _ a b, comparing_eq h _ c d, comparing_eq h _ e f]
      | _ => rfl
  | limit a c, b => by
      rw [comparing.eq_def]
      refine or_eq_of_known (h.tree place _ _) ?_
      cases b with
      | limit b d => simp only [isEquivalent, comparing_eq h _ a b, comparing_eq h _ c d]
      | _ => rfl

theorem comparingAll_eq (h : s.Right) (place : List Nat) (number : Nat) :
    (as bs : List Expr) → comparingAll s place number as bs = areEquivalent as bs
  | [], bs => by cases bs <;> rfl
  | a :: as, bs => by
      cases bs with
      | nil => rfl
      | cons b bs =>
          simp only [comparingAll, areEquivalent, comparing_eq h _ a b,
            comparingAll_eq h place (number + 1) as bs]

end

/-! ### Equivalent trees cannot be told apart -/

/-- The trees have the same values bit for bit, the same text and precedence, both or neither are
constant, and folding them gives equivalent trees. -/
structure Indistinguishable (a b : Expr) : Prop where
  value : ∀ env, (a.eval env).toBits = (b.eval env).toBits
  text : ∀ names, a.text names = b.text names
  isConstant : a.isConstant = b.isConstant
  precedence : a.precedence = b.precedence
  simplify : a.simplify.isEquivalent b.simplify = true

theorem indistinguishable_of_isEquivalent (h : a.isEquivalent b = true) :
    Indistinguishable a b where
  value env := congrArg Float.toBits (eval_of_isEquivalent h env)
  text := text_of_isEquivalent h
  isConstant := by rw [← isConstant_unnamed a, (isEquivalent_iff a b).mp h, isConstant_unnamed]
  precedence := by rw [← precedence_unnamed a, (isEquivalent_iff a b).mp h, precedence_unnamed]
  simplify := simplify_of_isEquivalent h

/-- Equivalence is an equivalence relation, equivalent trees cannot be told apart, and it makes no
difference where a comparison is cut short because the two sides are known to be the same. -/
theorem isEquivalent_observational :
    Equivalence (fun a b : Expr => a.isEquivalent b = true) ∧
      (∀ a b : Expr, a.isEquivalent b = true → Indistinguishable a b) ∧
      ∀ s : Shared, s.Right → ∀ place a b, comparing s place a b = a.isEquivalent b := by
  refine ⟨⟨isEquivalent_refl, isEquivalent_symm, isEquivalent_trans⟩, ?_, ?_⟩
  · exact fun a b h => indistinguishable_of_isEquivalent h
  · exact fun s h => comparing_eq h

/-- The first argument of both calls is one variable. -/
def sharedArgument : Shared where
  tree
    | [1], var 0, var 0 => true
    | _, _, _ => false
  function _ _ _ := false

theorem sharedArgument_right : sharedArgument.Right where
  tree place a b h := by
    dsimp only [sharedArgument] at h
    split at h
    · rfl
    · cases h
  function place f g h := nomatch h

/-- Calls of two functions that differ in the name of their parameter, with a shared argument. -/
theorem isEquivalent_observational_renamed :
    isEquivalent (call "f" ["a"] (.binary .add (.var 0) (.const nan)) [.var 0])
        (call "f" ["b"] (.binary .add (.var 0) (.const nan)) [.var 0]) = true ∧
      Indistinguishable (call "f" ["a"] (.binary .add (.var 0) (.const nan)) [.var 0])
        (call "f" ["b"] (.binary .add (.var 0) (.const nan)) [.var 0]) ∧
      sharedArgument.Right ∧
      comparing sharedArgument [] (call "f" ["a"] (.binary .add (.var 0) (.const nan)) [.var 0])
        (call "f" ["b"] (.binary .add (.var 0) (.const nan)) [.var 0]) = true := by
  have h : isEquivalent (call "f" ["a"] (.binary .add (.var 0) (.const nan)) [.var 0])
      (call "f" ["b"] (.binary .add (.var 0) (.const nan)) [.var 0]) = true := by
    simp [isEquivalent, areEquivalent]
  obtain ⟨-, hseen, hcomparing⟩ := isEquivalent_observational
  refine ⟨h, hseen _ _ h, sharedArgument_right, ?_⟩
  rw [hcomparing sharedArgument sharedArgument_right]
  exact h

end FormulaPlot.Expr
