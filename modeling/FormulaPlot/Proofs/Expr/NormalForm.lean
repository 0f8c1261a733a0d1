/-
The normal form of folding.

A folded tree has no node left whose subtrees are all constants, and a tree without
variables has turned into a single constant.  The reason is that folding works from the
leaves up: the children of a folded node are the folded children of the node, whatever kind
of node it is, and after that only the node itself is looked at.

`Part` says which trees stand in a tree.  The body of a called function does not: its
variables are parameters and have nothing to do with those of the tree.
-/
import FormulaPlot.Proofs.Expr.Callees
import FormulaPlot.Proofs.Expr.Equivalence
import FormulaPlot.Proofs.Expr.Simplify

namespace FormulaPlot.Expr

/-! ### The parts of a tree -/

/-- The tree is another one or stands somewhere below its root. -/
inductive Part (t : Expr) : Expr → Prop
  | whole : Part t t
  | inside {e c : Expr} (hc : c ∈ e.children) (h : Part t c) : Part t e

/-- A constant or a variable. -/
def isLeaf : Expr → Bool
  | const _ | var _ => true
  | _ => false

variable {e t : Expr}

theorem isLeaf_iff : e.isLeaf = true ↔ (∃ value, e = const value) ∨ ∃ index, e = var index := by
  cases e <;> simp [isLeaf]

theorem children_of_isLeaf (h : e.isLeaf = true) : e.children = [] := by
  obtain ⟨value, rfl⟩ | ⟨index, rfl⟩ := isLeaf_iff.mp h <;> rfl

/-- A leaf has no part but itself. -/
theorem Part.eq_of_isLeaf (h : Part t e) (hleaf : e.isLeaf = true) : t = e := by
  cases h with
  | whole => rfl
  | inside hc _ =>
      rw [children_of_isLeaf hleaf] at hc
      cases hc

theorem sizeOf_lt_of_mem_children {c : Expr} (h : c ∈ e.children) : sizeOf c < sizeOf e := by
  cases e with
  | const | var => cases h
  | apply f args | call name params body args =>
      have hlt : sizeOf c < sizeOf args := List.sizeOf_lt_of_mem h
      simp only [apply.sizeOf_spec, call.sizeOf_spec]
      omega
  | unary op a =>
      obtain rfl := List.mem_singleton.mp h
      simp only [unary.sizeOf_spec]
      omega
  | binary op a b | limit a b =>
      simp only [children, List.mem_cons, List.not_mem_nil, or_false] at h
      simp only [binary.sizeOf_spec, limit.sizeOf_spec]
      rcases h with rfl | rfl <;> omega
  | ternary a b d =>
      simp only [children, List.mem_cons, List.not_mem_nil, or_false] at h
      simp only [ternary.sizeOf_spec]
      rcases h with rfl | rfl | rfl <;> omega

/-- What every tree has if its children have it. -/
theorem children_induction {P : Expr → Prop} (step : ∀ e, (∀ c ∈ e.children, P c) → P e)
    (e : Expr) : P e :=
  step e fun c _ => children_induction step c
termination_by sizeOf e
decreasing_by exact sizeOf_lt_of_mem_children ‹_›

/-! ### One way to look at all kinds of nodes -/

theorem simplifyAll_eq_map (es : List Expr) : simplifyAll es = es.map simplify := by
  induction es with
  | nil => rfl
  | cons e es ih => rw [simplifyAll, ih, List.map_cons]

theorem simplify_of_isLeaf (h : e.isLeaf = true) : e.simplify = e := by
  obtain ⟨value, rfl⟩ | ⟨index, rfl⟩ := isLeaf_iff.mp h <;> rw [simplify]

/-- Of a node, first the children are folded and then the node itself. -/
theorem exists_simplify_eq_fold (h : e.isLeaf = false) :
    ∃ e', e.simplify = fold e' ∧ e'.isLeaf = false ∧ e'.children = e.children.map simplify := by
  cases e with
  | const | var => cases h
  | apply f args =>
      exact ⟨apply f (simplifyAll args), by rw [simplify], rfl, simplifyAll_eq_map args⟩
  | call name params body args =>
      exact ⟨call name params body (simplifyAll args), by rw [simplify], rfl,
        simplifyAll_eq_map args⟩
  | _ => exact ⟨_, by rw [simplify], rfl, rfl⟩

theorem allConstant_eq_all (es : List Expr) : allConstant es = es.all isConstant := by
  induction es with
  | nil => rfl
  | cons e es ih => rw [allConstant, ih, List.all_cons]

theorem isConstant_eq_all (h : e.isLeaf = false) : e.isConstant = e.children.all isConstant := by
  cases e with
  | const | var => cases h
  | apply | call => rw [isConstant, allConstant_eq_all]; rfl
  | _ => simp [isConstant, children, Bool.and_assoc]

/-- A node becomes a constant exactly if its children are constants. -/
theorem isConst_fold (h : e.isLeaf = false) : (fold e).isConst = e.children.all isConst := by
  unfold fold
  by_cases hall : e.children.all isConst = true
  · rw [if_pos hall, hall, isConst]
  · rw [if_neg hall, Bool.eq_false_of_not_eq_true hall]
    cases e with
    | const => cases h
    | _ => rfl

/-! ### What is left and what is not -/

/-- A tree turns into a constant exactly if it has no variable. -/
theorem isConst_simplify (e : Expr) : e.simplify.isConst = e.isConstant := by
  induction e using children_induction with
  | step e ih =>
      by_cases hleaf : e.isLeaf = true
      · rw [simplify_of_isLeaf hleaf]
        obtain ⟨value, rfl⟩ | ⟨index, rfl⟩ := isLeaf_iff.mp hleaf
        · rw [isConst, isConstant]
        · rw [isConstant]
          rfl
      · rw [Bool.not_eq_true] at hleaf
        obtain ⟨e', hfold, hleaf', hchildren⟩ := exists_simplify_eq_fold hleaf
        rw [hfold, isConst_fold hleaf', hchildren, isConstant_eq_all hleaf, List.all_map,
          Bool.eq_iff_iff, List.all_eq_true, List.all_eq_true]
        exact forall₂_congr fun c hc => by rw [Function.comp_apply, ih c hc]

theorem isConstant_iff (e : Expr) : e.isConstant = true ↔ ∀ index, ¬ Part (var index) e := by
  induction e using children_induction with
  | step e ih =>
      by_cases hleaf : e.isLeaf = true
      · constructor
        · intro hconstant index hpart
          obtain rfl := hpart.eq_of_isLeaf hleaf
          rw [isConstant] at hconstant
          cases hconstant
        · intro hpart
          obtain ⟨value, rfl⟩ | ⟨index, rfl⟩ := isLeaf_iff.mp hleaf
          · rw [isConstant]
          · exact absurd .whole (hpart index)
      · rw [Bool.not_eq_true] at hleaf
        rw [isConstant_eq_all hleaf, List.all_eq_true]
        constructor
        · intro hconstant index hpart
          cases hpart with
          | whole => cases hleaf
          | inside hc h => exact (ih _ hc).mp (hconstant _ hc) index h
        · intro hpart c hc
          exact (ih c hc).mpr fun index h => hpart index (.inside hc h)

/-- Every node of a folded tree has a child that is no constant. -/
theorem exists_not_isConst_of_part (e : Expr) (h : Part t e.simplify) (ht : t.isLeaf = false) :
    ∃ c ∈ t.children, c.isConst = false := by
  induction e using children_induction with
  | step e ih =>
      by_cases hleaf : e.isLeaf = true
      · rw [simplify_of_isLeaf hleaf] at h
        rw [h.eq_of_isLeaf hleaf, hleaf] at ht
        cases ht
      · rw [Bool.not_eq_true] at hleaf
        obtain ⟨e', hfold, -, hchildren⟩ := exists_simplify_eq_fold hleaf
        rw [hfold] at h
        unfold fold at h
        by_cases hall : e'.children.all isConst = true
        · rw [if_pos hall] at h
          rw [h.eq_of_isLeaf rfl] at ht
          cases ht
        · rw [if_neg hall] at h
          cases h with
          | whole => simpa using hall
          | inside hc h =>
              rw [hchildren] at hc
              obtain ⟨c', hc', rfl⟩ := List.mem_map.mp hc
              exact ih c' hc' h

/-- Folding leaves no node whose children are all constants.  It leaves a single constant
exactly of the trees without variables, and that is their value for all arguments.  Folding
again changes nothing. -/
theorem simplify_normal (e : Expr) :
    (∀ t, Part t e.simplify → t.isLeaf = false → ∃ c ∈ t.children, c.isConst = false) ∧
      (e.simplify.isConst = true ↔ e.isConstant = true) ∧
      (e.isConstant = true ↔ ∀ index, ¬ Part (var index) e) ∧
      (e.isConstant = true →
        ∃ value, e.simplify = const value ∧ ∀ env, SameValue (e.eval env) value) ∧
      e.simplify.simplify.isEquivalent e.simplify = true := by
  refine ⟨fun t h ht => exists_not_isConst_of_part e h ht, by rw [isConst_simplify],
    isConstant_iff e, ?_, by rw [simplify_simplify]; exact isEquivalent_refl _⟩
  intro hconstant
  rw [← isConst_simplify] at hconstant
  cases hsimple : e.simplify with
  | const value =>
      refine ⟨value, rfl, fun env => sameValue_of_eq ?_⟩
      rw [← eval_simplify env e, hsimple, eval]
  | _ =>
      rw [hsimple] at hconstant
      cases hconstant

/-- A function that ignores its argument is folded only where the argument is a constant. -/
theorem simplify_normal_call :
    (call "f" ["a"] (const 2) [ternary (const 1) (const 3) (const nan)]).isConstant = true ∧
      (∃ value, (call "f" ["a"] (const 2) [ternary (const 1) (const 3) (const nan)]).simplify =
          const value ∧
        ∀ env, SameValue
          ((call "f" ["a"] (const 2) [ternary (const 1) (const 3) (const nan)]).eval env) value) ∧
      (call "f" ["a"] (const 2) [var 0]).simplify.isConst = false := by
  have hconstant :
      (call "f" ["a"] (const 2) [ternary (const 1) (const 3) (const nan)]).isConstant = true := by
    simp [isConstant, allConstant]
  obtain ⟨-, hfolded, -⟩ := simplify_normal (call "f" ["a"] (const 2) [var 0])
  obtain ⟨-, -, -, hvalue, -⟩ :=
    simplify_normal (call "f" ["a"] (const 2) [ternary (const 1) (const 3) (const nan)])
  refine ⟨hconstant, hvalue hconstant, ?_⟩
  rw [← Bool.not_eq_true, hfolded]
  simp [isConstant, allConstant]

end FormulaPlot.Expr
