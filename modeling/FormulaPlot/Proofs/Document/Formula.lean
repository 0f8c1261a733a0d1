/-
Reading a formula again.

`reparse` keeps the tree that is there if the new one is equivalent to it, so the tree of
a formula need not be the one that its text has now.  But it is always equivalent to that
one, and that is all that anyone can see.  `Current` says so; it is what an edit has to
keep.  What the flag of `reparse` tells is then a matter of comparing the trees before and
after.
-/
import FormulaPlot.Document.Formula
import FormulaPlot.Proofs.Expr.Equivalence

namespace FormulaPlot.Formula

variable {functions : Registry} {f : Formula} {text : String}

/-! ### Trees that may be missing -/

/-- Both trees are missing, or they are equivalent. -/
abbrev SameTree : Option Expr → Option Expr → Prop := Option.Rel fun a b => a.isEquivalent b = true

variable {x y z : Option Expr}

theorem sameTree_refl (x : Option Expr) : SameTree x x := by
  cases x with
  | none => exact .none
  | some e => exact .some (Expr.isEquivalent_refl e)

theorem sameTree_symm (h : SameTree x y) : SameTree y x := by
  cases h with
  | none => exact .none
  | some h => exact .some (Expr.isEquivalent_symm h)

theorem sameTree_trans (h : SameTree x y) (h' : SameTree y z) : SameTree x z := by
  cases h with
  | none => exact h'
  | some h =>
      cases h' with
      | some h' => exact .some (Expr.isEquivalent_trans h h')

theorem eq_none_of_sameTree (h : SameTree x none) : x = none := by
  cases h
  rfl

theorem sameTree_isSome (h : SameTree x y) : x.isSome = y.isSome := by
  cases h <;> rfl

theorem sameTree_eval (h : SameTree x y) (args : List Float) :
    x.map (·.eval args) = y.map (·.eval args) := by
  cases h with
  | none => rfl
  | some h => exact congrArg some (Expr.eval_of_isEquivalent h args)

theorem sameTree_text (h : SameTree x y) (names : List String) :
    x.map (·.text names) = y.map (·.text names) := by
  cases h with
  | none => rfl
  | some h => exact congrArg some (Expr.text_of_isEquivalent h names)

theorem differs_eq_false : differs x y = false ↔ SameTree x y := by
  cases x <;> cases y <;> simp [differs, Option.rel_some_some]

/-! ### What a text is read as -/

/-- The tree of a text. -/
def treeOf (text : String) (functions : Registry) : Option Expr :=
  (readText text functions).toOption.join

/-- The error of a text. -/
def errorOf (text : String) (functions : Registry) : Option ParseError :=
  match readText text functions with
  | .ok _ => none
  | .error e => some e

theorem reparse_eq (f : Formula) (functions : Registry) :
    f.reparse functions =
      (⟨f.text,
        if differs f.expr (treeOf f.text functions) then treeOf f.text functions else f.expr,
        errorOf f.text functions⟩, differs f.expr (treeOf f.text functions)) := by
  unfold reparse treeOf errorOf
  cases readText f.text functions with
  | ok expr => rfl
  | error e => rfl

/-- A blank text has no tree and no error. -/
theorem read_of_blank (h : Text.isAllBlank text = true) (functions : Registry) :
    treeOf text functions = none ∧ errorOf text functions = none := by
  unfold treeOf errorOf readText
  rw [if_pos h]
  exact ⟨rfl, rfl⟩

/-- A text that is not blank is read by the parser. -/
theorem readText_of_not_blank (h : Text.isAllBlank text = false) (functions : Registry) :
    readText text functions = (Parser.parse text functions plotVariables).map some := by
  unfold readText
  rw [h]
  rfl

/-- A text that is not blank has either a tree or an error. -/
theorem read_of_not_blank (h : Text.isAllBlank text = false) (functions : Registry) :
    (treeOf text functions).isSome = !(errorOf text functions).isSome := by
  unfold treeOf errorOf
  rw [readText_of_not_blank h]
  cases Parser.parse text functions plotVariables <;> rfl

/-- The tree of a text is the one that the parser builds. -/
theorem parse_of_treeOf {e : Expr} (h : treeOf text functions = some e) :
    Parser.parse text functions plotVariables = .ok e := by
  cases hblank : Text.isAllBlank text with
  | true =>
      rw [(read_of_blank hblank functions).1] at h
      cases h
  | false =>
      unfold treeOf at h
      rw [readText_of_not_blank hblank] at h
      cases hparse : Parser.parse text functions plotVariables with
      | ok e' =>
          rw [hparse] at h
          cases h
          rfl
      | error error =>
          rw [hparse] at h
          cases h

theorem ofText_eq (text : String) (functions : Registry) :
    ofText text functions = ⟨text, treeOf text functions, errorOf text functions⟩ := by
  unfold ofText
  rw [reparse_eq]
  cases htree : treeOf text functions <;> simp [differs]

/-! ### The invariant -/

/-- The formula is what its text is read as, with a tree that may be any equivalent one. -/
structure Current (functions : Registry) (f : Formula) : Prop where
  error : f.error = errorOf f.text functions
  expr : SameTree f.expr (treeOf f.text functions)

theorem current_ofText (text : String) (functions : Registry) :
    Current functions (ofText text functions) := by
  rw [ofText_eq]
  exact ⟨rfl, sameTree_refl _⟩

theorem current_reparse (f : Formula) (functions : Registry) :
    Current functions (f.reparse functions).1 := by
  rw [reparse_eq]
  refine ⟨rfl, ?_⟩
  cases hdiffers : differs f.expr (treeOf f.text functions) with
  | true => exact sameTree_refl _
  | false => exact differs_eq_false.mp hdiffers

theorem current_setText (h : Current functions f) (text : String) :
    Current functions (f.setText text functions).1 := by
  unfold setText
  by_cases hsame : text = f.text
  · rw [if_pos hsame]
    exact h
  · rw [if_neg hsame]
    exact current_reparse _ functions

/-! ### Texts and flags -/

/-- A formula has the text that it is given. -/
theorem text_setText (f : Formula) (text : String) (functions : Registry) :
    (f.setText text functions).1.text = text := by
  unfold setText
  split
  · rename_i h
    exact h.symm
  · rfl

/-- The flag tells whether the tree is another one now. -/
theorem flag_reparse (f : Formula) (functions : Registry) :
    (f.reparse functions).2 = differs f.expr (f.reparse functions).1.expr := by
  rw [reparse_eq]
  cases hdiffers : differs f.expr (treeOf f.text functions) with
  | true => exact hdiffers.symm
  | false => exact (differs_eq_false.mpr (sameTree_refl f.expr)).symm

theorem flag_setText (f : Formula) (text : String) (functions : Registry) :
    (f.setText text functions).2 = differs f.expr (f.setText text functions).1.expr := by
  unfold setText
  by_cases hsame : text = f.text
  · rw [if_pos hsame]
    exact (differs_eq_false.mpr (sameTree_refl f.expr)).symm
  · rw [if_neg hsame]
    exact flag_reparse _ functions

/-! ### Before and after an edit -/

variable {f' : Formula}

/-- The formula still has a tree if it had one, with the same values bit for bit, and those are
also the values of its text, read against the functions. -/
structure Undisturbed (functions : Registry) (f f' : Formula) : Prop where
  present : f.expr.isSome = f'.expr.isSome
  value : ∀ e e', f.expr = some e → f'.expr = some e' →
    ∀ args, (e.eval args).toBits = (e'.eval args).toBits
  fresh : ∀ e', f'.expr = some e' → ∃ e₀, Parser.parse f'.text functions plotVariables = .ok e₀ ∧
    ∀ args, (e'.eval args).toBits = (e₀.eval args).toBits

/-- The formula gained or lost its tree, or has a tree that is not equivalent to the old one. -/
def Disturbed (f f' : Formula) : Prop :=
  f.expr.isSome ≠ f'.expr.isSome ∨
    ∃ e e', f.expr = some e ∧ f'.expr = some e' ∧ e.isEquivalent e' = false

theorem disturbed_of_differs (h : differs f.expr f'.expr = true) : Disturbed f f' := by
  unfold Disturbed
  revert h
  cases f.expr with
  | none =>
      cases f'.expr with
      | none => exact fun h => nomatch h
      | some e' => exact fun _ => .inl (by simp)
  | some e =>
      cases f'.expr with
      | none => exact fun _ => .inl (by simp)
      | some e' => exact fun h => .inr ⟨e, e', rfl, rfl, by simpa [differs] using h⟩

/-- A tree that was replaced by no other has the values that its text has. -/
theorem undisturbed_of_sameTree (h : SameTree f.expr f'.expr) (hcurrent : Current functions f') :
    Undisturbed functions f f' := by
  refine ⟨sameTree_isSome h, fun e e' he he' args => ?_, fun e' he' => ?_⟩
  · rw [he, he'] at h
    cases h with
    | some h => rw [Expr.eval_of_isEquivalent h args]
  · have hexpr := hcurrent.expr
    rw [he'] at hexpr
    cases htree : treeOf f'.text functions with
    | none =>
        rw [htree] at hexpr
        cases hexpr
    | some e₀ =>
        rw [htree] at hexpr
        cases hexpr with
        | some hexpr =>
            refine ⟨e₀, parse_of_treeOf htree, fun args => ?_⟩
            rw [Expr.eval_of_isEquivalent hexpr args]

end FormulaPlot.Formula
