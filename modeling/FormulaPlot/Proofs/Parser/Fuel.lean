/-
More fuel changes nothing.

Fuel only bounds how many calls of a walk may be inside of one another.  What a walk does next is
told by its cursor, never by its fuel, so a walk that comes to an end with some fuel comes to the
same end with more.  This holds of all walks together, since they call one another, and it is
shown with one call after the other: a walk with one more unit calls the others with one more.
-/
import FormulaPlot.Parser.Cursor

namespace FormulaPlot.Parser

namespace Walk

variable {σ α β : Type}

/-! ### Steps of a run -/

theorem run_bind (walk : Walk σ α) (f : α → Walk σ β) (state : Cursor × σ) :
    (walk >>= f) state =
      match walk state with
      | some (.ok a, state) => f a state
      | some (.error fault, state) => some (.error fault, state)
      | none => none := by
  show (walk state).bind _ = _
  cases walk state with
  | none => rfl
  | some outcome =>
      obtain ⟨outcome, state⟩ := outcome
      cases outcome <;> rfl

theorem run_enter (c : Cursor) (s : σ) :
    enter (c, s) =
      if c.depth < maxDepth then some (.ok (), c.atDepth (c.depth + 1), s)
      else some (.error ⟨.tooDeep, c.token.column⟩, c, s) := by
  show (if c.depth < maxDepth then goTo (c.atDepth (c.depth + 1))
    else refuse .tooDeep : Walk σ Unit) (c, s) = _
  split <;> rfl

theorem run_nested (walk : Walk σ α) (c : Cursor) (s : σ) :
    nested walk (c, s) =
      if c.depth < maxDepth then
        (walk (c.atDepth (c.depth + 1), s)).map fun (outcome, c', s) =>
          (outcome, c'.atDepth (c'.depth - 1), s)
      else some (.error ⟨.tooDeep, c.token.column⟩, c, s) := by
  show (enter (c, s)).bind _ = _
  rw [run_enter]
  split
  · show (walk (c.atDepth (c.depth + 1), s)).bind _ = _
    cases walk (c.atDepth (c.depth + 1), s) <;> rfl
  · rfl

/-! ### Walks that come to the same end -/

/-- Wherever the first walk comes to an end, the second comes to the same end. -/
def Under (walk walk' : Walk σ α) : Prop :=
  ∀ state last, walk state = some last → walk' state = some last

variable {walk walk' : Walk σ α} {f f' : α → Walk σ β}

theorem Under.refl {walk : Walk σ α} : Under walk walk := fun _ _ h => h

theorem Under.trans {walk'' : Walk σ α} (h : Under walk walk') (h' : Under walk' walk'') :
    Under walk walk'' :=
  fun state last hwalk => h' state last (h state last hwalk)

theorem exhausted_under : Under exhausted walk := fun _ _ h => nomatch h

theorem Under.bind (h : Under walk walk') (hnext : ∀ a, Under (f a) (f' a)) :
    Under (walk >>= f) (walk' >>= f') := by
  intro state last hlast
  rw [run_bind] at hlast ⊢
  cases hwalk : walk state with
  | none =>
      rw [hwalk] at hlast
      cases hlast
  | some first =>
      rw [hwalk] at hlast
      rw [h state first hwalk]
      obtain ⟨outcome, middle⟩ := first
      cases outcome with
      | ok a => exact hnext a middle last hlast
      | error fault => exact hlast

theorem Under.nested (h : Under walk walk') : Under (nested walk) (nested walk') := by
  rintro ⟨c, s⟩ last hlast
  rw [run_nested] at hlast ⊢
  split at hlast
  next hdepth =>
    obtain ⟨inner, hinner, rfl⟩ := Option.map_eq_some_iff.mp hlast
    rw [if_pos hdepth, h _ inner hinner, Option.map_some]
  next hdepth => rw [if_neg hdepth, hlast]

theorem Under.ite {p : Prop} [Decidable p] {other other' : Walk σ α} (h : Under walk walk')
    (hother : Under other other') :
    Under (if p then walk else other) (if p then walk' else other') := by
  split
  · exact h
  · exact hother

/-! ### All walks with one more unit of fuel -/

variable (answer : String → σ → Answer × σ) (names : List String)

/-- Every walk comes to the same end with one more unit of fuel. -/
structure Lasts (fuel : Nat) : Prop where
  ternary : Under (ternary answer names fuel) (ternary answer names (fuel + 1))
  binary : ∀ min, Under (binary answer names fuel min) (binary answer names (fuel + 1) min)
  folds : ∀ min left,
    Under (folds answer names fuel min left) (folds answer names (fuel + 1) min left)
  unary : Under (unary answer names fuel) (unary answer names (fuel + 1))
  atom : Under (atom answer names fuel) (atom answer names (fuel + 1))
  resolve : ∀ name column,
    Under (resolve answer names fuel name column) (resolve answer names (fuel + 1) name column)
  call : ∀ name column,
    Under (call answer names fuel name column) (call answer names (fuel + 1) name column)
  operands : Under (operands answer names fuel) (operands answer names (fuel + 1))

variable {answer names} {fuel : Nat}

theorem lasts_zero : Lasts answer names 0 where
  ternary := exhausted_under
  binary _ := exhausted_under
  folds _ _ := exhausted_under
  unary := exhausted_under
  atom := exhausted_under
  resolve _ _ := exhausted_under
  call _ _ := exhausted_under
  operands := exhausted_under

theorem Lasts.succ (h : Lasts answer names fuel) : Lasts answer names (fuel + 1) where
  ternary := by
    rw [Walk.ternary, Walk.ternary]
    refine .nested (.bind (h.binary _) fun cond => .bind .refl fun c => .ite ?_ .refl)
    refine .bind .refl fun _ => .bind (h.binary _) fun yes => .bind .refl fun _ => ?_
    exact .bind h.ternary fun no => .refl
  binary min := by
    rw [Walk.binary, Walk.binary]
    exact .bind .refl fun c => .bind h.unary fun left => .bind (h.folds min left) fun e => .refl
  folds min left := by
    rw [Walk.folds, Walk.folds]
    refine .bind .refl fun c => ?_
    cases c.symbol?.bind BinaryOp.ofSymbol? with
    | none => exact .refl
    | some op =>
        refine .ite .refl (.bind .refl fun _ => .bind .refl fun _ => ?_)
        exact .bind (h.binary _) fun right => h.folds min _
  unary := by
    rw [Walk.unary, Walk.unary]
    refine .bind .refl fun c => ?_
    cases c.symbol?.bind UnaryOp.ofSymbol? with
    | none => exact h.atom
    | some op => exact .bind .refl fun _ => .bind h.unary.nested fun operand => .refl
  atom := by
    rw [Walk.atom, Walk.atom]
    refine .bind .refl fun c => ?_
    dsimp only
    split
    · exact .refl
    · exact .bind .refl fun _ => h.resolve _ _
    · exact .bind .refl fun _ => .bind h.ternary fun inner => .refl
    · exact .refl
  resolve name column := by
    rw [Walk.resolve, Walk.resolve]
    cases names.idxOf? name with
    | some index => exact .refl
    | none =>
        cases Constant.value? name with
        | some value => exact .refl
        | none => exact .bind .refl fun c => .ite (h.call name column) .refl
  call name column := by
    rw [Walk.call, Walk.call]
    exact .bind .refl fun f => .bind .refl fun _ => .bind h.operands fun args => .refl
  operands := by
    rw [Walk.operands, Walk.operands]
    refine .bind h.ternary fun first => .bind .refl fun c => .ite ?_ .refl
    exact .bind .refl fun _ => .bind h.operands fun others => .refl

theorem lasts (answer : String → σ → Answer × σ) (names : List String) (fuel : Nat) :
    Lasts answer names fuel := by
  induction fuel with
  | zero => exact lasts_zero
  | succ fuel ih => exact ih.succ

end Walk

/-! ### Routines -/

/-- The walks through an expression. -/
inductive Routine
  | ternary
  | binary (min : Precedence)
  | unary
  | atom

variable {σ : Type} (answer : String → σ → Answer × σ) (names : List String)

/-- The walk of a routine. -/
def Routine.walk (fuel : Nat) : Routine → Walk σ Expr
  | ternary => Walk.ternary answer names fuel
  | binary min => Walk.binary answer names fuel min
  | unary => Walk.unary answer names fuel
  | atom => Walk.atom answer names fuel

variable {fuel fuel' : Nat}

/-- A walk that comes to an end comes to the same end with more fuel. -/
theorem Routine.walk_under (routine : Routine) (hle : fuel ≤ fuel') :
    Walk.Under (routine.walk answer names fuel) (routine.walk answer names fuel') := by
  induction hle with
  | refl => exact .refl
  | @step fuel' _ ih =>
      have h := Walk.lasts answer names fuel'
      refine ih.trans ?_
      cases routine with
      | ternary => exact h.ternary
      | binary min => exact h.binary min
      | unary => exact h.unary
      | atom => exact h.atom

theorem topLevel_under (hle : fuel ≤ fuel') :
    Walk.Under (Walk.topLevel answer names fuel) (Walk.topLevel answer names fuel') := by
  have hternary : Walk.Under (Walk.ternary answer names fuel) (Walk.ternary answer names fuel') :=
    Routine.walk_under answer names .ternary hle
  unfold Walk.topLevel
  refine .bind .refl fun _ => .bind hternary fun inner => .bind .refl fun c => ?_
  refine .ite (.bind .refl fun _ => .bind .refl fun c => .ite ?_ .refl) .refl
  exact .bind .refl fun _ => .bind hternary fun cond => .refl

end FormulaPlot.Parser
