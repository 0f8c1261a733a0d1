/-
What a reading says of the functions that it asks for.

A reading speaks ill of a function only if it asked for it and got none.  Then it fails at
once, and where it fails does not depend on why there was none.  All other faults are about
the formula itself.
-/
import Mathlib
import FormulaPlot.Parser.Definition
import FormulaPlot.Proofs.Parser.Similarity

namespace FormulaPlot

/-- The cause is about the formula itself and not about a function that it calls. -/
def Cause.own : Cause → Bool
  | calleeHasErrors _ | recursive _ | unknownFunction _ => false
  | _ => true

/-- The function of the same block that the cause puts the blame on. -/
def Cause.blamed? : Cause → Option String
  | calleeHasErrors name | recursive name => some name
  | _ => none

theorem Cause.blamed?_of_own {cause : Cause} (h : cause.own = true) : cause.blamed? = none := by
  cases cause with
  | calleeHasErrors | recursive => cases h
  | _ => rfl

namespace Inquiry

variable {α β : Type}

/-- Asking is the only way to a fault about a function, and the way to only one. -/
inductive Honest {α : Type} : Inquiry α → Prop
  | done {result : Except Fault α}
      (own : ∀ fault, result = .error fault → fault.cause.own = true) : Honest (.done result)
  | ask (name : String) (column : Nat) {next : Answer → Inquiry α}
      (found : ∀ f, Honest (next (.found f)))
      (other : ∀ answer cause, answer.cause? name = some cause →
        next answer = .done (.error ⟨cause, column⟩)) : Honest (.ask name next)

theorem Honest.pure (a : α) : Honest (pure a) := .done (by simp)

theorem Honest.fail {fault : Fault} (h : fault.cause.own = true) :
    Honest (fail fault : Inquiry α) := by
  refine .done fun fault' heq => ?_
  cases heq
  exact h

theorem Honest.bind {m : Inquiry α} {f : α → Inquiry β} (hm : m.Honest)
    (hf : ∀ a, (f a).Honest) : (m >>= f).Honest := by
  rw [bind_def]
  induction hm with
  | @done result own =>
      cases result with
      | ok a => exact hf a
      | error fault => exact .fail (own fault rfl)
  | ask name column _ other ih =>
      refine .ask name column ih fun answer cause hcause => ?_
      rw [other answer cause hcause]
      rfl

/-- The second reading gets a value and the tokens that are left. -/
theorem Honest.next {m : Inquiry (α × List Token)} {k : α × List Token → Inquiry β}
    (hm : m.Honest) (hk : ∀ a ts, (k (a, ts)).Honest) : (m >>= k).Honest :=
  hm.bind fun x => hk x.1 x.2

/-- Against a registry no function is blamed; at worst the registry does not have it. -/
theorem Honest.against {m : Inquiry α} (hm : m.Honest) {r : Registry} {fault : Fault}
    (h : m.against r = .error fault) : fault.cause.blamed? = none := by
  induction hm with
  | done own => exact Cause.blamed?_of_own (own fault h)
  | @ask name column next _ other ih =>
      rw [Inquiry.against] at h
      cases hget : r.get? name with
      | some f =>
          rw [hget] at h
          exact ih f h
      | none =>
          rw [hget] at h
          dsimp only at h
          rw [other .missing _ rfl] at h
          cases h
          rfl

end Inquiry

namespace Parser

open Inquiry

variable {α : Type}

/-- The reader gives honest readings only. -/
def HonestReader (reader : Reader α) : Prop := ∀ ts, (reader ts).Honest

/-! ### The steps of a reader -/

theorem honest_failAt (ts : List Token) {cause : Cause} (h : cause.own = true) :
    (failAt ts cause : Inquiry α).Honest := .fail h

theorem honest_moveTo (ts : List Token) : (moveTo ts).Honest := by
  unfold moveTo
  split
  · exact honest_failAt ts rfl
  · exact .pure ts

theorem honest_expect (sym : Symbol) (ts : List Token) : (expect sym ts).Honest := by
  unfold expect
  split
  · exact honest_moveTo _
  · exact honest_failAt ts rfl

/-! ### Calls -/

theorem honest_callee (name : String) (column : Nat) : (callee name column).Honest := by
  unfold callee
  cases Intrinsic.ofName? name with
  | some f => exact .pure _
  | none =>
      refine .ask name column (fun f => .pure _) fun answer cause hcause => ?_
      cases answer <;> cases hcause <;> rfl

variable {operand : Reader Expr}

theorem honest_operands (hoperand : HonestReader operand) (fuel : Nat) :
    HonestReader (operands operand fuel) := by
  induction fuel with
  | zero =>
      intro ts
      rw [operands]
      refine (hoperand ts).next fun first ts => ?_
      dsimp only
      split
      · exact .pure _
      · exact honest_failAt ts rfl
  | succ fuel ih =>
      intro ts
      rw [operands]
      refine (hoperand ts).next fun first ts => ?_
      dsimp only
      split
      · exact .pure _
      · exact (honest_moveTo _).bind fun ts => (ih ts).bind fun _ => .pure _

theorem honest_call (hoperand : HonestReader operand) (name : String) (column : Nat) :
    HonestReader (call operand name column) := by
  intro ts
  unfold call
  refine (honest_callee name column).bind fun f => ?_
  refine (honest_expect _ _).bind fun ts => ?_
  refine (honest_operands hoperand _ ts).next fun args ts => ?_
  refine (honest_expect _ _).bind fun ts => ?_
  split
  · exact .pure _
  · exact .fail rfl

theorem honest_resolve (hoperand : HonestReader operand) (names : List String) (name : String)
    (column : Nat) : HonestReader (resolve operand names name column) := by
  intro ts
  unfold resolve
  split
  · exact .pure _
  · split
    · exact .pure _
    · split
      · exact honest_call hoperand name column ts
      · exact .fail rfl

/-! ### Expressions -/

variable {names : List String} {d : Nat}

theorem honest_atom (hternary : HonestReader (ternary names d)) :
    HonestReader (atom names d) := by
  intro ts
  rw [atom.eq_def]
  split
  · exact (honest_moveTo _).bind fun _ => .pure _
  · exact (honest_moveTo _).bind fun ts => honest_resolve hternary names _ _ ts
  · split
    · exact honest_failAt _ rfl
    · refine (honest_moveTo _).bind fun ts => ?_
      refine (hternary ts).next fun inner ts => ?_
      exact (honest_expect _ _).bind fun _ => .pure _

theorem honest_unary (hatom : HonestReader (atom names d))
    (hunary : ∀ less, d = less + 1 → HonestReader (unary names less)) :
    HonestReader (unary names d) := by
  intro ts
  rw [unary]
  split
  · exact hatom ts
  · refine (honest_moveTo _).bind fun ts => ?_
    cases d with
    | zero => exact honest_failAt ts rfl
    | succ less => exact (hunary less rfl ts).bind fun _ => .pure _

/-- The loop over operators, from any tree. -/
def HonestLoop (names : List String) (d : Nat) : Prop :=
  ∀ min left, HonestReader (folds names d min left)

theorem honest_folds
    (hless : ∀ less, d = less + 1 →
      (∀ min, HonestReader (binary names less min)) ∧ HonestLoop names less) :
    HonestLoop names d := by
  intro min left ts
  rw [folds]
  split
  · exact .pure _
  · split
    · exact .pure _
    · refine (honest_moveTo _).bind fun ts => ?_
      cases d with
      | zero => exact honest_failAt ts rfl
      | succ less =>
          obtain ⟨hbinary, hfolds⟩ := hless less rfl
          exact (hbinary _ ts).next fun right ts => hfolds min _ ts

theorem honest_binary (hunary : HonestReader (unary names d)) (hfolds : HonestLoop names d)
    (min : Precedence) : HonestReader (binary names d min) := by
  intro ts
  rw [binary]
  exact (hunary ts).next fun left ts => hfolds min left ts

theorem honest_ternary_succ (hbinary : ∀ min, HonestReader (binary names d min))
    (hternary : HonestReader (ternary names d)) : HonestReader (ternary names (d + 1)) := by
  intro ts
  rw [ternary]
  refine (hbinary _ ts).next fun cond ts => ?_
  dsimp only
  split
  · exact .pure _
  · refine (honest_moveTo _).bind fun ts => ?_
    refine (hbinary _ ts).next fun yes ts => ?_
    refine (honest_expect _ _).bind fun ts => ?_
    exact (hternary ts).bind fun _ => .pure _

theorem honest_ternary (names : List String) (d : Nat) : HonestReader (ternary names d) := by
  refine (levels_induction (T := fun d => HonestReader (ternary names d))
    (A := fun d => HonestReader (atom names d)) (U := fun d => HonestReader (unary names d))
    (F := HonestLoop names) (B := fun d => ∀ min, HonestReader (binary names d min))
    ?_ ?_ ?_ ?_ ?_ ?_ ?_ ?_ d).1
  · intro ts
    rw [ternary]
    exact honest_failAt ts rfl
  · exact fun d => honest_atom
  · exact fun hatom => honest_unary hatom (by simp)
  · exact honest_folds (by simp)
  · exact fun d => honest_binary
  · exact fun d => honest_ternary_succ
  · exact fun d hunary hatom => honest_unary hatom fun less h => by cases h; exact hunary
  · exact fun d hbinary hfolds => honest_folds fun less h => by cases h; exact ⟨hbinary, hfolds⟩

/-- A whole formula is read honestly. -/
theorem honest_topLevel (names : List String) (ts : List Token) :
    (topLevel names ts).Honest := by
  unfold topLevel
  refine (honest_moveTo ts).bind fun ts => ?_
  refine (honest_ternary names maxDepth ts).next fun inner ts => ?_
  dsimp only
  have hfinish : ∀ e : Expr, ∀ ts : List Token,
      (if atFinish ts then pure e else failAt ts .unexpectedToken : Inquiry Expr).Honest := by
    intro e ts
    split
    · exact .pure e
    · exact honest_failAt ts rfl
  split
  · exact hfinish _ _
  · refine (honest_moveTo _).bind fun ts => ?_
    split
    · refine (honest_moveTo _).bind fun ts => ?_
      exact (honest_ternary names maxDepth ts).next fun cond ts => hfinish _ ts
    · exact Honest.next (honest_failAt _ rfl) hfinish

/-! ### Headers -/

theorem honest_parameters_of_length (n : Nat) (seen : List String) {ts : List Token}
    (hn : ts.length ≤ n) : (parameters seen ts).Honest := by
  induction n generalizing seen ts with
  | zero =>
      obtain rfl := List.length_eq_zero_iff.mp (Nat.le_zero.mp hn)
      unfold parameters
      exact honest_failAt [] rfl
  | succ n ih =>
      cases ts with
      | nil =>
          unfold parameters
          exact honest_failAt [] rfl
      | cons t us =>
          obtain ⟨kind, lexeme, start, column⟩ := t
          unfold parameters
          cases kind with
          | ident name =>
              dsimp only
              split
              · exact .fail rfl
              · refine (honest_moveTo us).bind fun _ => ?_
                split
                · rename_i rest
                  have hrest : rest.length ≤ n := by
                    simp only [List.length_cons] at hn
                    omega
                  exact (honest_moveTo rest).bind fun _ => (ih _ hrest).bind fun _ => .pure _
                · exact .pure _
          | _ => exact honest_failAt _ rfl

theorem honest_parameters (seen : List String) : HonestReader (parameters seen) :=
  fun ts => honest_parameters_of_length ts.length seen (Nat.le_refl _)

theorem honest_signature (taken : String → Bool) (name : String) (column : Nat) :
    HonestReader (signature taken name column) := by
  intro ts
  have hname : (checkName taken name column).Honest := by
    unfold checkName
    split
    · exact .fail rfl
    · split
      · exact .fail rfl
      · split
        · exact .fail rfl
        · exact .pure ()
  unfold signature
  refine hname.bind fun _ => (honest_moveTo _).bind fun ts => ?_
  refine (honest_expect _ _).bind fun ts => ?_
  refine (honest_parameters [] ts).next fun params ts => ?_
  refine (honest_expect _ _).bind fun ts => ?_
  exact (honest_expect _ _).bind fun _ => .pure _

end Parser

end FormulaPlot
