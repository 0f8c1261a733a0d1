/-
What the small parts of the parser do.

The readers of expressions are put together from a few steps: look at the next
token, take it, and refuse the formula if the token after it is an error.  This file
says of each step when it succeeds and what it leaves, so that nothing later has to
look inside.

The readers themselves call one another.  `levels_induction` is that pattern of
calls, once and for all: what holds of every reader is proved by showing it of one
reader at a time, from the readers that it calls.
-/
import FormulaPlot.Proofs.Grammar

namespace FormulaPlot

namespace Inquiry

variable {α β : Type}

/-- A reading in two parts succeeds if both parts do. -/
theorem against_bind_eq_ok {r : Registry} {m : Inquiry α} {f : α → Inquiry β} {b : β} :
    (m >>= f).against r = .ok b ↔ ∃ a, m.against r = .ok a ∧ (f a).against r = .ok b := by
  rw [against_bind]
  cases m.against r with
  | error fault =>
      show Except.error fault = Except.ok b ↔ _
      simp
  | ok a =>
      show (f a).against r = .ok b ↔ _
      simp

theorem against_pure_eq_ok {r : Registry} {a b : α} :
    (pure a : Inquiry α).against r = .ok b ↔ a = b := by
  rw [against_pure]
  simp

end Inquiry

namespace Parser

open Token (Kind)
open Inquiry (fail)

variable {r : Registry} {ts us rest : List Token}

/-! ### Tokens -/

/-- What the tokens are, wherever they stand. -/
abbrev kinds (ts : List Token) : List Kind := ts.map Token.kind

/-- The token that comes next is no error. -/
def Clear (ts : List Token) : Prop := ts.head?.bind Token.error? = none

theorem clear_cons {t : Token} : Clear (t :: ts) ↔ t.error? = none := by
  simp [Clear]

theorem error?_eq_none {t : Token} (h : Grammar.Proper t.kind) : t.error? = none := by
  unfold Token.error?
  split
  · rename_i e he
    rw [he] at h
    exact absurd h id
  · rfl

/-- Nothing stops the parser among proper tokens. -/
theorem clear_append {ks : List Kind} (hts : kinds ts = ks) (hproper : ∀ k ∈ ks, Grammar.Proper k)
    (hrest : Clear rest) : Clear (ts ++ rest) := by
  subst hts
  cases ts with
  | nil => exact hrest
  | cons t ts =>
      rw [List.cons_append, clear_cons]
      exact error?_eq_none (hproper _ List.mem_cons_self)

theorem after?_eq_some {sym : Symbol} :
    after? sym ts = some rest ↔ ∃ t, ts = t :: rest ∧ t.kind = .symbol sym := by
  fun_cases after? sym ts with
  | case1 => simp [and_comm]
  | case2 s _ _ _ us h => simp [h]
  | case3 us h =>
      simp only [false_iff, reduceCtorEq]
      intro hread
      obtain ⟨⟨_, _, _, _⟩, rfl, rfl⟩ := hread
      exact h _ _ _ _ _ rfl

/-- The step looks at the kind of the next token alone, and takes the token if its kind
means something. -/
def ByKind {β : Type} (step : List Token → Option (β × List Token)) (meaning : Kind → Option β) :
    Prop :=
  ∀ ts, step ts = (ts.head?.bind fun t => meaning t.kind).map fun b => (b, ts.tail)

theorem ByKind.eq_some {β : Type} {step : List Token → Option (β × List Token)}
    {meaning : Kind → Option β} (h : ByKind step meaning) {b : β} :
    step ts = some (b, rest) ↔ ∃ t, ts = t :: rest ∧ meaning t.kind = some b := by
  rw [h]
  cases ts with
  | nil => simp
  | cons t us =>
      simp only [List.head?_cons, Option.bind_some, List.tail_cons, Option.map_eq_some_iff,
        Prod.mk.injEq, List.cons.injEq]
      refine ⟨?_, ?_⟩
      · intro hread
        obtain ⟨_, hb, rfl, rfl⟩ := hread
        exact ⟨t, ⟨rfl, rfl⟩, hb⟩
      · intro hread
        obtain ⟨_, ⟨rfl, rfl⟩, hb⟩ := hread
        exact ⟨b, hb, rfl, rfl⟩

theorem ByKind.cons_eq_none {β : Type} {step : List Token → Option (β × List Token)}
    {meaning : Kind → Option β} (h : ByKind step meaning) {t : Token}
    (hno : meaning t.kind = none) : step (t :: ts) = none := by
  rw [h, List.head?_cons, Option.bind_some, hno]
  rfl

/-- The name that a token is. -/
def name? : Kind → Option String
  | .ident name => some name
  | _ => none

theorem name?_eq_some {kind : Kind} {name : String} :
    name? kind = some name ↔ kind = .ident name := by
  cases kind <;> simp [name?]

/-- The symbol that a token is. -/
def symbol? : Kind → Option Symbol
  | .symbol sym => some sym
  | _ => none

theorem symbol?_eq_some {kind : Kind} {sym : Symbol} :
    symbol? kind = some sym ↔ kind = .symbol sym := by
  cases kind <;> simp [symbol?]

theorem byKind_ident? : ByKind ident? name? := by
  intro ts
  cases ts with
  | nil => rfl
  | cons t us =>
      obtain ⟨kind, _, _, _⟩ := t
      cases kind <;> rfl

theorem byKind_unaryOp? : ByKind unaryOp? fun kind => (symbol? kind).bind UnaryOp.ofSymbol? := by
  intro ts
  cases ts with
  | nil => rfl
  | cons t us =>
      obtain ⟨kind, _, _, _⟩ := t
      cases kind <;> rfl

theorem byKind_binaryOp? : ByKind binaryOp? fun kind => (symbol? kind).bind BinaryOp.ofSymbol? := by
  intro ts
  cases ts with
  | nil => rfl
  | cons t us =>
      obtain ⟨kind, _, _, _⟩ := t
      cases kind <;> rfl

theorem ident?_eq_some {name : String} :
    ident? ts = some (name, rest) ↔ ∃ t, ts = t :: rest ∧ t.kind = .ident name := by
  simp only [byKind_ident?.eq_some, name?_eq_some]

theorem unaryOp?_eq_some {op : UnaryOp} :
    unaryOp? ts = some (op, rest) ↔
      ∃ t sym, ts = t :: rest ∧ t.kind = .symbol sym ∧ UnaryOp.ofSymbol? sym = some op := by
  simp only [byKind_unaryOp?.eq_some, Option.bind_eq_some_iff, symbol?_eq_some, exists_and_left]

theorem binaryOp?_eq_some {op : BinaryOp} :
    binaryOp? ts = some (op, rest) ↔
      ∃ t sym, ts = t :: rest ∧ t.kind = .symbol sym ∧ BinaryOp.ofSymbol? sym = some op := by
  simp only [byKind_binaryOp?.eq_some, Option.bind_eq_some_iff, symbol?_eq_some, exists_and_left]

theorem atFinish_eq_true : atFinish ts = true ↔ ∃ t rest, ts = t :: rest ∧ t.kind = .finish := by
  fun_cases atFinish ts with
  | case1 => simp
  | case2 us h =>
      simp only [Bool.false_eq_true, false_iff]
      intro hread
      obtain ⟨⟨_, _, _, _⟩, rest, rfl, rfl⟩ := hread
      exact h _ _ _ _ rfl

/-! ### What comes after an operand -/

/-- No operator comes next, or one that binds less strongly. -/
def Stops (min : Precedence) (ts : List Token) : Prop :=
  ∀ op us, binaryOp? ts = some (op, us) → op.precedence < min

/-- No operator comes next, or one that takes an operand of the layer on its left. -/
def Follows (p : Precedence) (ts : List Token) : Prop :=
  ∀ op us, binaryOp? ts = some (op, us) → op.leftMin ≤ p

theorem stops_rightMin_iff {op : BinaryOp} : Stops op.rightMin ts ↔ Follows op.precedence ts :=
  forall₃_congr fun next _ _ => Grammar.lt_rightMin_iff op next

/-- Every operator takes a unary operand. -/
theorem follows_unary (ts : List Token) : Follows .unary ts := by
  intro op us _
  cases op <;> decide

/-! ### Taking tokens -/

@[simp] theorem against_failAt {α : Type} (cause : Cause) :
    (failAt ts cause : Inquiry α).against r = .error ⟨cause, column ts⟩ := rfl

theorem against_moveTo_eq_ok : (moveTo ts).against r = .ok us ↔ Clear ts ∧ us = ts := by
  unfold moveTo Clear
  split
  · rename_i e he
    simp [he]
  · rename_i he
    rw [Inquiry.against_pure_eq_ok]
    simp [he, eq_comm]

theorem against_expect_eq_ok {sym : Symbol} :
    (expect sym ts).against r = .ok us ↔
      ∃ t, ts = t :: us ∧ t.kind = .symbol sym ∧ Clear us := by
  unfold expect
  split
  · rename_i rest hafter
    obtain ⟨t, rfl, ht⟩ := after?_eq_some.mp hafter
    rw [against_moveTo_eq_ok]
    refine ⟨?_, ?_⟩
    · intro hread
      obtain ⟨hclear, rfl⟩ := hread
      exact ⟨t, rfl, ht, hclear⟩
    · intro hread
      obtain ⟨t', heq, -, hclear⟩ := hread
      obtain ⟨-, rfl⟩ := List.cons.inj heq
      exact ⟨hclear, rfl⟩
  · rename_i hnone
    simp only [against_failAt, reduceCtorEq, false_iff]
    intro hread
    obtain ⟨t, rfl, ht, -⟩ := hread
    rw [after?_eq_some.mpr ⟨t, rfl, ht⟩] at hnone
    exact absurd hnone (by simp)

/-- A callee is found exactly where the grammar lets the name call something. -/
theorem against_callee_eq_ok (names : List String) {name : String} {col : Nat} {f : Callee} :
    (callee name col).against r = .ok f ↔ Grammar.Scope.Calls ⟨names, r⟩ name f := by
  unfold callee
  cases hin : Intrinsic.ofName? name with
  | some g =>
      rw [Inquiry.against_pure_eq_ok]
      refine ⟨?_, ?_⟩
      · rintro rfl
        exact .intrinsic hin
      · intro hcall
        cases hcall with
        | intrinsic h => rw [hin] at h; cases h; rfl
        | user hno h => rw [hin] at hno; cases hno
  | none =>
      rw [Inquiry.against_bind_eq_ok]
      simp only [Inquiry.request, Inquiry.against, Inquiry.against_pure]
      cases hget : r.get? name with
      | some g =>
          simp only [Except.ok.injEq, exists_eq_left', Inquiry.against_pure]
          refine ⟨?_, ?_⟩
          · rintro rfl
            exact .user hin hget
          · intro hcall
            cases hcall with
            | intrinsic h => rw [hin] at h; cases h
            | user hno h => rw [hget] at h; cases h; rfl
      | none =>
          simp only [Except.ok.injEq, exists_eq_left', Inquiry.against_fail, reduceCtorEq,
            false_iff]
          intro hcall
          cases hcall with
          | intrinsic h => rw [hin] at h; cases h
          | user hno h => rw [hget] at h; cases h

/-! ### Taking phrases

What the tokens and the trees of a successful reading have to do with each other, one
reader at a time.
-/

variable {names : List String} {operand : Reader Expr} {d : Nat} {e : Expr}

theorem against_operands_eq_ok {fuel : Nat} {args : List Expr} :
    (operands operand fuel ts).against r = .ok (args, rest) ↔
      ∃ first us, (operand ts).against r = .ok (first, us) ∧
        (after? .comma us = none ∧ args = [first] ∧ rest = us ∨
          ∃ vs less others, after? .comma us = some vs ∧ fuel = less + 1 ∧ Clear vs ∧
            (operands operand less vs).against r = .ok (others, rest) ∧
            args = first :: others) := by
  rw [operands, Inquiry.against_bind_eq_ok]
  simp only [Prod.exists]
  refine exists₂_congr fun first us => and_congr_right fun _ => ?_
  cases hcomma : after? .comma us with
  | none => simp [eq_comm]
  | some vs =>
      cases fuel with
      | zero => simp
      | succ less =>
          simp only [Inquiry.against_bind_eq_ok, against_moveTo_eq_ok, Prod.exists,
            Inquiry.against_pure_eq_ok, Prod.mk.injEq]
          refine ⟨?_, ?_⟩
          · intro hread
            obtain ⟨vs, ⟨hclear, rfl⟩, others, _, h, rfl, rfl⟩ := hread
            exact .inr ⟨vs, less, others, rfl, rfl, hclear, h, rfl⟩
          · intro hread
            rcases hread with ⟨h, -⟩ | ⟨_, _, others, ⟨⟩, ⟨⟩, hclear, h, rfl⟩
            · cases h
            · exact ⟨vs, ⟨hclear, rfl⟩, others, rest, h, rfl, rfl⟩

theorem against_call_eq_ok (names : List String) {name : String} {col : Nat} :
    (call operand name col ts).against r = .ok (e, rest) ↔
      ∃ f us args vs, Grammar.Scope.Calls ⟨names, r⟩ name f ∧
        (expect .openParen ts).against r = .ok us ∧
        (operands operand us.length us).against r = .ok (args, vs) ∧
        (expect .closeParen vs).against r = .ok rest ∧
        args.length = f.arity ∧ e = f.applyTo args := by
  simp only [call, Inquiry.against_bind_eq_ok, against_callee_eq_ok names, Prod.exists]
  refine exists_congr fun f => ?_
  refine ⟨?_, ?_⟩
  · intro hread
    obtain ⟨hf, us, hopen, args, vs, hargs, ws, hclose, h⟩ := hread
    by_cases harity : args.length = f.arity
    · rw [if_pos harity, Inquiry.against_pure_eq_ok] at h
      obtain ⟨rfl, rfl⟩ := Prod.mk.inj h
      exact ⟨us, args, vs, hf, hopen, hargs, hclose, harity, rfl⟩
    · rw [if_neg harity] at h
      cases h
  · intro hread
    obtain ⟨us, args, vs, hf, hopen, hargs, hclose, harity, rfl⟩ := hread
    refine ⟨hf, us, hopen, args, vs, hargs, rest, hclose, ?_⟩
    rw [if_pos harity, Inquiry.against_pure]

theorem against_resolve_eq_ok {name : String} {col : Nat} :
    (resolve operand names name col ts).against r = .ok (e, rest) ↔
      (∃ i, names.idxOf? name = some i ∧ e = .var i ∧ rest = ts) ∨
      (∃ value, names.idxOf? name = none ∧ Constant.value? name = some value ∧
        e = .const value ∧ rest = ts) ∨
      (names.idxOf? name = none ∧ Constant.value? name = none ∧
        (call operand name col ts).against r = .ok (e, rest)) := by
  unfold resolve
  cases hvar : names.idxOf? name with
  | some i => simp [eq_comm]
  | none =>
      cases hconst : Constant.value? name with
      | some value => simp [eq_comm]
      | none =>
          by_cases hopen : (after? .openParen ts).isSome = true
          · simp [hopen]
          · simp only [hopen, Bool.false_eq_true, if_false, Inquiry.against_fail, reduceCtorEq,
              false_and, exists_false, true_and, false_or, false_iff]
            -- A call would have found the parenthesis that is missing here.
            rw [against_call_eq_ok names]
            intro hread
            obtain ⟨f, us, args, vs, -, hus, -⟩ := hread
            obtain ⟨t, rfl, ht, -⟩ := against_expect_eq_ok.mp hus
            rw [after?_eq_some.mpr ⟨t, rfl, ht⟩] at hopen
            exact hopen rfl

theorem against_atom_eq_ok :
    (atom names d ts).against r = .ok (e, rest) ↔
      ∃ t us, ts = t :: us ∧ Clear us ∧
        ((∃ value, t.kind = .number value ∧ e = .const value ∧ rest = us) ∨
        (∃ name, t.kind = .ident name ∧
          (resolve (ternary names d) names name t.column us).against r = .ok (e, rest)) ∨
        (t.kind = .symbol .openParen ∧ ∃ vs, (ternary names d us).against r = .ok (e, vs) ∧
          (expect .closeParen vs).against r = .ok rest)) := by
  fun_cases atom names d ts with
  | case1 value lexeme start column us =>
      simp only [Inquiry.against_bind_eq_ok, against_moveTo_eq_ok, Inquiry.against_pure_eq_ok]
      refine ⟨?_, ?_⟩
      · intro hread
        obtain ⟨us, ⟨hclear, rfl⟩, h⟩ := hread
        obtain ⟨rfl, rfl⟩ := Prod.mk.inj h
        exact ⟨_, us, rfl, hclear, .inl ⟨value, rfl, rfl, rfl⟩⟩
      · intro hread
        obtain ⟨t, us', heq, hclear, h⟩ := hread
        obtain ⟨rfl, rfl⟩ := List.cons.inj heq
        rcases h with ⟨_, ⟨⟩, rfl, rfl⟩ | ⟨_, ⟨⟩, -⟩ | ⟨⟨⟩, -⟩
        exact ⟨_, ⟨hclear, rfl⟩, rfl⟩
  | case2 name lexeme start column us =>
      simp only [Inquiry.against_bind_eq_ok, against_moveTo_eq_ok]
      refine ⟨?_, ?_⟩
      · intro hread
        obtain ⟨us, ⟨hclear, rfl⟩, h⟩ := hread
        exact ⟨_, us, rfl, hclear, .inr (.inl ⟨name, rfl, h⟩)⟩
      · intro hread
        obtain ⟨t, us, heq, hclear, h⟩ := hread
        obtain ⟨rfl, rfl⟩ := List.cons.inj heq
        rcases h with ⟨_, ⟨⟩, -⟩ | ⟨_, ⟨⟩, h⟩ | ⟨⟨⟩, -⟩
        exact ⟨us, ⟨hclear, rfl⟩, h⟩
  | case3 ts hnumber hident hopen =>
      simp only [against_failAt, reduceCtorEq, false_iff]
      intro hread
      obtain ⟨⟨kind, _, _, _⟩, us, rfl, -, ⟨_, rfl, -⟩ | ⟨_, rfl, -⟩ | ⟨rfl, -⟩⟩ := hread
      · exact hnumber _ _ _ _ _ rfl
      · exact hident _ _ _ _ _ rfl
      · exact absurd hopen (by simp [after?])
  | case4 ts hnumber hident us hopen =>
      obtain ⟨t, rfl, ht⟩ := after?_eq_some.mp hopen
      simp only [Inquiry.against_bind_eq_ok, against_moveTo_eq_ok, Inquiry.against_pure_eq_ok,
        Prod.exists, Prod.mk.injEq]
      refine ⟨?_, ?_⟩
      · intro hread
        obtain ⟨us, ⟨hclear, rfl⟩, _, vs, hinner, _, hclose, rfl, rfl⟩ := hread
        exact ⟨t, us, rfl, hclear, .inr (.inr ⟨ht, vs, hinner, hclose⟩)⟩
      · intro hread
        obtain ⟨t', us', heq, hclear, h⟩ := hread
        obtain ⟨rfl, rfl⟩ := List.cons.inj heq
        rw [ht] at h
        rcases h with ⟨_, ⟨⟩, -⟩ | ⟨_, ⟨⟩, -⟩ | ⟨-, vs, hinner, hclose⟩
        exact ⟨us, ⟨hclear, rfl⟩, e, vs, hinner, rest, hclose, rfl, rfl⟩

theorem against_unary_eq_ok :
    (unary names d ts).against r = .ok (e, rest) ↔
      (unaryOp? ts = none ∧ (atom names d ts).against r = .ok (e, rest)) ∨
      ∃ op us less inner, unaryOp? ts = some (op, us) ∧ Clear us ∧ d = less + 1 ∧
        (unary names less us).against r = .ok (inner, rest) ∧ e = .unary op inner := by
  rw [unary]
  cases hop : unaryOp? ts with
  | none => simp
  | some found =>
      obtain ⟨op, us⟩ := found
      simp only [Inquiry.against_bind_eq_ok, against_moveTo_eq_ok, reduceCtorEq, false_and,
        false_or, Option.some.injEq, Prod.mk.injEq]
      cases d with
      | zero => simp
      | succ less =>
          simp only [Inquiry.against_bind_eq_ok, Inquiry.against_pure_eq_ok, Prod.exists,
            Prod.mk.injEq]
          refine ⟨?_, ?_⟩
          · intro hread
            obtain ⟨us, ⟨hclear, rfl⟩, inner, _, h, rfl, rfl⟩ := hread
            exact ⟨op, us, less, inner, ⟨rfl, rfl⟩, hclear, rfl, h, rfl⟩
          · intro hread
            obtain ⟨_, _, _, inner, ⟨rfl, rfl⟩, hclear, ⟨⟩, h, rfl⟩ := hread
            exact ⟨us, ⟨hclear, rfl⟩, inner, rest, h, rfl, rfl⟩

theorem against_binary_eq_ok {min : Precedence} :
    (binary names d min ts).against r = .ok (e, rest) ↔
      ∃ left us, (unary names d ts).against r = .ok (left, us) ∧
        (folds names d min left us).against r = .ok (e, rest) := by
  rw [binary, Inquiry.against_bind_eq_ok]
  simp only [Prod.exists]

/-- The loop ends where the next operator is too weak, and otherwise goes once round. -/
theorem against_folds_eq_ok {min : Precedence} {left : Expr} :
    (folds names d min left ts).against r = .ok (e, rest) ↔
      (Stops min ts ∧ e = left ∧ rest = ts) ∨
      ∃ op us less right vs, binaryOp? ts = some (op, us) ∧ ¬ op.precedence < min ∧ Clear us ∧
        d = less + 1 ∧ (binary names less op.rightMin us).against r = .ok (right, vs) ∧
        (folds names less min (.binary op left right) vs).against r = .ok (e, rest) := by
  rw [folds]
  cases hop : binaryOp? ts with
  | none =>
      have hstops : Stops min ts := by
        intro op us h
        rw [hop] at h
        cases h
      simp [hstops, eq_comm]
  | some found =>
      obtain ⟨op, us⟩ := found
      by_cases hweak : op.precedence < min
      · have hstops : Stops min ts := by
          intro op' us' h
          rw [hop] at h
          cases h
          exact hweak
        simp only [hweak, if_true, Inquiry.against_pure_eq_ok, Prod.mk.injEq, hstops, true_and,
          Option.some.injEq]
        refine ⟨?_, ?_⟩
        · intro hread
          obtain ⟨rfl, rfl⟩ := hread
          exact .inl ⟨rfl, rfl⟩
        · intro hread
          rcases hread with ⟨rfl, rfl⟩ | ⟨_, _, _, _, _, ⟨rfl, rfl⟩, hstrong, -⟩
          · exact ⟨rfl, rfl⟩
          · exact absurd hweak hstrong
      · have hstops : ¬ Stops min ts := fun h => hweak (h op us hop)
        simp only [hweak, if_false, Inquiry.against_bind_eq_ok, against_moveTo_eq_ok, hstops,
          false_and, false_or, Option.some.injEq, Prod.mk.injEq]
        cases d with
        | zero => simp
        | succ less =>
            simp only [Inquiry.against_bind_eq_ok, Prod.exists]
            refine ⟨?_, ?_⟩
            · intro hread
              obtain ⟨us, ⟨hclear, rfl⟩, right, vs, hright, h⟩ := hread
              exact ⟨op, us, less, right, vs, ⟨rfl, rfl⟩, hweak, hclear, rfl, hright, h⟩
            · intro hread
              obtain ⟨_, _, _, right, vs, ⟨rfl, rfl⟩, -, hclear, ⟨⟩, hright, h⟩ := hread
              exact ⟨us, ⟨hclear, rfl⟩, right, vs, hright, h⟩

theorem against_ternary_eq_ok :
    (ternary names d ts).against r = .ok (e, rest) ↔
      ∃ less c us, d = less + 1 ∧ (binary names less .disjunction ts).against r = .ok (c, us) ∧
        ((after? .question us = none ∧ e = c ∧ rest = us) ∨
        ∃ vs y ws xs n, after? .question us = some vs ∧ Clear vs ∧
          (binary names less .disjunction vs).against r = .ok (y, ws) ∧
          (expect .colon ws).against r = .ok xs ∧
          (ternary names less xs).against r = .ok (n, rest) ∧ e = .ternary c y n) := by
  cases d with
  | zero => simp [ternary]
  | succ less =>
      rw [ternary, Inquiry.against_bind_eq_ok]
      simp only [Prod.exists, Nat.add_right_cancel_iff, exists_eq_left', exists_and_left]
      refine exists₂_congr fun c us => and_congr_right fun _ => ?_
      cases hquestion : after? .question us with
      | none => simp [eq_comm]
      | some vs =>
          simp only [Inquiry.against_bind_eq_ok, against_moveTo_eq_ok, Inquiry.against_pure_eq_ok,
            Prod.exists, Prod.mk.injEq, reduceCtorEq, false_and, false_or, Option.some.injEq]
          refine ⟨?_, ?_⟩
          · intro hread
            obtain ⟨vs, ⟨hclear, rfl⟩, y, ws, hy, xs, hcolon, n, _, hn, rfl, rfl⟩ := hread
            exact ⟨vs, rfl, hclear, y, ws, hy, xs, hcolon, n, hn, rfl⟩
          · intro hread
            obtain ⟨_, rfl, hclear, y, ws, hy, xs, hcolon, n, hn, rfl⟩ := hread
            exact ⟨vs, ⟨hclear, rfl⟩, y, ws, hy, xs, hcolon, n, rest, hn, rfl, rfl⟩

theorem against_finish_eq_ok {a : Expr} {cause : Cause} :
    (if atFinish ts = true then pure a else failAt ts cause : Inquiry Expr).against r = .ok e ↔
      atFinish ts = true ∧ e = a := by
  cases hfinish : atFinish ts with
  | true => simp [eq_comm]
  | false => simp

theorem against_topLevel_eq_ok :
    (topLevel names ts).against r = .ok e ↔
      Clear ts ∧ ∃ inner us, (ternary names maxDepth ts).against r = .ok (inner, us) ∧
        ((after? .comma us = none ∧ atFinish us = true ∧ e = inner) ∨
        ∃ vs ws cond xs, after? .comma us = some vs ∧ Clear vs ∧ ident? vs = some ("where", ws) ∧
          Clear ws ∧ (ternary names maxDepth ws).against r = .ok (cond, xs) ∧
          atFinish xs = true ∧ e = .limit inner cond) := by
  simp only [topLevel, Inquiry.against_bind_eq_ok, against_moveTo_eq_ok, Prod.exists, and_assoc,
    exists_and_left, exists_eq_left]
  refine and_congr_right fun _ => exists₂_congr fun inner us => and_congr_right fun _ => ?_
  cases hcomma : after? .comma us with
  | none => simp [against_finish_eq_ok, pure_bind]
  | some vs =>
      simp only [Inquiry.against_bind_eq_ok, against_moveTo_eq_ok, reduceCtorEq, false_and,
        false_or, Option.some.injEq]
      refine ⟨?_, ?_⟩
      · intro hread
        obtain ⟨vs, ⟨hvs, rfl⟩, hwhere⟩ := hread
        split at hwhere
        · rename_i ws hident
          simp only [Inquiry.against_bind_eq_ok, against_moveTo_eq_ok, Prod.exists, pure_bind,
            against_finish_eq_ok] at hwhere
          obtain ⟨ws, ⟨hws, rfl⟩, cond, xs, hcond, hxs, rfl⟩ := hwhere
          exact ⟨vs, rfl, hvs, ws, hident, hws, cond, xs, hcond, hxs, rfl⟩
        · rw [Inquiry.against_bind_eq_ok] at hwhere
          obtain ⟨_, ⟨⟩, -⟩ := hwhere
      · intro hread
        obtain ⟨_, rfl, hvs, ws, hident, hws, cond, xs, hcond, hxs, rfl⟩ := hread
        refine ⟨vs, ⟨hvs, rfl⟩, ?_⟩
        simp only [hident, Inquiry.against_bind_eq_ok, against_moveTo_eq_ok, Prod.exists,
          pure_bind, against_finish_eq_ok]
        exact ⟨ws, ⟨hws, rfl⟩, cond, xs, hcond, hxs, rfl⟩

/-! ### The readers by the levels of nesting that are left -/

/-- What holds of every reader at every level: `T` of ternaries, `A` of atoms, `U` of
operands with prefix operators, `F` of the loop over operators and `B` of operators. -/
theorem levels_induction {T A U F B : Nat → Prop} (ternary_zero : T 0)
    (atom_step : ∀ d, T d → A d) (unary_zero : A 0 → U 0) (folds_zero : F 0)
    (binary_step : ∀ d, U d → F d → B d) (ternary_succ : ∀ d, B d → T d → T (d + 1))
    (unary_succ : ∀ d, U d → A (d + 1) → U (d + 1))
    (folds_succ : ∀ d, B d → F d → F (d + 1)) (d : Nat) :
    T d ∧ A d ∧ U d ∧ F d ∧ B d := by
  induction d with
  | zero =>
      have hatom := atom_step 0 ternary_zero
      have hunary := unary_zero hatom
      exact ⟨ternary_zero, hatom, hunary, folds_zero, binary_step 0 hunary folds_zero⟩
  | succ d ih =>
      obtain ⟨hternary, -, hunary, hfolds, hbinary⟩ := ih
      have hternary' := ternary_succ d hbinary hternary
      have hatom' := atom_step (d + 1) hternary'
      have hunary' := unary_succ d hunary hatom'
      have hfolds' := folds_succ d hbinary hfolds
      exact ⟨hternary', hatom', hunary', hfolds', binary_step (d + 1) hunary' hfolds'⟩

end Parser

end FormulaPlot
