/-
The parser treats similar inputs alike.

A reader looks at what the tokens are and builds trees; it never looks into a tree, nor
at the column of a token except to report it.  So if trees are related in any way that
operators and calls respect, and columns in any way at all, then readings of related
tokens ask for the same functions, and related answers lead to related outcomes.  That
is `Related`, and one induction over the readers shows it for the whole parser.

Three relations are used later: trees of the same value, tokens in other places, and
plain equality.  Even the last says something: a reading that is answered with anything
but a function has failed, and its fault names that function.
-/
import Mathlib.Data.List.Forall2
import FormulaPlot.Proofs.Parser.Steps

namespace FormulaPlot

/-- What is wrong with a call of `name` that is answered without a function. -/
def Answer.cause? (name : String) : Answer → Option Cause
  | found _ => none
  | invalid => some (.calleeHasErrors name)
  | recursive => some (.recursive name)
  | missing => some (.unknownFunction name)

/-- A relation of trees that operators and calls respect, and a relation of columns. -/
structure Similarity where
  expr : Expr → Expr → Prop
  column : Nat → Nat → Prop
  column_one : column 1 1
  const : ∀ value, expr (.const value) (.const value)
  var : ∀ index, expr (.var index) (.var index)
  unary : ∀ op {a b}, expr a b → expr (.unary op a) (.unary op b)
  binary : ∀ op {a b c d}, expr a b → expr c d → expr (.binary op a c) (.binary op b d)
  apply : ∀ f {as bs}, List.Forall₂ expr as bs → expr (.apply f as) (.apply f bs)
  call : ∀ name params {a b as bs}, expr a b → List.Forall₂ expr as bs →
    expr (.call name params a as) (.call name params b bs)
  ternary : ∀ {a b c d e f}, expr a b → expr c d → expr e f →
    expr (.ternary a c e) (.ternary b d f)
  limit : ∀ {a b c d}, expr a b → expr c d → expr (.limit a c) (.limit b d)

namespace Similarity

variable {S : Similarity}

/-- The functions have the same name and parameters and related bodies. -/
structure Function (S : Similarity) (f g : UserFunction) : Prop where
  name : f.name = g.name
  params : f.params = g.params
  body : S.expr f.body g.body

/-- The functions called are the same intrinsic or related user functions. -/
inductive Callee (S : Similarity) : Parser.Callee → Parser.Callee → Prop
  | intrinsic (f : Intrinsic) : S.Callee (.intrinsic f) (.intrinsic f)
  | user {f g : UserFunction} (h : S.Function f g) : S.Callee (.user f) (.user g)

/-- The same token, in related places. -/
structure Same (S : Similarity) (t u : Token) : Prop where
  kind : t.kind = u.kind
  column : S.column t.column u.column

/-- The same tokens one by one, in related places. -/
abbrev Tokens (S : Similarity) (ts us : List Token) : Prop := List.Forall₂ S.Same ts us

/-- The same cause, in related places. -/
structure Fault (S : Similarity) (x y : FormulaPlot.Fault) : Prop where
  cause : x.cause = y.cause
  column : S.column x.column y.column

/-- The outcomes are related values or related faults. -/
inductive Outcome (S : Similarity) {α β : Type} (A : α → β → Prop) :
    Except FormulaPlot.Fault α → Except FormulaPlot.Fault β → Prop
  | ok {a : α} {b : β} (h : A a b) : S.Outcome A (.ok a) (.ok b)
  | error {x y : FormulaPlot.Fault} (h : S.Fault x y) : S.Outcome A (.error x) (.error y)

/-- The answers are related functions, or the same answer without a function. -/
inductive Answers (S : Similarity) : Answer → Answer → Prop
  | found {f g : UserFunction} (h : S.Function f g) : S.Answers (.found f) (.found g)
  | invalid : S.Answers .invalid .invalid
  | recursive : S.Answers .recursive .recursive
  | missing : S.Answers .missing .missing

/-- The readings ask the same questions, and related answers lead to related outcomes.  An
answer without a function ends both. -/
inductive Related (S : Similarity) {α β : Type} (A : α → β → Prop) :
    Inquiry α → Inquiry β → Prop
  | done {x : Except FormulaPlot.Fault α} {y : Except FormulaPlot.Fault β} (h : S.Outcome A x y) :
      S.Related A (.done x) (.done y)
  | ask (name : String) {next : Answer → Inquiry α} {next' : Answer → Inquiry β}
      (found : ∀ f g, S.Function f g → S.Related A (next (.found f)) (next' (.found g)))
      (other : ∀ answer cause, answer.cause? name = some cause → ∃ x y, S.column x y ∧
        next answer = .done (.error ⟨cause, x⟩) ∧ next' answer = .done (.error ⟨cause, y⟩)) :
      S.Related A (.ask name next) (.ask name next')

/-! ### Readings one after the other -/

section

variable {α β γ δ : Type} {A : α → β → Prop} {B : γ → δ → Prop}

theorem Related.pure {a : α} {b : β} (h : A a b) : S.Related A (pure a) (pure b) := .done (.ok h)

theorem Related.fail {x y : FormulaPlot.Fault} (h : S.Fault x y) :
    S.Related A (Inquiry.fail x) (Inquiry.fail y) := .done (.error h)

theorem Related.bind {m : Inquiry α} {m' : Inquiry β} {k : α → Inquiry γ} {k' : β → Inquiry δ}
    (hm : S.Related A m m') (hk : ∀ a b, A a b → S.Related B (k a) (k' b)) :
    S.Related B (m >>= k) (m' >>= k') := by
  rw [Inquiry.bind_def, Inquiry.bind_def]
  induction hm with
  | done h =>
      cases h with
      | ok h => exact hk _ _ h
      | error h => exact .done (.error h)
  | ask name _ other ih =>
      refine .ask name ih ?_
      intro answer cause hcause
      obtain ⟨x, y, hcolumn, hnext, hnext'⟩ := other answer cause hcause
      refine ⟨x, y, hcolumn, ?_, ?_⟩
      · simp only [hnext, Inquiry.bind]
      · simp only [hnext', Inquiry.bind]

/-- The second reading gets a value and the tokens that are left. -/
theorem Related.next {m : Inquiry (α × List Token)} {m' : Inquiry (β × List Token)}
    {k : α × List Token → Inquiry γ} {k' : β × List Token → Inquiry δ}
    (hm : S.Related (fun x y => A x.1 y.1 ∧ S.Tokens x.2 y.2) m m')
    (hk : ∀ a b ts us, A a b → S.Tokens ts us → S.Related B (k (a, ts)) (k' (b, us))) :
    S.Related B (m >>= k) (m' >>= k') :=
  hm.bind fun x y h => hk x.1 y.1 x.2 y.2 h.1 h.2

/-- Registries with related functions of the same names give related outcomes. -/
theorem Related.against {m : Inquiry α} {m' : Inquiry β} (h : S.Related A m m') {r r' : Registry}
    (hr : ∀ name, Option.Rel S.Function (r.get? name) (r'.get? name)) :
    S.Outcome A (m.against r) (m'.against r') := by
  induction h with
  | done h => exact h
  | @ask name next next' _ other ih =>
      unfold Inquiry.against
      have hname := hr name
      revert hname
      generalize r.get? name = f, r'.get? name = g
      intro hname
      cases hname with
      | some hf => exact ih _ _ hf
      | none =>
          obtain ⟨x, y, hcolumn, hnext, hnext'⟩ := other .missing _ rfl
          simp only [hnext, hnext', Inquiry.against]
          exact .error ⟨rfl, hcolumn⟩

/-- A reading that succeeds also succeeds with more functions. -/
theorem Related.against_mono {m : Inquiry α} {m' : Inquiry β} (h : S.Related A m m')
    (hrefl : ∀ f, S.Function f f) {r r' : Registry}
    (hr : ∀ name f, r.get? name = some f → r'.get? name = some f) {a : α}
    (hm : m.against r = .ok a) : m.against r' = .ok a := by
  induction h with
  | done h => exact hm
  | @ask name next next' _ other ih =>
      unfold Inquiry.against at hm ⊢
      cases hname : r.get? name with
      | some f =>
          rw [hname] at hm
          rw [hr name f hname]
          exact ih f f (hrefl f) hm
      | none =>
          rw [hname] at hm
          obtain ⟨_, _, -, hnext, -⟩ := other .missing _ rfl
          dsimp only at hm
          rw [hnext] at hm
          cases hm

/-- Related answers, given from related memories, lead to related outcomes and memories. -/
theorem Related.run {σ τ : Type} {M : σ → τ → Prop} {answer : String → σ → Answer × σ}
    {answer' : String → τ → Answer × τ} {m : Inquiry α} {m' : Inquiry β}
    (hanswer : ∀ name s t, M s t → S.Answers (answer name s).1 (answer' name t).1 ∧
      M (answer name s).2 (answer' name t).2)
    (h : S.Related A m m') {s : σ} {t : τ} (hst : M s t) :
    S.Outcome A (m.run answer s).1 (m'.run answer' t).1 ∧
      M (m.run answer s).2 (m'.run answer' t).2 := by
  induction h generalizing s t with
  | done h => exact ⟨h, hst⟩
  | @ask name next next' _ other ih =>
      obtain ⟨hname, hmemory⟩ := hanswer name s t hst
      -- Without a function the reading is over, and the memories stay as they are.
      have hover : ∀ a cause, a.cause? name = some cause →
          S.Outcome A ((next a).run answer (answer name s).2).1
            ((next' a).run answer' (answer' name t).2).1 ∧
          M ((next a).run answer (answer name s).2).2
            ((next' a).run answer' (answer' name t).2).2 := by
        intro a cause hcause
        obtain ⟨x, y, hcolumn, hnext, hnext'⟩ := other a cause hcause
        rw [hnext, hnext']
        exact ⟨.error ⟨rfl, hcolumn⟩, hmemory⟩
      unfold Inquiry.run
      revert hname hover
      generalize (answer name s).1 = a, (answer' name t).1 = b
      intro hname hover
      cases hname with
      | found hf => exact ih _ _ hf hmemory
      | invalid => exact hover .invalid _ rfl
      | recursive => exact hover .recursive _ rfl
      | missing => exact hover .missing _ rfl

end

/-- Related readers read related tokens alike. -/
def Readers (S : Similarity) {α β : Type} (A : α → β → Prop) (f : Parser.Reader α)
    (g : Parser.Reader β) : Prop :=
  ∀ ts us, S.Tokens ts us →
    S.Related (fun x y => A x.1 y.1 ∧ S.Tokens x.2 y.2) (f ts) (g us)

end Similarity

namespace Parser

open Similarity

variable {S : Similarity} {ts us : List Token}

/-! ### The steps of a reader -/

theorem column_similar (h : S.Tokens ts us) : S.column (column ts) (column us) := by
  cases h with
  | nil => exact S.column_one
  | cons ht _ => exact ht.column

theorem failAt_bind {α β : Type} (ts : List Token) (cause : Cause) (k : α → Inquiry β) :
    failAt ts cause >>= k = failAt ts cause := rfl

theorem failAt_related {α β : Type} {A : α → β → Prop} (h : S.Tokens ts us) (cause : Cause) :
    S.Related A (failAt ts cause) (failAt us cause) :=
  .fail ⟨rfl, column_similar h⟩

theorem moveTo_related (h : S.Tokens ts us) : S.Related S.Tokens (moveTo ts) (moveTo us) := by
  have herror : ts.head?.bind Token.error? = us.head?.bind Token.error? := by
    cases h with
    | nil => rfl
    | cons ht _ => simp [Token.error?, ht.kind]
  unfold moveTo
  rw [herror]
  split
  · exact failAt_related h _
  · exact .pure h

theorem after?_similar (h : S.Tokens ts us) (sym : Symbol) :
    Option.Rel S.Tokens (after? sym ts) (after? sym us) := by
  cases h with
  | nil => exact .none
  | @cons t u ts us ht hts =>
      obtain ⟨kind, _, _, _⟩ := t
      obtain ⟨_, _, _, _⟩ := u
      obtain ⟨rfl, -⟩ := ht
      cases kind with
      | symbol sym' =>
          simp only [after?]
          split
          · exact .some hts
          · exact .none
      | _ => exact .none

/-- Whatever is read off the kind of the next token alone. -/
theorem byKind_similar {β : Type} {step : List Token → Option (β × List Token)}
    {meaning : Token.Kind → Option β} (hstep : ByKind step meaning) (h : S.Tokens ts us) :
    Option.Rel (fun x y => x.1 = y.1 ∧ S.Tokens x.2 y.2) (step ts) (step us) := by
  rw [hstep, hstep]
  cases h with
  | nil => exact .none
  | @cons t u ts us ht hts =>
      rw [List.head?_cons, List.head?_cons, Option.bind_some, Option.bind_some, ht.kind]
      cases meaning u.kind with
      | none => exact .none
      | some b => exact .some ⟨rfl, hts⟩

theorem atFinish_similar (h : S.Tokens ts us) : atFinish ts = atFinish us := by
  cases h with
  | nil => rfl
  | @cons t u ts us ht hts =>
      obtain ⟨kind, _, _, _⟩ := t
      obtain ⟨_, _, _, _⟩ := u
      obtain ⟨rfl, -⟩ := ht
      cases kind <;> rfl

theorem expect_related (h : S.Tokens ts us) (sym : Symbol) :
    S.Related S.Tokens (expect sym ts) (expect sym us) := by
  have hafter := after?_similar h sym
  unfold expect
  revert hafter
  generalize after? sym ts = x, after? sym us = y
  intro hafter
  cases hafter with
  | none => exact failAt_related h _
  | some hrest => exact moveTo_related hrest

/-! ### Calls -/

variable {column column' : Nat}

theorem callee_related (name : String) (hcolumn : S.column column column') :
    S.Related S.Callee (callee name column) (callee name column') := by
  unfold callee
  cases Intrinsic.ofName? name with
  | some f => exact .pure (.intrinsic f)
  | none =>
      refine .ask name (fun f g h => .pure (.user h)) ?_
      intro answer cause hcause
      refine ⟨column, column', hcolumn, ?_⟩
      cases answer with
      | found f => cases hcause
      | _ =>
          cases hcause
          exact ⟨rfl, rfl⟩

theorem applyTo_similar {f g : Parser.Callee} {as bs : List Expr} (hf : S.Callee f g)
    (h : List.Forall₂ S.expr as bs) : S.expr (f.applyTo as) (g.applyTo bs) := by
  cases hf with
  | intrinsic f => exact S.apply f h
  | @user f g hf =>
      obtain ⟨name, params, body⟩ := f
      obtain ⟨_, _, _⟩ := g
      obtain ⟨rfl, rfl, hbody⟩ := hf
      exact S.call name params hbody h

theorem arity_similar {f g : Parser.Callee} (hf : S.Callee f g) : f.arity = g.arity := by
  cases hf with
  | intrinsic f => rfl
  | user hf => exact congrArg List.length hf.params

variable {operand operand' : Reader Expr}

theorem operands_step (hoperand : S.Readers S.expr operand operand') {fuel : Nat}
    (hmore : ∀ less, fuel = less + 1 →
      S.Readers (List.Forall₂ S.expr) (operands operand less) (operands operand' less)) :
    S.Readers (List.Forall₂ S.expr) (operands operand fuel) (operands operand' fuel) := by
  intro ts us h
  rw [operands, operands]
  refine (hoperand ts us h).next fun first first' ts us hfirst h => ?_
  dsimp only
  have hcomma := after?_similar h .comma
  revert hcomma
  generalize after? .comma ts = vs, after? .comma us = ws
  intro hcomma
  cases hcomma with
  | none => exact .pure ⟨.cons hfirst .nil, h⟩
  | some hrest =>
      cases fuel with
      | zero => exact failAt_related h _
      | succ less =>
          refine (moveTo_related hrest).bind fun ts us h => ?_
          refine (hmore less rfl ts us h).next fun others others' ts us hothers h => ?_
          exact .pure ⟨.cons hfirst hothers, h⟩

theorem operands_related (hoperand : S.Readers S.expr operand operand') (fuel : Nat) :
    S.Readers (List.Forall₂ S.expr) (operands operand fuel) (operands operand' fuel) := by
  induction fuel with
  | zero => exact operands_step hoperand (by simp)
  | succ fuel ih => exact operands_step hoperand fun less h => by cases h; exact ih

theorem call_related (hoperand : S.Readers S.expr operand operand') (name : String)
    (hcolumn : S.column column column') :
    S.Readers S.expr (call operand name column) (call operand' name column') := by
  intro ts us h
  unfold call
  refine (callee_related name hcolumn).bind fun f g hf => ?_
  refine (expect_related h .openParen).bind fun ts us h => ?_
  rw [h.length_eq]
  refine (operands_related hoperand us.length ts us h).next fun as bs ts us hargs h => ?_
  refine (expect_related h .closeParen).bind fun ts us h => ?_
  rw [hargs.length_eq, arity_similar hf]
  by_cases harity : bs.length = g.arity
  · rw [if_pos harity, if_pos harity]
    exact .pure ⟨applyTo_similar hf hargs, h⟩
  · rw [if_neg harity, if_neg harity]
    exact .fail ⟨rfl, hcolumn⟩

theorem resolve_related (hoperand : S.Readers S.expr operand operand') (names : List String)
    (name : String) (hcolumn : S.column column column') :
    S.Readers S.expr (resolve operand names name column) (resolve operand' names name column') := by
  intro ts us h
  have hcall := call_related hoperand name hcolumn ts us h
  unfold resolve
  cases names.idxOf? name with
  | some index => exact .pure ⟨S.var index, h⟩
  | none =>
      cases Constant.value? name with
      | some value => exact .pure ⟨S.const value, h⟩
      | none =>
          dsimp only
          have hopen := after?_similar h .openParen
          revert hopen
          generalize after? .openParen ts = vs, after? .openParen us = ws
          intro hopen
          cases hopen with
          | none => exact .fail ⟨rfl, hcolumn⟩
          | some _ => exact hcall

/-! ### Expressions -/

variable {names : List String} {d : Nat}

/-- A reader reads related tokens alike. -/
abbrev Alike (S : Similarity) (reader : Reader Expr) : Prop := S.Readers S.expr reader reader

theorem atom_related (hternary : Alike S (ternary names d)) : Alike S (atom names d) := by
  intro ts us h
  rw [atom.eq_def, atom.eq_def]
  cases h with
  | nil => exact failAt_related .nil _
  | @cons t u ts us ht hts =>
      have hopen := after?_similar (.cons ht hts) .openParen
      have hfail := failAt_related (A := fun x y : Expr × List Token =>
        S.expr x.1 y.1 ∧ S.Tokens x.2 y.2) (.cons ht hts) .expressionExpected
      obtain ⟨kind, _, _, column⟩ := t
      obtain ⟨_, _, _, column'⟩ := u
      obtain ⟨rfl, hcolumn⟩ := ht
      cases kind with
      | number value =>
          refine (moveTo_related hts).bind fun ts us h => ?_
          exact .pure ⟨S.const value, h⟩
      | ident name =>
          refine (moveTo_related hts).bind fun ts us h => ?_
          exact resolve_related hternary names name hcolumn ts us h
      | symbol sym =>
          dsimp only
          revert hopen
          generalize after? .openParen (_ :: ts) = x, after? .openParen (_ :: us) = y
          intro hopen
          cases hopen with
          | none => exact hfail
          | some hrest =>
              refine (moveTo_related hrest).bind fun ts us h => ?_
              refine (hternary ts us h).next fun a b ts us hab h => ?_
              refine (expect_related h .closeParen).bind fun ts us h => ?_
              exact .pure ⟨hab, h⟩
      | _ => exact hfail

theorem unary_related (hatom : Alike S (atom names d))
    (hunary : ∀ less, d = less + 1 → Alike S (unary names less)) : Alike S (unary names d) := by
  intro ts us h
  have hplain := hatom ts us h
  have hop := byKind_similar byKind_unaryOp? h
  rw [unary, unary]
  revert hop
  generalize unaryOp? ts = x, unaryOp? us = y
  intro hop
  cases hop with
  | none => exact hplain
  | @some x y hxy =>
      obtain ⟨op, ts⟩ := x
      obtain ⟨_, us⟩ := y
      obtain ⟨rfl, h⟩ := hxy
      refine (moveTo_related h).bind fun ts us h => ?_
      cases d with
      | zero => exact failAt_related h _
      | succ less =>
          refine (hunary less rfl ts us h).next fun a b ts us hab h => ?_
          exact .pure ⟨S.unary op hab, h⟩

/-- The loop over operators, from related trees. -/
def LoopAlike (S : Similarity) (names : List String) (d : Nat) : Prop :=
  ∀ min a b, S.expr a b → S.Readers S.expr (folds names d min a) (folds names d min b)

theorem folds_related
    (hbinary : ∀ less, d = less + 1 → (∀ min, Alike S (binary names less min)) ∧
      LoopAlike S names less) : LoopAlike S names d := by
  intro min a b hab ts us h
  have hop := byKind_similar byKind_binaryOp? h
  rw [folds, folds]
  revert hop
  generalize binaryOp? ts = x, binaryOp? us = y
  intro hop
  cases hop with
  | none => exact .pure ⟨hab, h⟩
  | @some x y hxy =>
      obtain ⟨op, vs⟩ := x
      obtain ⟨_, ws⟩ := y
      obtain ⟨rfl, hvs⟩ := hxy
      dsimp only
      by_cases hweak : op.precedence < min
      · rw [if_pos hweak, if_pos hweak]
        exact .pure ⟨hab, h⟩
      · rw [if_neg hweak, if_neg hweak]
        refine (moveTo_related hvs).bind fun ts us h => ?_
        cases d with
        | zero => exact failAt_related h _
        | succ less =>
            obtain ⟨hright, hloop⟩ := hbinary less rfl
            refine (hright op.rightMin ts us h).next fun c d ts us hcd h => ?_
            exact hloop min _ _ (S.binary op hab hcd) ts us h

theorem binary_related (hunary : Alike S (unary names d)) (hfolds : LoopAlike S names d)
    (min : Precedence) : Alike S (binary names d min) := by
  intro ts us h
  rw [binary, binary]
  refine (hunary ts us h).next fun a b ts us hab h => ?_
  exact hfolds min a b hab ts us h

theorem ternary_related (hbinary : ∀ min, Alike S (binary names d min))
    (hternary : Alike S (ternary names d)) : Alike S (ternary names (d + 1)) := by
  intro ts us h
  rw [ternary, ternary]
  refine (hbinary .disjunction ts us h).next fun c c' ts us hc h => ?_
  dsimp only
  have hquestion := after?_similar h .question
  revert hquestion
  generalize after? .question ts = vs, after? .question us = ws
  intro hquestion
  cases hquestion with
  | none => exact .pure ⟨hc, h⟩
  | some hrest =>
      refine (moveTo_related hrest).bind fun ts us h => ?_
      refine (hbinary .disjunction ts us h).next fun a a' ts us ha h => ?_
      refine (expect_related h .colon).bind fun ts us h => ?_
      refine (hternary ts us h).next fun b b' ts us hb h => ?_
      exact .pure ⟨S.ternary hc ha hb, h⟩

theorem ternary_alike (S : Similarity) (names : List String) (d : Nat) :
    Alike S (ternary names d) := by
  refine (levels_induction (T := fun d => Alike S (ternary names d))
    (A := fun d => Alike S (atom names d)) (U := fun d => Alike S (unary names d))
    (F := LoopAlike S names) (B := fun d => ∀ min, Alike S (binary names d min))
    ?_ ?_ ?_ ?_ ?_ ?_ ?_ ?_ d).1
  · intro ts us h
    rw [ternary, ternary]
    exact failAt_related h _
  · exact fun d => atom_related
  · exact fun hatom => unary_related hatom (by simp)
  · exact folds_related (by simp)
  · exact fun d => binary_related
  · exact fun d => ternary_related
  · exact fun d hunary hatom => unary_related hatom fun less h => by cases h; exact hunary
  · exact fun d hbinary hfolds => folds_related fun less h => by cases h; exact ⟨hbinary, hfolds⟩

theorem finish_related {a b : Expr} (hab : S.expr a b) (h : S.Tokens ts us) :
    S.Related S.expr (if atFinish ts then pure a else failAt ts .unexpectedToken)
      (if atFinish us then pure b else failAt us .unexpectedToken) := by
  rw [atFinish_similar h]
  cases atFinish us with
  | true => exact .pure hab
  | false => exact failAt_related h _

/-- A whole formula is read alike from related tokens. -/
theorem topLevel_related (S : Similarity) (names : List String) (h : S.Tokens ts us) :
    S.Related S.expr (topLevel names ts) (topLevel names us) := by
  unfold topLevel
  refine (moveTo_related h).bind fun ts us h => ?_
  refine (ternary_alike S names maxDepth ts us h).next fun a b ts us hab h => ?_
  dsimp only
  have hcomma := after?_similar h .comma
  revert hcomma
  generalize after? .comma ts = x, after? .comma us = y
  intro hcomma
  cases hcomma with
  | none => exact finish_related hab h
  | some hrest =>
      refine (moveTo_related hrest).bind fun ts us h => ?_
      have hident := byKind_similar byKind_ident? h
      revert hident
      generalize ident? ts = x, ident? us = y
      intro hident
      cases hident with
      | none => exact failAt_related h _
      | @some x y hxy =>
          obtain ⟨name, vs⟩ := x
          obtain ⟨_, ws⟩ := y
          obtain ⟨rfl, hvs⟩ := hxy
          by_cases hname : name = "where"
          · subst hname
            refine (moveTo_related hvs).bind fun ts us h => ?_
            refine (ternary_alike S names maxDepth ts us h).next fun c d ts us hcd h => ?_
            exact finish_related (S.limit hab hcd) h
          · have hfail := failAt_related (A := S.expr) h .whereExpected
            simpa [hname, failAt_bind] using hfail

end Parser

end FormulaPlot
