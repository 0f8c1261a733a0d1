/-
Folding constants changes nothing that a user can see.

A block of definitions is read twice, once with the bodies folded and once as they are
written.  The two readings go in step: they ask for the same functions in the same
order, report the same errors and define the same functions, and the bodies have the
same values.  `InStep` is the invariant, and the induction is on the fuel of `define`.
-/
import FormulaPlot.Parser.Definition
import FormulaPlot.Parser.Formula
import FormulaPlot.Proofs.Expr.Simplify
import FormulaPlot.Proofs.Parser.Similarity

namespace FormulaPlot

/-! ### Trees of the same value -/

theorem Expr.evalAll_of_forall₂ {as bs : List Expr} {env : List Float}
    (h : List.Forall₂ (fun a b => ∀ env, a.eval env = b.eval env) as bs) :
    evalAll env as = evalAll env bs := by
  induction h with
  | nil => rfl
  | cons hab _ ih => rw [evalAll, evalAll, hab env, ih]

/-- Trees of the same value for all arguments, in the same places. -/
def Similarity.value : Similarity where
  expr a b := ∀ env, a.eval env = b.eval env
  column := Eq
  column_one := rfl
  const _ _ := rfl
  var _ _ := rfl
  unary op _ _ h env := by simp only [Expr.eval, h env]
  binary op _ _ _ _ h h' env := by simp only [Expr.eval, h env, h' env]
  apply f _ _ h env := by simp only [Expr.eval, Expr.evalAll_of_forall₂ h]
  call name params _ _ _ _ h hs env := by
    simp only [Expr.eval, Expr.evalAll_of_forall₂ hs, h]
  ternary h h' h'' env := by simp only [Expr.eval, h env, h' env, h'' env]
  limit h h' env := by simp only [Expr.eval, h env, h' env]

namespace Parser

open Similarity

/-! ### Registries -/

/-- The same functions in the same order, with bodies of the same values. -/
abbrev SameFunctions (r r' : Registry) : Prop :=
  List.Forall₂ value.Function r.functions r'.functions

theorem function_refl (f : UserFunction) : value.Function f f := ⟨rfl, rfl, fun _ => rfl⟩

theorem sameFunctions_refl (r : Registry) : SameFunctions r r :=
  List.forall₂_same.mpr fun f _ => function_refl f

theorem get?_similar {r r' : Registry} (h : SameFunctions r r') (name : String) :
    Option.Rel value.Function (r.get? name) (r'.get? name) := by
  unfold Registry.get?
  unfold SameFunctions at h
  generalize r.functions = fs, r'.functions = gs at h ⊢
  induction h with
  | nil => exact .none
  | @cons f g fs gs hf _ ih =>
      rw [List.find?_cons, List.find?_cons, hf.name]
      cases g.name == name with
      | true => exact .some hf
      | false => exact ih

theorem place_similar {f g : UserFunction} (hf : value.Function f g) {fs gs : List UserFunction}
    (h : List.Forall₂ value.Function fs gs) :
    List.Forall₂ value.Function (Registry.place f fs) (Registry.place g gs) := by
  induction h with
  | nil => exact .cons hf .nil
  | @cons f' g' fs gs hf' hfs ih =>
      rw [Registry.place, Registry.place, hf'.name, hf.name]
      cases g'.name == g.name with
      | true => exact .cons hf hfs
      | false => exact .cons hf' ih

/-! ### Two readings of a block -/

/-- The readings have come equally far. -/
structure InStep (p q : Progress) : Prop where
  registry : SameFunctions p.registry q.registry
  waiting : p.waiting = q.waiting
  failed : p.failed = q.failed
  errors : p.errors = q.errors

/-- Two ways to define a function keep the readings in step. -/
def KeepsStep (define define' : Definition → Progress → Answer × Progress) : Prop :=
  ∀ d p q, InStep p q → value.Answers (define d p).1 (define' d q).1 ∧
    InStep (define d p).2 (define' d q).2

variable (definitions : List Definition) {finish finish' : Expr → Expr}

theorem lookup_inStep {define define' : Definition → Progress → Answer × Progress}
    (hdefine : KeepsStep define define') (name : String) {p q : Progress} (h : InStep p q) :
    value.Answers (lookup definitions define name p).1 (lookup definitions define' name q).1 ∧
      InStep (lookup definitions define name p).2 (lookup definitions define' name q).2 := by
  have hget := get?_similar h.registry name
  unfold lookup
  revert hget
  generalize p.registry.get? name = f, q.registry.get? name = g
  intro hget
  cases hget with
  | some hf => exact ⟨.found hf, h⟩
  | none =>
      cases definitions.find? (·.name == name) with
      | none => exact ⟨.missing, h⟩
      | some d =>
          dsimp only
          rw [h.waiting, h.failed]
          by_cases hwaiting : name ∈ q.waiting
          · rw [if_pos hwaiting, if_pos hwaiting]
            exact ⟨.recursive, h⟩
          · rw [if_neg hwaiting, if_neg hwaiting]
            by_cases hfailed : name ∈ q.failed
            · rw [if_pos hfailed, if_pos hfailed]
              exact ⟨.invalid, h⟩
            · rw [if_neg hfailed, if_neg hfailed]
              exact hdefine d p q h

/-- The trees that are defined have the same value. -/
def SameFinish (finish finish' : Expr → Expr) : Prop :=
  ∀ a b, value.expr a b → value.expr (finish a) (finish' b)

theorem tokens_refl (S : Similarity) (hcolumn : ∀ n, S.column n n) (ts : List Token) :
    S.Tokens ts ts :=
  List.forall₂_same.mpr fun t _ => ⟨rfl, hcolumn t.column⟩

theorem define_inStep (hfinish : SameFinish finish finish') (fuel : Nat) :
    KeepsStep (define finish definitions fuel) (define finish' definitions fuel) := by
  induction fuel with
  | zero => exact fun d p q h => ⟨.recursive, h⟩
  | succ fuel ih =>
      intro d p q h
      have htokens : value.Tokens d.body d.body := tokens_refl value (fun _ => rfl) d.body
      have hbody := topLevel_related value d.params htokens
      have hentered : InStep { p with waiting := d.name :: p.waiting }
          { q with waiting := d.name :: q.waiting } :=
        ⟨h.registry, congrArg (d.name :: ·) h.waiting, h.failed, h.errors⟩
      have hrun := hbody.run
        (fun name s t hst => lookup_inStep definitions ih name hst) hentered
      rw [define, define]
      revert hrun
      generalize (topLevel d.params d.body).run _ _ = x, (topLevel d.params d.body).run _ _ = y
      intro hrun
      obtain ⟨result, after⟩ := x
      obtain ⟨result', after'⟩ := y
      obtain ⟨hresult, hafter⟩ := hrun
      cases hresult with
      | ok hab =>
          have hf : value.Function ⟨d.name, d.params, finish _⟩ ⟨d.name, d.params, finish' _⟩ :=
            ⟨rfl, rfl, hfinish _ _ hab⟩
          exact ⟨.found hf, place_similar hf hafter.registry, h.waiting, hafter.failed,
            hafter.errors⟩
      | @error x y hfault =>
          obtain ⟨cause, column⟩ := x
          obtain ⟨_, _⟩ := y
          obtain ⟨rfl, rfl⟩ := hfault
          exact ⟨.invalid, hafter.registry, h.waiting, congrArg (d.name :: ·) hafter.failed,
            congrArg (.ofFault d.name d.line ⟨cause, column⟩ :: ·) hafter.errors⟩

theorem defineAll_inStep (hfinish : SameFinish finish finish') {p q : Progress}
    (h : InStep p q) :
    InStep (defineAll finish definitions p) (defineAll finish' definitions q) := by
  have hdefine := define_inStep definitions hfinish definitions.length
  unfold defineAll
  exact List.foldl_rel h fun d _ p q h => (lookup_inStep definitions hdefine d.name h).2

theorem headers_similar {r r' : Registry} (h : ∀ name, r.contains name = r'.contains name)
    (lines : List (String × Nat)) (before : List Definition) :
    headers r before lines = headers r' before lines := by
  induction lines generalizing before with
  | nil => rfl
  | cons line lines ih =>
      rw [headers, headers]
      simp only [h, ih]

/-- Blocks read over the same functions define the same functions and report the same errors. -/
theorem readBlock_similar (hfinish : SameFinish finish finish') (text : String) {r r' : Registry}
    (h : SameFunctions r r') :
    SameFunctions (readBlock finish text r).1 (readBlock finish' text r').1 ∧
      (readBlock finish text r).2 = (readBlock finish' text r').2 := by
  have hcontains : ∀ name, r.contains name = r'.contains name := by
    intro name
    have hget := get?_similar h name
    unfold Registry.contains
    revert hget
    generalize r.get? name = f, r'.get? name = g
    intro hget
    cases hget <;> rfl
  unfold readBlock
  rw [headers_similar hcontains]
  generalize headers r' [] ((Text.lines text).zipIdx 1) = x
  obtain ⟨definitions, errors⟩ := x
  have hstart : InStep ⟨r, [], [], errors⟩ ⟨r', [], [], errors⟩ := ⟨h, rfl, rfl, rfl⟩
  have hend := defineAll_inStep definitions hfinish hstart
  dsimp only
  rw [hend.errors]
  exact ⟨hend.registry, rfl⟩

/-- Formulas read over the same functions are refused alike or have the same value. -/
theorem read_similar {r r' : Registry} (h : SameFunctions r r') (text : String)
    (names : List String) :
    (∃ e e', read text r names = .ok e ∧ read text r' names = .ok e' ∧
        ∀ env, e.eval env = e'.eval env) ∨
      ∃ error, read text r names = .error error ∧ read text r' names = .error error := by
  have htokens := tokens_refl value (fun _ => rfl) (Token.tokenize text)
  have hread := (topLevel_related value names htokens).against (get?_similar h)
  unfold read
  revert hread
  generalize (topLevel names (Token.tokenize text)).against r = x,
    (topLevel names (Token.tokenize text)).against r' = y
  intro hread
  cases hread with
  | @ok a b hab => exact .inl ⟨a, b, rfl, rfl, hab⟩
  | @error x y hfault =>
      obtain ⟨cause, column⟩ := x
      obtain ⟨_, _⟩ := y
      obtain ⟨rfl, rfl⟩ := hfault
      exact .inr ⟨_, rfl, rfl⟩

/-- Folding is invisible.  It keeps the value of every tree, and with or without it a block
defines the same functions, reports the same errors, and a formula over these functions is
refused with the same error or has the same value for all arguments. -/
theorem folding_invisible :
    (∀ (e : Expr) (args : List Float), SameValue (e.simplify.eval args) (e.eval args)) ∧
    ∀ (block text : String) (functions : Registry) (names : List String),
      (parseBlock block functions).2 = (readBlock id block functions).2 ∧
      List.Forall₂ (fun f g => f.name = g.name ∧ f.params = g.params ∧
          ∀ args, SameValue (f.body.eval args) (g.body.eval args))
        (parseBlock block functions).1.functions (readBlock id block functions).1.functions ∧
      ((∃ e e', parse text (parseBlock block functions).1 names = .ok e ∧
          read text (readBlock id block functions).1 names = .ok e' ∧
          ∀ args, SameValue (e.eval args) (e'.eval args)) ∨
        ∃ error, parse text (parseBlock block functions).1 names = .error error ∧
          read text (readBlock id block functions).1 names = .error error) := by
  refine ⟨fun e args => sameValue_of_eq (Expr.eval_simplify args e), ?_⟩
  intro block text functions names
  have hfinish : SameFinish Expr.simplify id := by
    intro a b hab env
    rw [Expr.eval_simplify]
    exact hab env
  obtain ⟨hsame, herrors⟩ := readBlock_similar hfinish block (sameFunctions_refl functions)
  refine ⟨herrors, hsame.imp fun f g hf => ?_, ?_⟩
  · exact ⟨hf.name, hf.params, fun args => sameValue_of_eq (hf.body args)⟩
  · unfold parse
    rcases read_similar hsame text names with ⟨e, e', he, he', hvalue⟩ | ⟨error, he, he'⟩
    · left
      refine ⟨e.simplify, e', ?_, he', fun args => sameValue_of_eq ?_⟩
      · unfold parseBlock
        rw [he]
        rfl
      · rw [Expr.eval_simplify]
        exact hvalue args
    · right
      refine ⟨error, ?_, he'⟩
      unfold parseBlock
      rw [he]
      rfl

end Parser

end FormulaPlot
