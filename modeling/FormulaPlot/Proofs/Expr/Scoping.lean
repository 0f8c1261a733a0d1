/-
Trees in which nothing is missing.

Evaluation has two values to fall back to: a variable beyond the end of the argument list
is NaN, and so is an intrinsic that is given a wrong number of arguments.  Either would
turn a malformed tree into a silent NaN.  `eval?` is evaluation without them.  It stops
with nothing where a fallback would be taken, and takes every other step as evaluation
does.

A tree is `Scoped` if its variables are among the names it was read over, its calls have
the arguments that they need, and no clause stands inside of it, in the bodies of the
functions that it calls as well.  Such a tree never stops, and it looks at no argument
beyond those that were declared.  Every tree that is named in its scope is one.
-/
import FormulaPlot.Proofs.Expr.Callees

namespace FormulaPlot

/-! ### Evaluation that may stop -/

/-- The value of the function by the row of the table that fits the arguments. -/
def Intrinsic.row? : Intrinsic → List Float → Option Float
  | sqrt, [x] => some x.sqrt
  | sqr, [x] => some (x * x)
  | ln, [x] => some x.log
  | log10, [x] => some x.log10
  | log2, [x] => some x.log2
  | exp, [x] => some x.exp
  | exp10, [x] => some (Float.pow 10 x)
  | exp2, [x] => some x.exp2
  | sin, [x] => some x.sin
  | cos, [x] => some x.cos
  | tan, [x] => some x.tan
  | asin, [x] => some x.asin
  | acos, [x] => some x.acos
  | atan, [x] => some x.atan
  | atan2, [y, x] => some (Float.atan2 y x)
  | abs, [x] => some x.abs
  | max, [a, b] => some (larger a b)
  | min, [a, b] => some (smaller a b)
  | round, [x] => some (roundHalfEven x)
  | floor, [x] => some x.floor
  | ceil, [x] => some x.ceil
  | trunc, [x] => some (truncate x)
  | clamp, [x, low, high] => some (clampTo x low high)
  | clip, [x, low, high] => some (if within x low high then x else nan)
  | inRange, [x, low, high] => some (ofTruth (within x low high))
  | _, _ => none

/-- Without a row that fits, the function is NaN. -/
theorem Intrinsic.apply_eq (f : Intrinsic) (args : List Float) :
    f.apply args = (f.row? args).getD nan := by
  fun_cases Intrinsic.apply f args <;> simp_all [Intrinsic.row?]

/-- A row fits if the arguments are as many as the parameters. -/
theorem Intrinsic.row?_eq (f : Intrinsic) {args : List Float} (h : args.length = f.arity) :
    f.row? args = some (f.apply args) := by
  have hsome : (f.row? args).isSome = true := by
    match args with
    | [] | [_] | [_, _] | [_, _, _] =>
        cases f <;> first | rfl | simp [arity, params] at h
    | _ :: _ :: _ :: _ :: rest =>
        have : f.arity ≤ 3 := by cases f <;> decide
        simp only [List.length_cons] at h
        omega
  obtain ⟨value, hvalue⟩ := Option.isSome_iff_exists.mp hsome
  rw [f.apply_eq, hvalue, Option.getD_some]

namespace Expr

mutual

/-- The value of a tree, if it is found without an argument that is missing and without a
function of a wrong number of arguments. -/
def eval? (env : List Float) : Expr → Option Float
  | const value => some value
  | var index => env[index]?
  | unary op e => (eval? env e).map op.apply
  | binary op a b => do
    let x ← eval? env a
    let y ← eval? env b
    some (op.apply x y)
  | apply f args => (evalAll? env args).bind f.row?
  | call _ _ body args => (evalAll? env args).bind fun values => eval? values body
  | ternary c a b => (eval? env c).bind fun x => if isTrue x then eval? env a else eval? env b
  | limit e c => (eval? env c).bind fun x => if isTrue x then eval? env e else some nan

/-- The values of several trees. -/
def evalAll? (env : List Float) : List Expr → Option (List Float)
  | [] => some []
  | e :: es => do
    let x ← eval? env e
    let xs ← evalAll? env es
    some (x :: xs)

end

mutual

/-- Where evaluation without fallbacks has a value, it is the value. -/
theorem eval_of_eval? {env : List Float} {x : Float} :
    (e : Expr) → eval? env e = some x → eval env e = x
  | const _, h => by
      rw [eval?] at h
      rw [eval]
      exact Option.some.inj h
  | var index, h => by
      rw [eval?] at h
      rw [eval, h, Option.getD_some]
  | unary op e, h => by
      rw [eval?, Option.map_eq_some_iff] at h
      obtain ⟨y, hy, rfl⟩ := h
      rw [eval, eval_of_eval? e hy]
  | binary op a b, h => by
      simp only [eval?, Option.bind_eq_bind, Option.bind_eq_some_iff] at h
      obtain ⟨y, hy, z, hz, hx⟩ := h
      rw [eval, eval_of_eval? a hy, eval_of_eval? b hz]
      exact Option.some.inj hx
  | apply f args, h => by
      rw [eval?, Option.bind_eq_some_iff] at h
      obtain ⟨ys, hys, hx⟩ := h
      rw [eval, evalAll_of_evalAll? args hys, f.apply_eq, hx, Option.getD_some]
  | call _ _ body args, h => by
      rw [eval?, Option.bind_eq_some_iff] at h
      obtain ⟨ys, hys, hx⟩ := h
      rw [eval, evalAll_of_evalAll? args hys, eval_of_eval? body hx]
  | ternary c a b, h => by
      rw [eval?, Option.bind_eq_some_iff] at h
      obtain ⟨y, hy, hx⟩ := h
      rw [eval, eval_of_eval? c hy]
      by_cases hc : isTrue y = true
      · rw [if_pos hc] at hx ⊢
        exact eval_of_eval? a hx
      · rw [if_neg hc] at hx ⊢
        exact eval_of_eval? b hx
  | limit e c, h => by
      rw [eval?, Option.bind_eq_some_iff] at h
      obtain ⟨y, hy, hx⟩ := h
      rw [eval, eval_of_eval? c hy]
      by_cases hc : isTrue y = true
      · rw [if_pos hc] at hx ⊢
        exact eval_of_eval? e hx
      · rw [if_neg hc] at hx ⊢
        exact Option.some.inj hx

theorem evalAll_of_evalAll? {env xs : List Float} :
    (es : List Expr) → evalAll? env es = some xs → evalAll env es = xs
  | [], h => by
      rw [evalAll?] at h
      rw [evalAll]
      exact Option.some.inj h
  | e :: es, h => by
      simp only [evalAll?, Option.bind_eq_bind, Option.bind_eq_some_iff] at h
      obtain ⟨y, hy, ys, hys, hxs⟩ := h
      rw [evalAll, eval_of_eval? e hy, evalAll_of_evalAll? es hys]
      exact Option.some.inj hxs

end

theorem length_evalAll (env : List Float) (es : List Expr) :
    (evalAll env es).length = es.length := by
  induction es with
  | nil => rfl
  | cons e es ih => rw [evalAll, List.length_cons, List.length_cons, ih]

/-! ### Scoped trees -/

mutual

/-- Every variable is one of `n` names and every call has as many arguments as its function
has parameters, in the bodies of the called functions too.  A clause stands only at the
root of a body or, if the tree is a `whole` formula, at its own root. -/
def Scoped (whole : Bool) (n : Nat) : Expr → Prop
  | const _ => True
  | var index => index < n
  | unary _ e => Scoped false n e
  | binary _ a b => Scoped false n a ∧ Scoped false n b
  | apply f args => args.length = f.arity ∧ AllScoped n args
  | call _ params body args =>
    args.length = params.length ∧ AllScoped n args ∧ Scoped true params.length body
  | ternary c a b => Scoped false n c ∧ Scoped false n a ∧ Scoped false n b
  | limit e c => whole = true ∧ Scoped false n e ∧ Scoped false n c

/-- None of several trees has a clause, and the same holds for each. -/
def AllScoped (n : Nat) : List Expr → Prop
  | [] => True
  | e :: es => Scoped false n e ∧ AllScoped n es

end

variable {n : Nat} {e : Expr} {s : Grammar.Scope}

/-- What may stand inside of a formula may be one. -/
theorem Scoped.whole (h : Scoped false n e) : Scoped true n e := by
  cases e with
  | limit e c => exact absurd h.1 (by decide)
  | _ => exact h

variable {whole : Bool}

mutual

/-- Evaluation of a scoped tree does not stop. -/
theorem Scoped.isSome_eval? {whole : Bool} {n : Nat} {env : List Float} (hn : n ≤ env.length) :
    {e : Expr} → Scoped whole n e → ∃ x, eval? env e = some x
  | const value, _ => ⟨value, by rw [eval?]⟩
  | var index, h => by
      have hlt : index < env.length := Nat.lt_of_lt_of_le h hn
      exact ⟨env[index], by rw [eval?, List.getElem?_eq_getElem hlt]⟩
  | unary op e, h => by
      have he : Scoped false n e := h
      obtain ⟨x, hx⟩ := he.isSome_eval? hn
      exact ⟨op.apply x, by rw [eval?, hx, Option.map_some]⟩
  | binary op a b, ⟨ha, hb⟩ => by
      obtain ⟨x, hx⟩ := ha.isSome_eval? hn
      obtain ⟨y, hy⟩ := hb.isSome_eval? hn
      refine ⟨op.apply x y, ?_⟩
      simp only [eval?, hx, hy, Option.bind_eq_bind, Option.bind_some]
  | apply f args, ⟨harity, hargs⟩ => by
      obtain ⟨xs, hxs⟩ := hargs.isSome_evalAll? hn
      have hlength : xs.length = f.arity := by
        rw [← evalAll_of_evalAll? args hxs, length_evalAll, harity]
      exact ⟨f.apply xs, by rw [eval?, hxs, Option.bind_some, f.row?_eq hlength]⟩
  | call _ params body args, ⟨harity, hargs, hbody⟩ => by
      obtain ⟨xs, hxs⟩ := hargs.isSome_evalAll? hn
      have hlength : xs.length = params.length := by
        rw [← evalAll_of_evalAll? args hxs, length_evalAll, harity]
      obtain ⟨x, hx⟩ := hbody.isSome_eval? (Nat.le_of_eq hlength.symm)
      exact ⟨x, by rw [eval?, hxs, Option.bind_some, hx]⟩
  | ternary c a b, ⟨hc, ha, hb⟩ => by
      obtain ⟨z, hz⟩ := hc.isSome_eval? hn
      obtain ⟨x, hx⟩ := ha.isSome_eval? hn
      obtain ⟨y, hy⟩ := hb.isSome_eval? hn
      refine ⟨if isTrue z then x else y, ?_⟩
      rw [eval?, hz, Option.bind_some, hx, hy]
      split <;> rfl
  | limit e c, ⟨_, he, hc⟩ => by
      obtain ⟨z, hz⟩ := hc.isSome_eval? hn
      obtain ⟨x, hx⟩ := he.isSome_eval? hn
      refine ⟨if isTrue z then x else nan, ?_⟩
      rw [eval?, hz, Option.bind_some, hx]
      split <;> rfl

theorem AllScoped.isSome_evalAll? {n : Nat} {env : List Float} (hn : n ≤ env.length) :
    {es : List Expr} → AllScoped n es → ∃ xs, evalAll? env es = some xs
  | [], _ => ⟨[], by rw [evalAll?]⟩
  | e :: es, ⟨he, hes⟩ => by
      obtain ⟨x, hx⟩ := he.isSome_eval? hn
      obtain ⟨xs, hxs⟩ := hes.isSome_evalAll? hn
      refine ⟨x :: xs, ?_⟩
      simp only [evalAll?, hx, hxs, Option.bind_eq_bind, Option.bind_some]

end

/-- A scoped tree has its value without any fallback. -/
theorem Scoped.eval? (h : Scoped whole n e) {env : List Float} (hn : n ≤ env.length) :
    Expr.eval? env e = some (eval env e) := by
  obtain ⟨x, hx⟩ := h.isSome_eval? hn
  rw [hx, eval_of_eval? e hx]

mutual

/-- Arguments behind those that a tree can name do not matter. -/
theorem Scoped.eval_append {whole : Bool} {n : Nat} {env : List Float} (hn : n ≤ env.length)
    (extra : List Float) : {e : Expr} → Scoped whole n e → eval (env ++ extra) e = eval env e
  | const _, _ => by rw [eval, eval]
  | var index, h => by
      rw [eval, eval, List.getElem?_append_left (Nat.lt_of_lt_of_le h hn)]
  | unary op e, h => by
      have he : Scoped false n e := h
      rw [eval, eval, he.eval_append hn]
  | binary op a b, ⟨ha, hb⟩ => by
      rw [eval, eval, ha.eval_append hn, hb.eval_append hn]
  | apply f args, ⟨_, hargs⟩ => by
      rw [eval, eval, hargs.evalAll_append hn]
  | call _ params body args, ⟨_, hargs, _⟩ => by
      rw [eval, eval, hargs.evalAll_append hn]
  | ternary c a b, ⟨hc, ha, hb⟩ => by
      rw [eval, eval, hc.eval_append hn, ha.eval_append hn, hb.eval_append hn]
  | limit e c, ⟨_, he, hc⟩ => by
      rw [eval, eval, he.eval_append hn, hc.eval_append hn]

theorem AllScoped.evalAll_append {n : Nat} {env : List Float} (hn : n ≤ env.length)
    (extra : List Float) :
    {es : List Expr} → AllScoped n es → evalAll (env ++ extra) es = evalAll env es
  | [], _ => by rw [evalAll, evalAll]
  | e :: es, ⟨he, hes⟩ => by
      rw [evalAll, evalAll, he.eval_append hn, hes.evalAll_append hn]

end

/-! ### Folding -/

/-- A node that is folded has become a constant or has stayed. -/
theorem Scoped.fold (h : Scoped whole n e) : Scoped whole n (fold e) := by
  unfold Expr.fold
  by_cases hconst : e.children.all isConst = true
  · rw [if_pos hconst]
    exact trivial
  · rw [if_neg hconst]
    exact h

mutual

/-- Folding keeps a tree scoped. -/
theorem Scoped.simplify {whole : Bool} {n : Nat} :
    {e : Expr} → Scoped whole n e → Scoped whole n e.simplify
  | const _, h | var _, h => by
      rw [Expr.simplify]
      exact h
  | unary _ e, h => by
      rw [Expr.simplify]
      have he : Scoped false n e := h
      exact Scoped.fold he.simplify
  | binary _ a b, ⟨ha, hb⟩ => by
      rw [Expr.simplify]
      exact Scoped.fold ⟨ha.simplify, hb.simplify⟩
  | apply f args, ⟨harity, hargs⟩ => by
      rw [Expr.simplify]
      exact Scoped.fold ⟨(length_simplifyAll args).trans harity, hargs.simplifyAll⟩
  | call _ _ body args, ⟨harity, hargs, hbody⟩ => by
      rw [Expr.simplify]
      exact Scoped.fold ⟨(length_simplifyAll args).trans harity, hargs.simplifyAll, hbody⟩
  | ternary c a b, ⟨hc, ha, hb⟩ => by
      rw [Expr.simplify]
      exact Scoped.fold ⟨hc.simplify, ha.simplify, hb.simplify⟩
  | limit e c, ⟨hwhole, he, hc⟩ => by
      rw [Expr.simplify]
      exact Scoped.fold ⟨hwhole, he.simplify, hc.simplify⟩

theorem AllScoped.simplifyAll {n : Nat} :
    {es : List Expr} → AllScoped n es → AllScoped n (simplifyAll es)
  | [], _ => by
      rw [Expr.simplifyAll]
      exact trivial
  | e :: es, ⟨he, hes⟩ => by
      rw [Expr.simplifyAll]
      exact ⟨he.simplify, hes.simplifyAll⟩

end

/-! ### Named trees -/

/-- The body of every function is scoped by its own parameters. -/
def ScopedBodies (fs : List UserFunction) : Prop :=
  ∀ f ∈ fs, Scoped true f.params.length f.body

mutual

/-- A tree is scoped if its names mean something in their scope, and the functions that
it can call have scoped bodies. -/
theorem Named.scoped (hbodies : ScopedBodies s.functions.functions) :
    {e : Expr} → Named s e → Scoped false s.names.length e
  | const _, _ => trivial
  | var _, h => h
  | unary _ e, h => Named.scoped (e := e) hbodies h
  | binary .., ⟨ha, hb⟩ => ⟨ha.scoped hbodies, hb.scoped hbodies⟩
  | apply .., ⟨_, harity, hargs⟩ => ⟨harity, hargs.allScoped hbodies⟩
  | call .., ⟨⟨hget, _⟩, _, harity, hargs⟩ =>
      ⟨harity, hargs.allScoped hbodies, hbodies _ (Registry.mem_of_get? hget).1⟩
  | ternary .., ⟨hc, ha, hb⟩ =>
      ⟨hc.scoped hbodies, ha.scoped hbodies, hb.scoped hbodies⟩

theorem AllNamed.allScoped (hbodies : ScopedBodies s.functions.functions) :
    {es : List Expr} → AllNamed s es → AllScoped s.names.length es
  | [], _ => trivial
  | _ :: _, ⟨he, hes⟩ => ⟨he.scoped hbodies, hes.allScoped hbodies⟩

end

theorem Writable.scoped (h : Writable s e) (hbodies : ScopedBodies s.functions.functions) :
    Scoped true s.names.length e := by
  cases e with
  | limit e c => exact ⟨rfl, h.1.scoped hbodies, h.2.scoped hbodies⟩
  | _ => exact Scoped.whole (Named.scoped hbodies h)

end Expr

end FormulaPlot
