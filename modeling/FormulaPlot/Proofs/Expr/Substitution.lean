/-
A call means substitution.

The value of a call is the value of the body with the argument trees put in the place of
its variables.  `instantiate` puts them there.  It does not look into the bodies of further
functions that are called, since their variables are their own parameters.

`inlined` does this for all calls of user functions, from the inside out: in the body and
in the arguments first.  What is left calls intrinsics only and has the same values.

The values of the arguments reach the body in one of two ways.  Up to four of them stand at
the front of a buffer that is as long, more of them in a list made for the call.
`evalFramed` evaluates like this, and finds the same value.
-/
import FormulaPlot.Proofs.Expr.NormalForm

namespace FormulaPlot.Expr

variable {e t b c : Expr} {n : Nat} {args : List Expr}

/-! ### Trees with few variables -/

/-- All variables are among the first `n`. -/
def Below (n : Nat) (e : Expr) : Prop := ∀ index, Part (var index) e → index < n

theorem Below.child (h : Below n e) (hc : c ∈ e.children) : Below n c :=
  fun index hpart => h index (.inside hc hpart)

theorem below_of_children (hvar : ∀ index, e = var index → index < n)
    (h : ∀ c ∈ e.children, Below n c) : Below n e := by
  intro index hpart
  cases hpart with
  | whole => exact hvar index rfl
  | inside hc hpart => exact h _ hc index hpart

/-! ### Arguments for variables -/

mutual

/-- The tree with argument trees in the place of its variables. -/
def instantiate (args : List Expr) : Expr → Expr
  | const value => const value
  | var index => args[index]?.getD (var index)
  | unary op e => unary op (instantiate args e)
  | binary op a b => binary op (instantiate args a) (instantiate args b)
  | apply f es => apply f (instantiateAll args es)
  | call name params body es => call name params body (instantiateAll args es)
  | ternary c a b => ternary (instantiate args c) (instantiate args a) (instantiate args b)
  | limit e c => limit (instantiate args e) (instantiate args c)

/-- Several trees with argument trees in the place of their variables. -/
def instantiateAll (args : List Expr) : List Expr → List Expr
  | [] => []
  | e :: es => instantiate args e :: instantiateAll args es

end

theorem evalAll_eq_map (env : List Float) (es : List Expr) :
    evalAll env es = es.map (eval env) := by
  induction es with
  | nil => rfl
  | cons e es ih => rw [evalAll, ih, List.map_cons]

mutual

/-- The arguments can be evaluated first or put in the place of the variables. -/
theorem eval_instantiate (env : List Float) : (e : Expr) → Below args.length e →
    (e.instantiate args).eval env = e.eval (evalAll env args)
  | const _, _ => by rw [instantiate, eval, eval]
  | var index, h => by
      have hlt : index < args.length := h index .whole
      rw [instantiate, List.getElem?_eq_getElem hlt, Option.getD_some, eval, evalAll_eq_map,
        List.getElem?_map, List.getElem?_eq_getElem hlt, Option.map_some, Option.getD_some]
  | unary op e, h => by
      rw [instantiate, eval, eval, eval_instantiate env e (h.child (by simp [children]))]
  | binary op a b, h => by
      rw [instantiate, eval, eval, eval_instantiate env a (h.child (by simp [children])),
        eval_instantiate env b (h.child (by simp [children]))]
  | apply f es, h => by
      rw [instantiate, eval, eval, evalAll_instantiateAll env es fun e he => h.child he]
  | call _ _ body es, h => by
      rw [instantiate, eval, eval, evalAll_instantiateAll env es fun e he => h.child he]
  | ternary c a b, h => by
      rw [instantiate, eval, eval, eval_instantiate env c (h.child (by simp [children])),
        eval_instantiate env a (h.child (by simp [children])),
        eval_instantiate env b (h.child (by simp [children]))]
  | limit e c, h => by
      rw [instantiate, eval, eval, eval_instantiate env e (h.child (by simp [children])),
        eval_instantiate env c (h.child (by simp [children]))]

theorem evalAll_instantiateAll (env : List Float) : (es : List Expr) →
    (∀ e ∈ es, Below args.length e) →
    evalAll env (instantiateAll args es) = evalAll (evalAll env args) es
  | [], _ => by rw [instantiateAll, evalAll, evalAll]
  | e :: es, h => by
      rw [instantiateAll, evalAll, evalAll, eval_instantiate env e (h e List.mem_cons_self),
        evalAll_instantiateAll env es fun e' he => h e' (List.mem_cons_of_mem _ he)]

end

/-- A call has the value of the body with the arguments put in. -/
theorem eval_callOf {f : UserFunction} (hbody : Below f.arity f.body)
    (hargs : args.length = f.arity) (env : List Float) :
    (callOf f args).eval env = (f.body.instantiate args).eval env := by
  rw [eval_instantiate env f.body (hargs ▸ hbody), callOf, eval]

/-! ### What stands in a tree with arguments put in -/

/-- A call of a user function. -/
def isCall : Expr → Bool
  | call .. => true
  | _ => false

theorem instantiateAll_eq_map (args es : List Expr) :
    instantiateAll args es = es.map (instantiate args) := by
  induction es with
  | nil => rfl
  | cons e es ih => rw [instantiateAll, ih, List.map_cons]

/-- A node stays a node of its kind. -/
theorem instantiate_node (args : List Expr) (h : e.isLeaf = false) :
    (e.instantiate args).isLeaf = false ∧ (e.instantiate args).isCall = e.isCall ∧
      (e.instantiate args).children = e.children.map (instantiate args) := by
  cases e with
  | const | var => cases h
  | apply | call =>
      rw [instantiate]
      exact ⟨rfl, rfl, instantiateAll_eq_map args _⟩
  | _ =>
      rw [instantiate]
      exact ⟨rfl, rfl, rfl⟩

/-- What stands in the tree comes from an argument or from the tree, and is then no variable
that an argument has taken the place of. -/
theorem part_instantiate (h : Part t (b.instantiate args)) :
    (∃ a ∈ args, Part t a) ∨
      ∃ s, Part s b ∧ t = s.instantiate args ∧ ∀ index, s = var index → args.length ≤ index := by
  induction b using children_induction with
  | step b ih =>
      by_cases hleaf : b.isLeaf = true
      · obtain ⟨value, rfl⟩ | ⟨index, rfl⟩ := isLeaf_iff.mp hleaf
        · right
          rw [instantiate] at h
          exact ⟨_, .whole, by rw [h.eq_of_isLeaf rfl, instantiate], nofun⟩
        · rcases Nat.lt_or_ge index args.length with hlt | hge
          · left
            rw [instantiate, List.getElem?_eq_getElem hlt, Option.getD_some] at h
            exact ⟨_, List.getElem_mem hlt, h⟩
          · right
            have hvar : (var index).instantiate args = var index := by
              rw [instantiate, List.getElem?_eq_none hge, Option.getD_none]
            rw [hvar] at h
            refine ⟨var index, .whole, by rw [hvar, h.eq_of_isLeaf rfl], fun i hi => ?_⟩
            obtain rfl := var.inj hi
            exact hge
      · rw [Bool.not_eq_true] at hleaf
        cases h with
        | whole =>
            right
            refine ⟨b, .whole, rfl, fun index hindex => ?_⟩
            rw [hindex] at hleaf
            cases hleaf
        | inside hc h =>
            rw [(instantiate_node args hleaf).2.2] at hc
            obtain ⟨c', hc', rfl⟩ := List.mem_map.mp hc
            rcases ih c' hc' h with harg | ⟨s, hs, ht, hvar⟩
            · exact .inl harg
            · exact .inr ⟨s, .inside hc' hs, ht, hvar⟩

theorem Below.instantiate (hb : Below args.length b) (hargs : ∀ a ∈ args, Below n a) :
    Below n (b.instantiate args) := by
  intro index hpart
  rcases part_instantiate hpart with ⟨a, ha, hpart⟩ | ⟨s, hs, ht, hvar⟩
  · exact hargs a ha index hpart
  · -- No variable of the tree itself is left.
    by_cases hleaf : s.isLeaf = true
    · obtain ⟨value, rfl⟩ | ⟨i, rfl⟩ := isLeaf_iff.mp hleaf
      · rw [Expr.instantiate] at ht
        cases ht
      · exact absurd (hb i hs) (Nat.not_lt_of_le (hvar i rfl))
    · rw [Bool.not_eq_true] at hleaf
      have hnode := (instantiate_node args hleaf).1
      rw [← ht] at hnode
      cases hnode

/-- Where nothing is a call, nothing becomes one. -/
theorem isCall_of_part_instantiate (hb : ∀ s, Part s b → s.isCall = false)
    (hargs : ∀ a ∈ args, ∀ s, Part s a → s.isCall = false)
    (h : Part t (b.instantiate args)) : t.isCall = false := by
  rcases part_instantiate h with ⟨a, ha, hpart⟩ | ⟨s, hs, rfl, hvar⟩
  · exact hargs a ha t hpart
  · by_cases hleaf : s.isLeaf = true
    · obtain ⟨value, rfl⟩ | ⟨i, rfl⟩ := isLeaf_iff.mp hleaf
      · rw [instantiate]
        rfl
      · rw [instantiate, List.getElem?_eq_none (hvar i rfl), Option.getD_none]
        rfl
    · rw [Bool.not_eq_true] at hleaf
      rw [(instantiate_node args hleaf).2.1]
      exact hb s hs

/-! ### Inlining all calls -/

mutual

/-- The tree with the body of every user function that it calls in the place of the call. -/
def inlined : Expr → Expr
  | const value => const value
  | var index => var index
  | unary op e => unary op (inlined e)
  | binary op a b => binary op (inlined a) (inlined b)
  | apply f args => apply f (inlinedAll args)
  | call _ _ body args => (inlined body).instantiate (inlinedAll args)
  | ternary c a b => ternary (inlined c) (inlined a) (inlined b)
  | limit e c => limit (inlined e) (inlined c)

/-- Several trees with all calls inlined. -/
def inlinedAll : List Expr → List Expr
  | [] => []
  | e :: es => inlined e :: inlinedAll es

end

mutual

/-- Every call of a user function gives as many arguments as there are parameters, and its
body has no other variables.  The same holds in the body and in the arguments. -/
def Bound : Expr → Prop
  | const _ | var _ => True
  | unary _ e => Bound e
  | binary _ a b => Bound a ∧ Bound b
  | apply _ args => AllBound args
  | call _ params body args =>
    args.length = params.length ∧ Below params.length body ∧ Bound body ∧ AllBound args
  | ternary c a b => Bound c ∧ Bound a ∧ Bound b
  | limit e c => Bound e ∧ Bound c

/-- The same holds of several trees. -/
def AllBound : List Expr → Prop
  | [] => True
  | e :: es => Bound e ∧ AllBound es

end

theorem inlinedAll_eq_map (es : List Expr) : inlinedAll es = es.map inlined := by
  induction es with
  | nil => rfl
  | cons e es ih => rw [inlinedAll, ih, List.map_cons]

theorem allBound_iff (es : List Expr) : AllBound es ↔ ∀ e ∈ es, Bound e := by
  induction es with
  | nil => simp [AllBound]
  | cons e es ih => rw [AllBound, ih, List.forall_mem_cons]

theorem Bound.child (h : Bound e) (hc : c ∈ e.children) : Bound c := by
  cases e with
  | const | var => cases hc
  | unary =>
      obtain rfl := List.mem_singleton.mp hc
      exact h
  | binary | limit =>
      simp only [children, List.mem_cons, List.not_mem_nil, or_false] at hc
      rcases hc with rfl | rfl
      · exact h.1
      · exact h.2
  | ternary =>
      simp only [children, List.mem_cons, List.not_mem_nil, or_false] at hc
      rcases hc with rfl | rfl | rfl
      · exact h.1
      · exact h.2.1
      · exact h.2.2
  | apply => exact (allBound_iff _).mp h c hc
  | call => exact (allBound_iff _).mp h.2.2.2 c hc

/-- What every tree has if it goes from the children to a node, and from a body and the
arguments to a call. -/
theorem call_induction {P : Expr → Prop}
    (node : ∀ e, e.isCall = false → (∀ c ∈ e.children, P c) → P e)
    (body : ∀ name params body args, P body → (∀ a ∈ args, P a) → P (call name params body args))
    (e : Expr) : P e := by
  by_cases hcall : e.isCall = true
  · cases e with
    | call name params b args =>
        exact body name params b args (call_induction node body b)
          fun a _ => call_induction node body a
    | _ => cases hcall
  · exact node e (Bool.eq_false_of_not_eq_true hcall) fun c _ => call_induction node body c
termination_by sizeOf e
decreasing_by
  · simp only [call.sizeOf_spec]
    omega
  · exact sizeOf_lt_of_mem_children (e := call _ _ _ _) ‹_›
  · exact sizeOf_lt_of_mem_children ‹_›

theorem inlined_of_isLeaf (h : e.isLeaf = true) : e.inlined = e := by
  obtain ⟨value, rfl⟩ | ⟨index, rfl⟩ := isLeaf_iff.mp h <;> rw [inlined]

/-- Any other node stays a node of its kind. -/
theorem inlined_node (hleaf : e.isLeaf = false) (hcall : e.isCall = false) :
    e.inlined.isLeaf = false ∧ e.inlined.isCall = false ∧
      e.inlined.children = e.children.map inlined := by
  cases e with
  | const | var => cases hleaf
  | call => cases hcall
  | apply =>
      rw [inlined]
      exact ⟨rfl, rfl, inlinedAll_eq_map _⟩
  | _ =>
      rw [inlined]
      exact ⟨rfl, rfl, rfl⟩

theorem Bound.below_inlined (h : Bound e) (hbelow : Below n e) : Below n e.inlined := by
  induction e using call_induction generalizing n with
  | node e hcall ih =>
      by_cases hleaf : e.isLeaf = true
      · rw [inlined_of_isLeaf hleaf]
        exact hbelow
      · rw [Bool.not_eq_true] at hleaf
        obtain ⟨hleaf', -, hchildren⟩ := inlined_node hleaf hcall
        refine below_of_children (fun index hindex => ?_) fun c hc => ?_
        · rw [hindex] at hleaf'
          cases hleaf'
        · rw [hchildren] at hc
          obtain ⟨c', hc', rfl⟩ := List.mem_map.mp hc
          exact ih c' hc' (h.child hc') (hbelow.child hc')
  | body name params b args ihb ihargs =>
      obtain ⟨harity, hparams, hb, hargs⟩ := h
      rw [inlined, inlinedAll_eq_map]
      refine Below.instantiate ?_ fun a ha => ?_
      · rw [List.length_map, harity]
        exact ihb hb hparams
      · obtain ⟨a', ha', rfl⟩ := List.mem_map.mp ha
        exact ihargs a' ha' ((allBound_iff args).mp hargs a' ha') (hbelow.child ha')

/-- No call of a user function is left. -/
theorem isCall_of_part_inlined (e : Expr) (h : Part t e.inlined) : t.isCall = false := by
  induction e using call_induction generalizing t with
  | node e hcall ih =>
      by_cases hleaf : e.isLeaf = true
      · rw [inlined_of_isLeaf hleaf] at h
        rw [h.eq_of_isLeaf hleaf]
        exact hcall
      · rw [Bool.not_eq_true] at hleaf
        obtain ⟨-, hcall', hchildren⟩ := inlined_node hleaf hcall
        cases h with
        | whole => exact hcall'
        | inside hc h =>
            rw [hchildren] at hc
            obtain ⟨c', hc', rfl⟩ := List.mem_map.mp hc
            exact ih c' hc' h
  | body name params b args ihb ihargs =>
      rw [inlined, inlinedAll_eq_map] at h
      refine isCall_of_part_instantiate (fun s hs => ihb hs) (fun a ha s hs => ?_) h
      obtain ⟨a', ha', rfl⟩ := List.mem_map.mp ha
      exact ihargs a' ha' hs

mutual

/-- Inlining keeps the value. -/
theorem eval_inlined (env : List Float) : (e : Expr) → Bound e → e.inlined.eval env = e.eval env
  | const _, _ | var _, _ => by rw [inlined]
  | unary op e, h => by
      have he : Bound e := h
      rw [inlined, eval, eval, eval_inlined env e he]
  | binary op a b, ⟨ha, hb⟩ => by
      rw [inlined, eval, eval, eval_inlined env a ha, eval_inlined env b hb]
  | apply f args, h => by
      have hargs : AllBound args := h
      rw [inlined, eval, eval, evalAll_inlinedAll env args hargs]
  | call _ params body args, ⟨harity, hparams, hbody, hargs⟩ => by
      have hlength : (inlinedAll args).length = params.length := by
        rw [inlinedAll_eq_map, List.length_map, harity]
      rw [inlined, eval_instantiate env _ (hlength ▸ hbody.below_inlined hparams), eval,
        evalAll_inlinedAll env args hargs]
      exact eval_inlined (evalAll env args) body hbody
  | ternary c a b, ⟨hc, ha, hb⟩ => by
      rw [inlined, eval, eval, eval_inlined env c hc, eval_inlined env a ha,
        eval_inlined env b hb]
  | limit e c, ⟨he, hc⟩ => by
      rw [inlined, eval, eval, eval_inlined env e he, eval_inlined env c hc]

theorem evalAll_inlinedAll (env : List Float) : (es : List Expr) → AllBound es →
    evalAll env (inlinedAll es) = evalAll env es
  | [], _ => by rw [inlinedAll]
  | e :: es, ⟨he, hes⟩ => by
      rw [inlinedAll, evalAll, evalAll, eval_inlined env e he, evalAll_inlinedAll env es hes]

end

/-! ### How the values of arguments are held -/

/-- How many values the buffer of a call holds. -/
def bufferSize : Nat := 4

/-- The buffer with values in the place of those at its front. -/
def overwrite : (values buffer : List Float) → List Float
  | value :: values, _ :: buffer => value :: overwrite values buffer
  | _, buffer => buffer

/-- The values that a called function sees: the front of a buffer of zeros, if they fit, or
a list of their own. -/
def frame (values : List Float) : List Float :=
  if values.length ≤ bufferSize then
    (overwrite values (List.replicate bufferSize 0)).take values.length
  else values

mutual

/-- The value of a tree, with the values of arguments held in frames. -/
def evalFramed (env : List Float) : Expr → Float
  | const value => value
  | var index => env[index]?.getD nan
  | unary op e => op.apply (evalFramed env e)
  | binary op a b => op.apply (evalFramed env a) (evalFramed env b)
  | apply f args => f.apply (frame (evalAllFramed env args))
  | call _ _ body args => evalFramed (frame (evalAllFramed env args)) body
  | ternary c a b => if isTrue (evalFramed env c) then evalFramed env a else evalFramed env b
  | limit e c => if isTrue (evalFramed env c) then evalFramed env e else nan

/-- The values of several trees. -/
def evalAllFramed (env : List Float) : List Expr → List Float
  | [] => []
  | e :: es => evalFramed env e :: evalAllFramed env es

end

theorem take_overwrite (values buffer : List Float) (h : values.length ≤ buffer.length) :
    (overwrite values buffer).take values.length = values := by
  induction values generalizing buffer with
  | nil => rfl
  | cons value values ih =>
      cases buffer with
      | nil => cases h
      | cons slot buffer =>
          rw [overwrite, List.length_cons, List.take_succ_cons,
            ih buffer (Nat.le_of_succ_le_succ h)]

/-- In the buffer or not, the function sees the values. -/
theorem frame_eq (values : List Float) : frame values = values := by
  unfold frame
  by_cases h : values.length ≤ bufferSize
  · rw [if_pos h, take_overwrite _ _ (by rw [List.length_replicate]; exact h)]
  · rw [if_neg h]

mutual

theorem evalFramed_eq (env : List Float) : (e : Expr) → e.evalFramed env = e.eval env
  | const _ | var _ => by rw [evalFramed, eval]
  | unary op e => by rw [evalFramed, eval, evalFramed_eq env e]
  | binary op a b => by rw [evalFramed, eval, evalFramed_eq env a, evalFramed_eq env b]
  | apply f args => by rw [evalFramed, eval, evalAllFramed_eq env args, frame_eq]
  | call _ _ body args => by
      rw [evalFramed, eval, evalAllFramed_eq env args, frame_eq]
      exact evalFramed_eq (evalAll env args) body
  | ternary c a b => by
      rw [evalFramed, eval, evalFramed_eq env c, evalFramed_eq env a, evalFramed_eq env b]
  | limit e c => by rw [evalFramed, eval, evalFramed_eq env e, evalFramed_eq env c]

theorem evalAllFramed_eq (env : List Float) : (es : List Expr) →
    evalAllFramed env es = evalAll env es
  | [] => by rw [evalAllFramed, evalAll]
  | e :: es => by
      rw [evalAllFramed, evalAll, evalFramed_eq env e, evalAllFramed_eq env es]

end

/-! ### The statement -/

/-- However the values of arguments are held, a call of a user function has the value of its
body with the arguments in the place of the parameters, and inlining all calls of a tree
leaves none of them and keeps the value for all arguments. -/
theorem call_is_substitution :
    (∀ (f : UserFunction) (args : List Expr), Below f.arity f.body → args.length = f.arity →
      ∀ env, (callOf f args).evalFramed env = (f.body.instantiate args).evalFramed env ∧
        (callOf f args).eval env = (f.body.instantiate args).eval env) ∧
    (∀ e : Expr, Bound e →
      (∀ t, Part t e.inlined → t.isCall = false) ∧
        ∀ env, e.inlined.evalFramed env = e.evalFramed env ∧
          e.inlined.eval env = e.eval env) ∧
    ∀ (e : Expr) (env : List Float), e.evalFramed env = e.eval env := by
  refine ⟨fun f args hbody hargs env => ?_, fun e he => ?_, fun e env => evalFramed_eq env e⟩
  · rw [evalFramed_eq, evalFramed_eq]
    exact ⟨eval_callOf hbody hargs env, eval_callOf hbody hargs env⟩
  · refine ⟨fun t h => isCall_of_part_inlined e h, fun env => ?_⟩
    rw [evalFramed_eq, evalFramed_eq]
    exact ⟨eval_inlined env e he, eval_inlined env e he⟩

/-- A function of five parameters, whose values do not fit into the buffer, with a call in its
body and a choice and a call among its arguments. -/
theorem call_is_substitution_five :
    let negate (e : Expr) : Expr := call "g" ["a"] (unary .neg (var 0)) [e]
    let f : UserFunction :=
      ⟨"f", ["a", "b", "c", "d", "e"], binary .sub (var 4) (negate (var 0))⟩
    let args := [ternary (var 0) (const 1) (var 7), const 2, const nan, var 1, negate (var 0)]
    Below f.arity f.body ∧ args.length = f.arity ∧ Bound (callOf f args) ∧
      ∀ env, (callOf f args).evalFramed env = (f.body.instantiate args).evalFramed env ∧
        (callOf f args).inlined.evalFramed env = (callOf f args).evalFramed env := by
  intro negate f args
  have hvar : ∀ {n index : Nat}, index < n → Below n (var index) := fun h =>
    below_of_children (fun _ heq => var.inj heq ▸ h) nofun
  have hneg : Below 1 (unary .neg (var 0)) := by
    refine below_of_children nofun fun c hc => ?_
    obtain rfl := List.mem_singleton.mp hc
    exact hvar (by decide)
  have hbody : Below f.arity f.body := by
    refine below_of_children nofun fun c hc => ?_
    rcases List.mem_cons.mp hc with rfl | hc
    · exact hvar (by decide)
    · obtain rfl := List.mem_singleton.mp hc
      refine below_of_children nofun fun c hc => ?_
      obtain rfl := List.mem_singleton.mp hc
      exact hvar (by decide)
  have hbound : Bound (callOf f args) :=
    ⟨rfl, hbody, ⟨trivial, rfl, hneg, trivial, trivial, trivial⟩, ⟨trivial, trivial, trivial⟩,
      trivial, trivial, trivial, ⟨rfl, hneg, trivial, trivial, trivial⟩, trivial⟩
  obtain ⟨hcall, hinlined, -⟩ := call_is_substitution
  exact ⟨hbody, rfl, hbound, fun env =>
    ⟨(hcall f args hbody rfl env).1, ((hinlined _ hbound).2 env).1⟩⟩

end FormulaPlot.Expr
