/-
The functions that a tree calls.

A tree carries the functions that it calls, and they are the ones that the registry had
when the tree was read.  This file says which trees are such: every tree that the grammar
derives is `Named`, folding its constants keeps it so, and it stays so over any registry
that answers the same for the functions that are called.

Folding is also shown to be done after one time.  A body that has been stored is folded
already, so reading its text again has to fold no more than the new tree.
-/
import FormulaPlot.Expr.Simplify
import FormulaPlot.Proofs.Expr.Printer

namespace FormulaPlot

/-- What is found is a function of the registry, and has the name. -/
theorem Registry.mem_of_get? {r : Registry} {name : String} {f : UserFunction}
    (h : r.get? name = some f) : f ∈ r.functions ∧ f.name = name :=
  ⟨List.mem_of_find?_eq_some h, by simpa using List.find?_some h⟩

namespace Expr

open Grammar (Derives DerivesArgs Scope)
open Token (Kind)

/-! ### Callees -/

mutual

/-- The functions that a tree calls.  Those that are called in their bodies do not count. -/
def callees : Expr → List UserFunction
  | const _ | var _ => []
  | unary _ e => callees e
  | binary _ a b => callees a ++ callees b
  | apply _ args => allCallees args
  | call name params body args => ⟨name, params, body⟩ :: allCallees args
  | ternary c a b => callees c ++ callees a ++ callees b
  | limit e c => callees e ++ callees c

/-- The functions that several trees call. -/
def allCallees : List Expr → List UserFunction
  | [] => []
  | e :: es => callees e ++ allCallees es

end

variable {s s' : Scope} {e : Expr} {es : List Expr} {g : UserFunction}

mutual

/-- The registry has the functions that are called. -/
theorem Named.get?_of_mem : {e : Expr} → Named s e → g ∈ callees e →
    s.functions.get? g.name = some g
  | const _, _, hg => by simp [callees] at hg
  | var _, _, hg => by simp [callees] at hg
  | unary _ e, h, hg => Named.get?_of_mem (e := e) h hg
  | binary _ a b, ⟨ha, hb⟩, hg => by
      rcases List.mem_append.mp hg with hg | hg
      · exact ha.get?_of_mem hg
      · exact hb.get?_of_mem hg
  | apply _ args, ⟨_, _, hargs⟩, hg => hargs.get?_of_mem hg
  | call name params body args, ⟨⟨hget, _⟩, _, _, hargs⟩, hg => by
      rcases List.mem_cons.mp hg with rfl | hg
      · exact hget
      · exact hargs.get?_of_mem hg
  | ternary c a b, ⟨hc, ha, hb⟩, hg => by
      simp only [callees, List.mem_append] at hg
      rcases hg with (hg | hg) | hg
      · exact hc.get?_of_mem hg
      · exact ha.get?_of_mem hg
      · exact hb.get?_of_mem hg

theorem AllNamed.get?_of_mem : {es : List Expr} → AllNamed s es → g ∈ allCallees es →
    s.functions.get? g.name = some g
  | [], _, hg => by simp [allCallees] at hg
  | e :: es, ⟨he, hes⟩, hg => by
      rcases List.mem_append.mp hg with hg | hg
      · exact he.get?_of_mem hg
      · exact hes.get?_of_mem hg

end

theorem Writable.get?_of_mem (h : Writable s e) (hg : g ∈ callees e) :
    s.functions.get? g.name = some g := by
  cases e with
  | limit e c =>
      rcases List.mem_append.mp hg with hg | hg
      · exact h.1.get?_of_mem hg
      · exact h.2.get?_of_mem hg
  | _ => exact Named.get?_of_mem h hg

/-! ### Other registries

A tree that is named over one registry is named over another one if that has the same
functions under the names that are called.
-/

mutual

theorem Named.of_callees (hnames : s'.names = s.names) : {e : Expr} → Named s e →
    (∀ g ∈ callees e, s'.functions.get? g.name = some g) → Named s' e
  | const _, _, _ => trivial
  | var index, h, _ => by
      show index < s'.names.length
      rw [hnames]
      exact h
  | unary _ e, h, hget => Named.of_callees (e := e) hnames h hget
  | binary _ a b, ⟨ha, hb⟩, hget => by
      simp only [callees, List.mem_append] at hget
      exact ⟨ha.of_callees hnames fun g hg => hget g (.inl hg),
        hb.of_callees hnames fun g hg => hget g (.inr hg)⟩
  | apply f args, ⟨hvar, harity, hargs⟩, hget =>
      ⟨hnames ▸ hvar, harity, hargs.of_callees hnames hget⟩
  | call name params body args, ⟨⟨_, hname, hvar, hreserved⟩, hparams, harity, hargs⟩, hget => by
      simp only [callees, List.forall_mem_cons] at hget
      exact ⟨⟨hget.1, hname, hnames ▸ hvar, hreserved⟩, hparams, harity,
        hargs.of_callees hnames hget.2⟩
  | ternary c a b, ⟨hc, ha, hb⟩, hget => by
      simp only [callees, List.mem_append] at hget
      exact ⟨hc.of_callees hnames fun g hg => hget g (.inl (.inl hg)),
        ha.of_callees hnames fun g hg => hget g (.inl (.inr hg)),
        hb.of_callees hnames fun g hg => hget g (.inr hg)⟩

theorem AllNamed.of_callees (hnames : s'.names = s.names) : {es : List Expr} → AllNamed s es →
    (∀ g ∈ allCallees es, s'.functions.get? g.name = some g) → AllNamed s' es
  | [], _, _ => trivial
  | e :: es, ⟨he, hes⟩, hget => by
      simp only [allCallees, List.mem_append] at hget
      exact ⟨he.of_callees hnames fun g hg => hget g (.inl hg),
        hes.of_callees hnames fun g hg => hget g (.inr hg)⟩

end

theorem Writable.of_callees (hnames : s'.names = s.names) (h : Writable s e)
    (hget : ∀ g ∈ callees e, s'.functions.get? g.name = some g) : Writable s' e := by
  cases e with
  | limit e c =>
      simp only [callees, List.mem_append] at hget
      exact ⟨h.1.of_callees hnames fun g hg => hget g (.inl hg),
        h.2.of_callees hnames fun g hg => hget g (.inr hg)⟩
  | _ => exact Named.of_callees hnames h hget

/-! ### Folding -/

/-- Folding the subtrees first leaves only the node itself to be folded. -/
theorem simplify_fold (h : e.simplify = fold e) : (fold e).simplify = fold e := by
  unfold fold at h ⊢
  by_cases hconst : e.children.all isConst = true
  · rw [if_pos hconst]
    exact simplify.eq_1 _
  · rw [if_neg hconst] at h ⊢
    exact h

mutual

/-- What has been folded stays as it is. -/
theorem simplify_simplify : (e : Expr) → e.simplify.simplify = e.simplify
  | const _ | var _ => by simp only [simplify]
  | unary op e => by
      rw [simplify]
      exact simplify_fold (by rw [simplify, simplify_simplify e])
  | binary op a b => by
      rw [simplify]
      exact simplify_fold (by rw [simplify, simplify_simplify a, simplify_simplify b])
  | apply f args => by
      rw [simplify]
      exact simplify_fold (by rw [simplify, simplifyAll_simplifyAll args])
  | call name params body args => by
      rw [simplify]
      exact simplify_fold (by rw [simplify, simplifyAll_simplifyAll args])
  | ternary c a b => by
      rw [simplify]
      exact simplify_fold
        (by rw [simplify, simplify_simplify c, simplify_simplify a, simplify_simplify b])
  | limit e c => by
      rw [simplify]
      exact simplify_fold (by rw [simplify, simplify_simplify e, simplify_simplify c])

theorem simplifyAll_simplifyAll : (es : List Expr) →
    simplifyAll (simplifyAll es) = simplifyAll es
  | [] => by simp only [simplifyAll]
  | e :: es => by
      simp only [simplifyAll, simplify_simplify e, simplifyAll_simplifyAll es]

end

theorem length_simplifyAll (es : List Expr) : (simplifyAll es).length = es.length := by
  induction es with
  | nil => rfl
  | cons e es ih => rw [simplifyAll, List.length_cons, List.length_cons, ih]

/-- A node that is folded has become a constant or has stayed. -/
theorem Named.fold (h : Named s e) : Named s (fold e) := by
  unfold Expr.fold
  by_cases hconst : e.children.all isConst = true
  · rw [if_pos hconst]
    exact trivial
  · rw [if_neg hconst]
    exact h

mutual

theorem Named.simplify : {e : Expr} → Named s e → Named s e.simplify
  | const _, h | var _, h => by
      rw [Expr.simplify]
      exact h
  | unary _ e, h => by
      rw [Expr.simplify]
      exact Named.fold (Named.simplify (e := e) h)
  | binary _ a b, ⟨ha, hb⟩ => by
      rw [Expr.simplify]
      exact Named.fold ⟨ha.simplify, hb.simplify⟩
  | apply f args, ⟨hvar, harity, hargs⟩ => by
      rw [Expr.simplify]
      exact Named.fold ⟨hvar, (length_simplifyAll args).trans harity, hargs.simplifyAll⟩
  | call name params body args, ⟨hname, hparams, harity, hargs⟩ => by
      rw [Expr.simplify]
      exact Named.fold ⟨hname, hparams, (length_simplifyAll args).trans harity, hargs.simplifyAll⟩
  | ternary c a b, ⟨hc, ha, hb⟩ => by
      rw [Expr.simplify]
      exact Named.fold ⟨hc.simplify, ha.simplify, hb.simplify⟩

theorem AllNamed.simplifyAll : {es : List Expr} → AllNamed s es → AllNamed s (simplifyAll es)
  | [], _ => by
      rw [Expr.simplifyAll]
      exact trivial
  | e :: es, ⟨he, hes⟩ => by
      rw [Expr.simplifyAll]
      exact ⟨he.simplify, hes.simplifyAll⟩

end

theorem Named.writable (h : Named s e) : Writable s e := by
  cases e with
  | limit _ _ => exact absurd h id
  | _ => exact h

theorem Writable.simplify (h : Writable s e) : Writable s e.simplify := by
  cases e with
  | limit e c =>
      rw [Expr.simplify]
      unfold Expr.fold
      by_cases hconst : (limit e.simplify c.simplify).children.all isConst = true
      · rw [if_pos hconst]
        exact trivial
      · rw [if_neg hconst]
        exact ⟨h.1.simplify, h.2.simplify⟩
  | _ => exact (Named.simplify h).writable

/-! ### Phrases -/

/-- A function can be called by its name. -/
structure Callable (f : UserFunction) : Prop where
  name : IsName f.name
  params : f.params ≠ []

theorem name_of_ofName? {name : String} {f : Intrinsic} (h : Intrinsic.ofName? name = some f) :
    f.name = name := by
  simpa using List.find?_some h

/-- Nothing is weaker than a clause. -/
theorem next_ne_clause (p : Precedence) : p.next ≠ .clause := by
  cases p <;> decide

mutual

/-- What the grammar derives is named in its scope. -/
theorem named_of_derives (hcallable : ∀ f ∈ s.functions.functions, Callable f) {p : Precedence}
    {ks : List Kind} {e : Expr} : Derives s p ks e → p ≠ .clause → Named s e
  | .number _, _ | .constant .., _ => trivial
  | .variable h _, _ => (List.getElem?_eq_some_iff.mp h).1
  | .call hvar hconst (.intrinsic hname) hargs harity, _ => by
      rw [← name_of_ofName? hname] at hvar
      exact ⟨hvar, harity, allNamed_of_derives hcallable hargs⟩
  | .call hvar hconst (.user hno hget) hargs harity, _ => by
      obtain ⟨hmem, rfl⟩ := Registry.mem_of_get? hget
      exact ⟨⟨hget, (hcallable _ hmem).name, hvar, hconst, hno⟩, (hcallable _ hmem).params,
        harity, allNamed_of_derives hcallable hargs⟩
  | .parens h, _ => named_of_derives hcallable h (by decide)
  | .unary (e := inner) _ h, _ => named_of_derives (e := inner) hcallable h (by decide)
  | .power ha hb, _ =>
      ⟨named_of_derives hcallable ha (by decide), named_of_derives hcallable hb (by decide)⟩
  | .chain _ ha hb, hp =>
      ⟨named_of_derives hcallable ha hp, named_of_derives hcallable hb (next_ne_clause _)⟩
  | .ternary hc hy hn, _ =>
      ⟨named_of_derives hcallable hc (by decide), named_of_derives hcallable hy (by decide),
        named_of_derives hcallable hn (by decide)⟩
  | .clause .., hp => absurd rfl hp
  | .stronger _ h, _ => named_of_derives hcallable h (next_ne_clause _)

theorem allNamed_of_derives (hcallable : ∀ f ∈ s.functions.functions, Callable f)
    {ks : List Kind} {es : List Expr} : DerivesArgs s ks es → AllNamed s es
  | .last h => ⟨named_of_derives hcallable h (by decide), trivial⟩
  | .more h hs => ⟨named_of_derives hcallable h (by decide), allNamed_of_derives hcallable hs⟩

end

/-- A whole formula that the grammar derives can be written. -/
theorem writable_of_derives (hcallable : ∀ f ∈ s.functions.functions, Callable f)
    {ks : List Kind} (h : Derives s .clause ks e) : Writable s e := by
  cases h with
  | chain hop _ _ => cases hop
  | clause he hc =>
      exact ⟨named_of_derives hcallable he (by decide), named_of_derives hcallable hc (by decide)⟩
  | stronger _ h => exact (named_of_derives hcallable h (by decide)).writable

end Expr

end FormulaPlot
