/-
The grammar of formulas.

    clause      → ternary (',' 'where' ternary)?
    ternary     → disjunction ('?' disjunction ':' ternary)?
    disjunction → conjunction ('||' conjunction)*
    conjunction → comparison ('&&' comparison)*
    comparison  → sum (('=' | '==' | '!=' | '<' | '<=' | '>' | '>=') sum)*
    sum         → product (('+' | '-') product)*
    product     → power (('*' | '/' | '%') power)*
    power       → unary ('^' power)?
    unary       → ('-' | '!') unary | atom
    atom        → number | name | name '(' ternary (',' ternary)* ')' | '(' ternary ')'

The parser is not written this way: one loop with a weakest precedence stands for
six of these layers.  `Derives` is the grammar itself, layer by layer, together with
the tree that each production builds.  Every layer is named by the precedence of its
operators, and a layer with an optional part also accepts whatever the next stronger
one does, which is the single rule `stronger`.

Two facts are needed of it.  What binds strongly may stand where something weaker is
asked for, and a formula is made of proper tokens: neither an end nor an error.
-/
import FormulaPlot.Parser.Expression

namespace FormulaPlot

namespace Precedence

theorem le_def (p q : Precedence) : p ≤ q ↔ p.rank ≤ q.rank := Iff.rfl

theorem rank_injective {p q : Precedence} (h : p.rank = q.rank) : p = q := by
  cases p <;> cases q <;> first | rfl | contradiction

theorem rank_next {p : Precedence} (h : p ≠ .atom) : p.next.rank = p.rank + 1 := by
  cases p <;> first | rfl | contradiction

theorem le_next (p : Precedence) : p ≤ p.next := by
  cases p <;> decide

theorem rank_le_atom (p : Precedence) : p.rank ≤ Precedence.atom.rank := by
  cases p <;> decide

/-- What every layer has if the next stronger one has it, a layer has if any stronger one
does. -/
theorem of_le {P : Precedence → Prop} {p q : Precedence} (hpq : p ≤ q) (hq : P q)
    (hnext : ∀ r, r ≠ .atom → P r.next → P r) : P p := by
  rw [le_def] at hpq
  obtain ⟨n, hn⟩ : ∃ n, q.rank = p.rank + n := ⟨q.rank - p.rank, by omega⟩
  induction n generalizing p with
  | zero =>
      rw [rank_injective (by omega : p.rank = q.rank)]
      exact hq
  | succ n ih =>
      have hp : p ≠ .atom := by
        rintro rfl
        have hatom := rank_le_atom q
        omega
      have hrank : p.next.rank = p.rank + 1 := rank_next hp
      exact hnext p hp (ih (by omega) (by omega))

end Precedence

namespace Grammar

open Token (Kind)

/-- What the names in a formula can stand for. -/
structure Scope where
  /-- The names of the variables, in order. -/
  names : List String
  functions : Registry

/-- The function that a name calls: an intrinsic, or else a user function. -/
inductive Scope.Calls (s : Scope) (name : String) : Parser.Callee → Prop
  | intrinsic {f : Intrinsic} (h : Intrinsic.ofName? name = some f) : s.Calls name (.intrinsic f)
  | user {f : UserFunction} (hno : Intrinsic.ofName? name = none)
      (h : s.functions.get? name = some f) : s.Calls name (.user f)

/-- The operators of the layers that are chains, and the symbols they are written as.
Equality is written in two ways. -/
def chainOp? : Precedence → Symbol → Option BinaryOp
  | .disjunction, .or => some .or
  | .conjunction, .and => some .and
  | .comparison, .assign => some .eq
  | .comparison, .equal => some .eq
  | .comparison, .notEqual => some .ne
  | .comparison, .less => some .lt
  | .comparison, .lessEqual => some .le
  | .comparison, .greater => some .gt
  | .comparison, .greaterEqual => some .ge
  | .sum, .plus => some .add
  | .sum, .minus => some .sub
  | .product, .star => some .mul
  | .product, .slash => some .div
  | .product, .percent => some .rem
  | _, _ => none

/-- The operators in front of an operand, and the symbols they are written as. -/
def prefixOp? : Symbol → Option UnaryOp
  | .minus => some .neg
  | .not => some .not
  | _ => none

mutual

/-- The tokens are a phrase of a layer, and this is its tree. -/
inductive Derives (s : Scope) : Precedence → List Kind → Expr → Prop
  | number (value : Float) : Derives s .atom [.number value] (.const value)
  /-- Of several variables with one name, the first is meant. -/
  | variable {name : String} {i : Nat} (h : s.names[i]? = some name)
      (hfirst : ∀ j < i, s.names[j]? ≠ some name) : Derives s .atom [.ident name] (.var i)
  | constant {name : String} {value : Float} (hvar : name ∉ s.names)
      (h : Constant.value? name = some value) : Derives s .atom [.ident name] (.const value)
  | call {name : String} {f : Parser.Callee} {ks : List Kind} {args : List Expr}
      (hvar : name ∉ s.names) (hconst : Constant.value? name = none) (hf : s.Calls name f)
      (hargs : DerivesArgs s ks args) (harity : args.length = f.arity) :
      Derives s .atom (.ident name :: .symbol .openParen :: (ks ++ [.symbol .closeParen]))
        (f.applyTo args)
  | parens {ks : List Kind} {e : Expr} (h : Derives s .ternary ks e) :
      Derives s .atom (.symbol .openParen :: (ks ++ [.symbol .closeParen])) e
  | unary {sym : Symbol} {op : UnaryOp} {ks : List Kind} {e : Expr}
      (hop : prefixOp? sym = some op) (h : Derives s .unary ks e) :
      Derives s .unary (.symbol sym :: ks) (.unary op e)
  | power {ls rs : List Kind} {a b : Expr} (ha : Derives s .unary ls a)
      (hb : Derives s .power rs b) :
      Derives s .power (ls ++ .symbol .caret :: rs) (.binary .pow a b)
  | chain {p : Precedence} {sym : Symbol} {op : BinaryOp} {ls rs : List Kind} {a b : Expr}
      (hop : chainOp? p sym = some op) (ha : Derives s p ls a) (hb : Derives s p.next rs b) :
      Derives s p (ls ++ .symbol sym :: rs) (.binary op a b)
  | ternary {cs ys ns : List Kind} {c y n : Expr} (hc : Derives s .disjunction cs c)
      (hy : Derives s .disjunction ys y) (hn : Derives s .ternary ns n) :
      Derives s .ternary (cs ++ .symbol .question :: (ys ++ .symbol .colon :: ns))
        (.ternary c y n)
  | clause {es cs : List Kind} {e c : Expr} (he : Derives s .ternary es e)
      (hc : Derives s .ternary cs c) :
      Derives s .clause (es ++ .symbol .comma :: .ident "where" :: cs) (.limit e c)
  | stronger {p : Precedence} {ks : List Kind} {e : Expr} (hp : p ≠ .atom)
      (h : Derives s p.next ks e) : Derives s p ks e

/-- The tokens are one or more arguments, separated by commas. -/
inductive DerivesArgs (s : Scope) : List Kind → List Expr → Prop
  | last {ks : List Kind} {e : Expr} (h : Derives s .ternary ks e) : DerivesArgs s ks [e]
  | more {ks ls : List Kind} {e : Expr} {es : List Expr} (h : Derives s .ternary ks e)
      (hs : DerivesArgs s ls es) : DerivesArgs s (ks ++ .symbol .comma :: ls) (e :: es)

end

variable {s : Scope}

/-- What binds at least as strongly as its place asks may stand there. -/
theorem Derives.weaken {p q : Precedence} {ks : List Kind} {e : Expr} (hpq : p ≤ q)
    (h : Derives s q ks e) : Derives s p ks e :=
  Precedence.of_le (P := fun p => Derives s p ks e) hpq h fun _ hp hnext => .stronger hp hnext

/-! ### The table of operators

The parser knows the operators by their precedence and the side they group to.  Here
this is checked against the layers: a chain takes on its left what its own layer
accepts, a power only what is stronger.
-/

theorem prefixOp?_eq (sym : Symbol) : prefixOp? sym = UnaryOp.ofSymbol? sym := by
  cases sym <;> rfl

/-- An operator of a chain has the precedence of its layer and groups to the left. -/
theorem chainOp?_eq_some {p : Precedence} {sym : Symbol} {op : BinaryOp}
    (h : chainOp? p sym = some op) :
    BinaryOp.ofSymbol? sym = some op ∧ op.precedence = p ∧ op.leftMin = p ∧
      op.rightMin = p.next ∧ p ≠ .atom := by
  revert h
  fun_cases chainOp? p sym <;> rintro ⟨⟩ <;> decide

/-- The tree of an operator between two operands that bind as strongly as it asks. -/
theorem Derives.binary {sym : Symbol} {op : BinaryOp} {ls rs : List Kind} {a b : Expr}
    (hop : BinaryOp.ofSymbol? sym = some op) (ha : Derives s op.leftMin ls a)
    (hb : Derives s op.rightMin rs b) :
    Derives s op.precedence (ls ++ .symbol sym :: rs) (.binary op a b) := by
  cases sym <;> cases hop
  case caret => exact .power ha hb
  all_goals exact .chain rfl ha hb

/-- One operator may come after the right operand of another exactly if it takes what
the other has built as its left operand. -/
theorem lt_rightMin_iff (op next : BinaryOp) :
    next.precedence < op.rightMin ↔ next.leftMin ≤ op.precedence := by
  cases op <;> cases next <;> decide

/-! ### Phrases are made of proper tokens -/

/-- The tokens that formulas are made of: all but the end and the errors. -/
def Proper : Kind → Prop
  | .finish => False
  | .invalid _ => False
  | _ => True

mutual

/-- A phrase has no end and no error inside. -/
theorem Derives.proper {p : Precedence} {ks : List Kind} {e : Expr} :
    Derives s p ks e → ∀ k ∈ ks, Proper k
  | .number _ | .variable .. | .constant .. => by simp [Proper]
  | .call _ _ _ hargs _ => by
      have := hargs.proper
      simp only [List.mem_cons, List.mem_append, List.not_mem_nil, or_false]
      rintro k (rfl | rfl | hk | rfl)
      · trivial
      · trivial
      · exact this k hk
      · trivial
  | .parens h => by
      have := h.proper
      simp only [List.mem_cons, List.mem_append, List.not_mem_nil, or_false]
      rintro k (rfl | hk | rfl)
      · trivial
      · exact this k hk
      · trivial
  | .unary _ h => by
      intro k hk
      rcases List.mem_cons.mp hk with rfl | hk
      · trivial
      · exact h.proper k hk
  | .power ha hb | .chain _ ha hb => by
      intro k hk
      rcases List.mem_append.mp hk with hk | hk
      · exact ha.proper k hk
      · rcases List.mem_cons.mp hk with rfl | hk
        · trivial
        · exact hb.proper k hk
  | .ternary hc hy hn => by
      simp only [List.mem_append, List.mem_cons]
      rintro k (hk | rfl | hk | rfl | hk)
      · exact hc.proper k hk
      · trivial
      · exact hy.proper k hk
      · trivial
      · exact hn.proper k hk
  | .clause he hc => by
      simp only [List.mem_append, List.mem_cons]
      rintro k (hk | rfl | rfl | hk)
      · exact he.proper k hk
      · trivial
      · trivial
      · exact hc.proper k hk
  | .stronger _ h => h.proper

theorem DerivesArgs.proper {ks : List Kind} {es : List Expr} :
    DerivesArgs s ks es → ∀ k ∈ ks, Proper k
  | .last h => h.proper
  | .more h hs => by
      intro k hk
      rcases List.mem_append.mp hk with hk | hk
      · exact h.proper k hk
      · rcases List.mem_cons.mp hk with rfl | hk
        · trivial
        · exact hs.proper k hk

end

end Grammar

end FormulaPlot
