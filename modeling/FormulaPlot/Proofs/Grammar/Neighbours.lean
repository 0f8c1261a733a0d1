/-
Which tokens stand side by side in a formula.

Without the space between them, two tokens could be read as one: `<` and `=` would become
`<=`, and a number would go on with the letters after it.  A formula has no such neighbours.
An operand ends in a number, a name or a closing parenthesis, and begins with a number, a
name, an opening parenthesis or a prefix operator.  Between two operands there is a symbol,
and none of those that an operand begins with is an equals sign.

`Tidy` says this of a phrase: how it begins, how it ends, and which neighbours it has.  It is
kept by each of the ways in which the grammar puts phrases together, and there are only three
of them: a symbol between two phrases, one in front of a phrase, or a parenthesis behind it.
-/
import Mathlib.Data.List.Chain
import FormulaPlot.Proofs.Grammar

namespace FormulaPlot.Grammar

open Token (Kind)

/-- A number or a name. -/
def Word : Kind → Prop
  | .number _ | .ident _ => True
  | _ => False

instance : DecidablePred Word := fun k => by
  cases k <;> unfold Word <;> infer_instance

/-- A token that an operand can begin with. -/
def Opens : Kind → Prop
  | .number _ | .ident _ => True
  | .symbol s => s = .openParen ∨ s = .minus ∨ s = .not
  | _ => False

/-- A token that an operand can end with. -/
def Closes : Kind → Prop
  | .number _ | .ident _ => True
  | .symbol s => s = .closeParen
  | _ => False

/-- The first token does not go on with the second, where no space is between them.  Names are
left out of this: whether a name goes on depends on how the second token is spelled. -/
def Apart : Kind → Kind → Prop
  | .number _, k => ¬ Word k
  | .symbol s, .symbol s' => s = .closeParen ∨ s' ≠ .assign ∧ s' ≠ .equal
  | _, _ => True

variable {k k' : Kind} {ks ls rs : List Kind} {sym : Symbol}

theorem Closes.apart (h : Closes k) (hk : ¬ Word k') : Apart k k' := by
  cases k with
  | number value => exact hk
  | symbol s =>
      cases k' with
      | symbol s' => exact .inl h
      | _ => trivial
  | _ => trivial

theorem Opens.apart (h : Opens k) (sym : Symbol) : Apart (.symbol sym) k := by
  cases k with
  | symbol s =>
      right
      rcases h with rfl | rfl | rfl <;> decide
  | _ => trivial

/-- The tokens begin and end as operands do, and no token goes on with the one behind it. -/
structure Tidy (ks : List Kind) : Prop where
  nonempty : ks ≠ []
  opens : ∀ k ∈ ks.head?, Opens k
  closes : ∀ k ∈ ks.getLast?, Closes k
  apart : ks.IsChain Apart

theorem tidy_singleton (hopens : Opens k) (hcloses : Closes k) : Tidy [k] where
  nonempty := List.cons_ne_nil k []
  opens := by simpa using hopens
  closes := by simpa using hcloses
  apart := .singleton k

/-- A token in front of a phrase. -/
theorem Tidy.cons (h : Tidy ks) (hopens : Opens k) (hapart : ∀ k' ∈ ks.head?, Apart k k') :
    Tidy (k :: ks) where
  nonempty := List.cons_ne_nil k ks
  opens := by simpa using hopens
  closes := by
    rw [List.getLast?_cons_of_ne_nil h.nonempty]
    exact h.closes
  apart := List.isChain_cons.mpr ⟨hapart, h.apart⟩

theorem Tidy.prefixed (h : Tidy ks) (hsym : Opens (.symbol sym)) : Tidy (.symbol sym :: ks) :=
  h.cons hsym fun k hk => (h.opens k hk).apart sym

theorem Tidy.named (h : Tidy ks) (name : String) : Tidy (.ident name :: ks) :=
  h.cons trivial fun _ _ => trivial

/-- A closing parenthesis behind a phrase. -/
theorem Tidy.closed (h : Tidy ks) : Tidy (ks ++ [.symbol .closeParen]) where
  nonempty := List.append_ne_nil_of_left_ne_nil h.nonempty _
  opens := by
    rw [List.head?_append_of_ne_nil _ h.nonempty]
    exact h.opens
  closes := by simp [Closes]
  apart := by
    refine List.isChain_append.mpr ⟨h.apart, .singleton _, fun k hk k' hk' => ?_⟩
    cases hk'
    exact (h.closes k hk).apart id

/-- A symbol between two phrases. -/
theorem Tidy.infixed (hl : Tidy ls) (hr : Tidy rs) (sym : Symbol) :
    Tidy (ls ++ .symbol sym :: rs) where
  nonempty := List.append_ne_nil_of_left_ne_nil hl.nonempty _
  opens := by
    rw [List.head?_append_of_ne_nil _ hl.nonempty]
    exact hl.opens
  closes := by
    rw [List.getLast?_append_of_ne_nil _ (List.cons_ne_nil _ _),
      List.getLast?_cons_of_ne_nil hr.nonempty]
    exact hr.closes
  apart := by
    refine List.isChain_append.mpr ⟨hl.apart, List.isChain_cons.mpr ⟨?_, hr.apart⟩, ?_⟩
    · exact fun k hk => (hr.opens k hk).apart sym
    · intro k hk k' hk'
      cases hk'
      exact (hl.closes k hk).apart id

variable {s : Scope}

theorem opens_of_prefixOp? {op : UnaryOp} (h : prefixOp? sym = some op) :
    Opens (.symbol sym) := by
  cases sym with
  | minus => exact .inr (.inl rfl)
  | not => exact .inr (.inr rfl)
  | _ => cases h

mutual

/-- A phrase has no neighbours that could be read as one token. -/
theorem Derives.tidy {p : Precedence} {ks : List Kind} {e : Expr} : Derives s p ks e → Tidy ks
  | .number _ | .variable .. | .constant .. => tidy_singleton trivial trivial
  | .call _ _ _ hargs _ => (hargs.tidy.closed.prefixed (.inl rfl)).named _
  | .parens h => h.tidy.closed.prefixed (.inl rfl)
  | .unary hop h => h.tidy.prefixed (opens_of_prefixOp? hop)
  | .power ha hb | .chain _ ha hb => ha.tidy.infixed hb.tidy _
  | .ternary hc hy hn => hc.tidy.infixed (hy.tidy.infixed hn.tidy .colon) .question
  | .clause he hc => he.tidy.infixed (hc.tidy.named "where") .comma
  | .stronger _ h => h.tidy

theorem DerivesArgs.tidy {ks : List Kind} {es : List Expr} : DerivesArgs s ks es → Tidy ks
  | .last h => h.tidy
  | .more h hs => h.tidy.infixed hs.tidy .comma

end

/-- Nor does a phrase go on with the end behind it. -/
theorem Tidy.finished (h : Tidy ks) : (ks ++ [Kind.finish]).IsChain Apart := by
  refine List.isChain_append.mpr ⟨h.apart, .singleton _, fun k hk k' hk' => ?_⟩
  cases hk'
  exact (h.closes k hk).apart id

end FormulaPlot.Grammar
