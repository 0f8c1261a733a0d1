/-
Formulas without regard to what their functions are.

Whether a sequence of tokens has the shape of a formula does not depend on which functions
there are, nor on how many arguments they take.  It depends on the names of the variables,
for a variable or a constant is an operand by itself and any other name has to be called.
`Phrase` is the grammar of formulas with that much and no more.

A phrase can go on after its end.  An operator and an operand behind it make a longer phrase
of the same layer, however strongly the operator binds: it takes as much of the phrase as it
can.  This is what makes the layers disappear, seen from the left.
-/
import FormulaPlot.Proofs.Grammar

namespace FormulaPlot

/-- No operator binds more weakly than a disjunction. -/
theorem BinaryOp.disjunction_le (op : BinaryOp) : .disjunction ≤ op.precedence := by
  cases op <;> decide

theorem BinaryOp.leftMin_le (op : BinaryOp) : op.leftMin ≤ .unary := by
  cases op <;> decide

namespace Grammar

open Token (Kind)

/-- The name is that of a variable or of a constant, and so it is not called. -/
def standsAlone (names : List String) (name : String) : Bool :=
  names.contains name || (Constant.value? name).isSome

mutual

/-- The tokens have the shape of a phrase of a layer. -/
inductive Phrase (names : List String) : Precedence → List Kind → Prop
  | number (value : Float) : Phrase names .atom [.number value]
  | name {name : String} (h : standsAlone names name = true) : Phrase names .atom [.ident name]
  | call {name : String} {ks : List Kind} (h : standsAlone names name = false)
      (hargs : PhraseArgs names ks) :
      Phrase names .atom (.ident name :: .symbol .openParen :: (ks ++ [.symbol .closeParen]))
  | parens {ks : List Kind} (h : Phrase names .ternary ks) :
      Phrase names .atom (.symbol .openParen :: (ks ++ [.symbol .closeParen]))
  | unary {sym : Symbol} {op : UnaryOp} {ks : List Kind} (hop : prefixOp? sym = some op)
      (h : Phrase names .unary ks) : Phrase names .unary (.symbol sym :: ks)
  | power {ls rs : List Kind} (ha : Phrase names .unary ls) (hb : Phrase names .power rs) :
      Phrase names .power (ls ++ .symbol .caret :: rs)
  | chain {p : Precedence} {sym : Symbol} {op : BinaryOp} {ls rs : List Kind}
      (hop : chainOp? p sym = some op) (ha : Phrase names p ls) (hb : Phrase names p.next rs) :
      Phrase names p (ls ++ .symbol sym :: rs)
  | ternary {cs ys ns : List Kind} (hc : Phrase names .disjunction cs)
      (hy : Phrase names .disjunction ys) (hn : Phrase names .ternary ns) :
      Phrase names .ternary (cs ++ .symbol .question :: (ys ++ .symbol .colon :: ns))
  | clause {es cs : List Kind} (he : Phrase names .ternary es) (hc : Phrase names .ternary cs) :
      Phrase names .clause (es ++ .symbol .comma :: .ident "where" :: cs)
  | stronger {p : Precedence} {ks : List Kind} (hp : p ≠ .atom) (h : Phrase names p.next ks) :
      Phrase names p ks

/-- The tokens have the shape of one or more arguments, separated by commas. -/
inductive PhraseArgs (names : List String) : List Kind → Prop
  | last {ks : List Kind} (h : Phrase names .ternary ks) : PhraseArgs names ks
  | more {ks ls : List Kind} (h : Phrase names .ternary ks) (hs : PhraseArgs names ls) :
      PhraseArgs names (ks ++ .symbol .comma :: ls)

end

/-- The tokens have the shape of a whole formula. -/
abbrev Sentence (names : List String) (ks : List Kind) : Prop := Phrase names .clause ks

variable {names : List String} {p q : Precedence} {ks ls us : List Kind}

/-! ### What derives a tree is a sentence -/

theorem standsAlone_eq_false {name : String} (hvar : name ∉ names)
    (hconst : Constant.value? name = none) : standsAlone names name = false := by
  simp [standsAlone, hvar, hconst]

mutual

theorem Derives.phrase {s : Scope} {p : Precedence} {ks : List Kind} {e : Expr} :
    Derives s p ks e → Phrase s.names p ks
  | .number value => .number value
  | .variable h _ => .name (by simp [standsAlone, List.mem_of_getElem? h])
  | .constant _ h => .name (by simp [standsAlone, h])
  | .call hvar hconst _ hargs _ => .call (standsAlone_eq_false hvar hconst) hargs.phrase
  | .parens h => .parens h.phrase
  | .unary hop h => .unary hop h.phrase
  | .power ha hb => .power ha.phrase hb.phrase
  | .chain hop ha hb => .chain hop ha.phrase hb.phrase
  | .ternary hc hy hn => .ternary hc.phrase hy.phrase hn.phrase
  | .clause he hc => .clause he.phrase hc.phrase
  | .stronger hp h => .stronger hp h.phrase

theorem DerivesArgs.phrase {s : Scope} {ks : List Kind} {es : List Expr} :
    DerivesArgs s ks es → PhraseArgs s.names ks
  | .last h => .last h.phrase
  | .more h hs => .more h.phrase hs.phrase

end

/-! ### Going on with a phrase -/

/-- What binds at least as strongly as its place asks may stand there. -/
theorem Phrase.weaken (hpq : p ≤ q) (h : Phrase names q ks) : Phrase names p ks :=
  Precedence.of_le (P := fun p => Phrase names p ks) hpq h fun _ hp hnext => .stronger hp hnext

/-- An operator behind a phrase that it takes as its left operand. -/
theorem Phrase.binary {sym : Symbol} {op : BinaryOp} (hop : BinaryOp.ofSymbol? sym = some op)
    (ha : Phrase names op.leftMin ls) (hb : Phrase names .unary us) :
    Phrase names op.precedence (ls ++ .symbol sym :: us) := by
  have hright : op.precedence.next ≤ .unary := by cases op <;> decide
  cases sym <;> cases hop
  case caret => exact .power ha (hb.weaken (by decide))
  all_goals exact .chain rfl ha (hb.weaken hright)

/-- An operator and an operand behind a phrase make a longer phrase.  It is of every layer that
neither the phrase nor the operator is too weak for. -/
theorem Phrase.append_binary {sym : Symbol} {op : BinaryOp}
    (hop : BinaryOp.ofSymbol? sym = some op) (hb : Phrase names .unary us)
    {p q : Precedence} {ls : List Kind} (h : Phrase names p ls) (hqp : q ≤ p)
    (hq : q ≤ op.precedence) : Phrase names q (ls ++ .symbol sym :: us) := by
  -- Where the operator takes all of the phrase there is nothing to look for inside.
  by_cases htakes : op.leftMin ≤ p
  · exact (Phrase.binary hop (h.weaken htakes) hb).weaken hq
  have hternary : .ternary ≤ op.precedence := Nat.le_trans (by decide) op.disjunction_le
  match h with
  | .number _ | .name _ | .call .. | .parens _ =>
      exact absurd (Nat.le_trans op.leftMin_le (by decide)) htakes
  | .unary _ _ => exact absurd op.leftMin_le htakes
  | .power ha hr =>
      have hnext : .power ≤ op.precedence :=
        Nat.le_of_not_lt fun hlt => htakes ((lt_rightMin_iff .pow op).mp hlt)
      have hlonger := Phrase.append_binary hop hb hr (Nat.le_refl _) hnext
      simpa using (Phrase.power ha hlonger).weaken hqp
  | .chain hop' ha hr =>
      obtain ⟨-, hlayer, -, hright, -⟩ := chainOp?_eq_some hop'
      have hnext : p.next ≤ op.precedence :=
        Nat.le_of_not_lt fun hlt => htakes (hlayer ▸ (lt_rightMin_iff _ op).mp (hright ▸ hlt))
      have hlonger := Phrase.append_binary hop hb hr (Nat.le_refl _) hnext
      simpa using (Phrase.chain hop' ha hlonger).weaken hqp
  | .ternary hc hy hn =>
      have hlonger := Phrase.append_binary hop hb hn (Nat.le_refl _) hternary
      simpa using (Phrase.ternary hc hy hlonger).weaken hqp
  | .clause he hc =>
      have hlonger := Phrase.append_binary hop hb hc (Nat.le_refl _) hternary
      simpa using (Phrase.clause he hlonger).weaken hqp
  | .stronger _ h => exact Phrase.append_binary hop hb h (Nat.le_trans hqp p.le_next) hq
termination_by structural h

/-- A choice whose condition is all that was read makes a longer phrase.  If the phrase was a
choice already, it is the second branch that grows. -/
theorem Phrase.append_choice {ys ns : List Kind} (hy : Phrase names .disjunction ys)
    (hn : Phrase names .ternary ns) {p : Precedence} {ks : List Kind} (h : Phrase names p ks)
    (hp : .ternary ≤ p) :
    Phrase names .ternary (ks ++ .symbol .question :: (ys ++ .symbol .colon :: ns)) := by
  by_cases hcond : .disjunction ≤ p
  · exact .ternary (h.weaken hcond) hy hn
  match h with
  | .number _ | .name _ | .call .. | .parens _ | .unary _ _ | .power _ _ =>
      exact absurd (by decide) hcond
  | .chain hop _ _ =>
      obtain ⟨-, hlayer, -⟩ := chainOp?_eq_some hop
      exact absurd (hlayer ▸ BinaryOp.disjunction_le _) hcond
  | .ternary hc hy' hn' =>
      have hlonger := Phrase.append_choice hy hn hn' (by decide)
      simpa using Phrase.ternary hc hy' hlonger
  | .clause _ _ => exact absurd hp (by decide)
  | .stronger _ h => exact Phrase.append_choice hy hn h (Nat.le_trans hp p.le_next)
termination_by structural h

end Grammar

end FormulaPlot
