/-
What the parser accepts is a formula.

A successful reading has used up a phrase of the layer that it was asked for, and its
result is the tree of that phrase.  For most readers this is immediate from what they
call.  The loop over binary operators needs an invariant: what has been read so far is
a phrase of some layer `p`, and the operator that comes next takes such a phrase on its
left.  The second half is kept because the right operand of an operator has been read
as far as it goes, so what comes after it is weaker.
-/
import FormulaPlot.Proofs.Parser.Steps

namespace FormulaPlot.Parser

open Grammar (Derives DerivesArgs Scope)

variable {s : Scope}

/-- A successful reading of the tokens uses up a phrase of the layer. -/
def Takes (s : Scope) (p : Precedence) (reader : Reader Expr) : Prop :=
  ∀ ts e rest, (reader ts).against s.functions = .ok (e, rest) →
    ∃ used, ts = used ++ rest ∧ Derives s p (kinds used) e

/-- What the loop does with what has been read so far: if it is a phrase that the next
operator can take, the loop ends with a phrase that is as long as can be. -/
def Extends (s : Scope) (depth : Nat) : Prop :=
  ∀ (min p : Precedence) (left e : Expr) (before : List Token.Kind) (ts rest : List Token),
    min ≤ p → Derives s p before left → Follows p ts →
    (folds s.names depth min left ts).against s.functions = .ok (e, rest) →
    ∃ used, ts = used ++ rest ∧ Derives s min (before ++ kinds used) e ∧ Stops min rest

/-- A successful reading of operators takes all that binds strongly enough. -/
def TakesAll (s : Scope) (depth : Nat) : Prop :=
  ∀ (min : Precedence) (ts : List Token) (e : Expr) (rest : List Token), min ≤ .unary →
    (binary s.names depth min ts).against s.functions = .ok (e, rest) →
    ∃ used, ts = used ++ rest ∧ Derives s min (kinds used) e ∧ Stops min rest

/-! ### Names and calls -/

theorem operands_takes {operand : Reader Expr} (hoperand : Takes s .ternary operand) (fuel : Nat) :
    ∀ (ts : List Token) (args : List Expr) (rest : List Token),
      (operands operand fuel ts).against s.functions = .ok (args, rest) →
      ∃ used, ts = used ++ rest ∧ DerivesArgs s (kinds used) args := by
  induction fuel with
  | zero =>
      intro ts args rest hread
      obtain ⟨first, us, hfirst, ⟨-, rfl, rfl⟩ | ⟨_, _, _, -, ⟨⟩, -⟩⟩ :=
        against_operands_eq_ok.mp hread
      obtain ⟨used, rfl, hused⟩ := hoperand ts first _ hfirst
      exact ⟨used, rfl, .last hused⟩
  | succ fuel ih =>
      intro ts args rest hread
      obtain ⟨first, us, hfirst, hmore⟩ := against_operands_eq_ok.mp hread
      obtain ⟨used, rfl, hused⟩ := hoperand ts first us hfirst
      rcases hmore with ⟨-, rfl, rfl⟩ | ⟨vs, _, others, hcomma, ⟨⟩, -, hothers, rfl⟩
      · exact ⟨used, rfl, .last hused⟩
      · obtain ⟨t, rfl, ht⟩ := after?_eq_some.mp hcomma
        obtain ⟨used', rfl, hused'⟩ := ih vs others rest hothers
        refine ⟨used ++ t :: used', by simp, ?_⟩
        rw [kinds, List.map_append, List.map_cons, ht]
        exact .more hused hused'

/-- The parenthesis, the arguments and the parenthesis that make a name a call. -/
theorem call_takes {operand : Reader Expr} (hoperand : Takes s .ternary operand) {name : String}
    {col : Nat} {ts rest : List Token} {e : Expr} (hvar : name ∉ s.names)
    (hconst : Constant.value? name = none)
    (hread : (call operand name col ts).against s.functions = .ok (e, rest)) :
    ∃ used, ts = used ++ rest ∧ Derives s .atom (.ident name :: kinds used) e := by
  obtain ⟨f, us, args, vs, hf, hopen, hargs, hclose, harity, rfl⟩ :=
    (against_call_eq_ok s.names).mp hread
  obtain ⟨t, rfl, ht, -⟩ := against_expect_eq_ok.mp hopen
  obtain ⟨used, rfl, hused⟩ := operands_takes hoperand _ us args vs hargs
  obtain ⟨t', rfl, ht', -⟩ := against_expect_eq_ok.mp hclose
  refine ⟨t :: (used ++ [t']), by simp, ?_⟩
  rw [kinds, List.map_cons, List.map_append, List.map_cons, List.map_nil, ht, ht']
  exact .call hvar hconst hf hused harity

theorem resolve_takes {operand : Reader Expr} (hoperand : Takes s .ternary operand) {name : String}
    {col : Nat} {ts rest : List Token} {e : Expr}
    (hread : (resolve operand s.names name col ts).against s.functions = .ok (e, rest)) :
    ∃ used, ts = used ++ rest ∧ Derives s .atom (.ident name :: kinds used) e := by
  rcases against_resolve_eq_ok.mp hread with ⟨i, hvar, rfl, rfl⟩ | ⟨value, hvar, hconst, rfl, rfl⟩ |
    ⟨hvar, hconst, hcall⟩
  · obtain ⟨hi, hname, hfirst⟩ := List.idxOf?_eq_some_iff.mp hvar
    refine ⟨[], rfl, .variable (List.getElem?_eq_some_iff.mpr ⟨hi, hname⟩) ?_⟩
    intro j hj hjname
    obtain ⟨_, hjname⟩ := List.getElem?_eq_some_iff.mp hjname
    exact hfirst j hj hjname
  · exact ⟨[], rfl, .constant (List.idxOf?_eq_none_iff.mp hvar) hconst⟩
  · exact call_takes hoperand (List.idxOf?_eq_none_iff.mp hvar) hconst hcall

/-! ### One reader after the other -/

theorem atom_takes {d : Nat} (hternary : Takes s .ternary (ternary s.names d)) :
    Takes s .atom (atom s.names d) := by
  intro ts e rest hread
  obtain ⟨t, us, rfl, -, ⟨value, ht, rfl, rfl⟩ | ⟨name, ht, hname⟩ | ⟨ht, vs, hinner, hclose⟩⟩ :=
    against_atom_eq_ok.mp hread
  · refine ⟨[t], rfl, ?_⟩
    rw [kinds, List.map_singleton, ht]
    exact .number value
  · obtain ⟨used, rfl, hused⟩ := resolve_takes hternary hname
    refine ⟨t :: used, rfl, ?_⟩
    rw [kinds, List.map_cons, ht]
    exact hused
  · obtain ⟨used, rfl, hused⟩ := hternary us e vs hinner
    obtain ⟨t', rfl, ht', -⟩ := against_expect_eq_ok.mp hclose
    refine ⟨t :: (used ++ [t']), by simp, ?_⟩
    rw [kinds, List.map_cons, List.map_append, List.map_cons, List.map_nil, ht, ht']
    exact .parens hused

theorem unary_takes {d : Nat} (hatom : Takes s .atom (atom s.names d))
    (hunary : ∀ less, d = less + 1 → Takes s .unary (unary s.names less)) :
    Takes s .unary (unary s.names d) := by
  intro ts e rest hread
  rcases against_unary_eq_ok.mp hread with ⟨-, hplain⟩ |
    ⟨op, us, less, inner, hop, -, hd, hinner, rfl⟩
  · obtain ⟨used, rfl, hused⟩ := hatom ts e rest hplain
    exact ⟨used, rfl, .stronger (by decide) hused⟩
  · obtain ⟨t, sym, rfl, ht, hsym⟩ := unaryOp?_eq_some.mp hop
    obtain ⟨used, rfl, hused⟩ := hunary less hd us inner rest hinner
    refine ⟨t :: used, rfl, ?_⟩
    rw [kinds, List.map_cons, ht]
    exact .unary (by rw [Grammar.prefixOp?_eq, hsym]) hused

theorem folds_extends {d : Nat}
    (hbinary : ∀ less, d = less + 1 → TakesAll s less ∧ Extends s less) : Extends s d := by
  intro min p left e before ts rest hmin hleft hfollows hread
  rcases against_folds_eq_ok.mp hread with ⟨hstops, rfl, rfl⟩ |
    ⟨op, us, less, right, vs, hop, hstrong, -, hd, hright, hloop⟩
  · exact ⟨[], rfl, by simpa using hleft.weaken hmin, hstops⟩
  · obtain ⟨htakes, hextends⟩ := hbinary less hd
    obtain ⟨t, sym, rfl, ht, hsym⟩ := binaryOp?_eq_some.mp hop
    have hoperator : op.rightMin ≤ .unary := by cases op <;> decide
    obtain ⟨used, rfl, hused, hstops⟩ := htakes op.rightMin us right vs hoperator hright
    have hboth : Derives s op.precedence (before ++ .symbol sym :: kinds used)
        (.binary op left right) :=
      .binary hsym (hleft.weaken (hfollows op _ hop)) hused
    have hmin' : min ≤ op.precedence := Nat.le_of_not_lt hstrong
    obtain ⟨used', rfl, hall, hstops'⟩ := hextends min op.precedence _ e _ vs rest hmin' hboth
      (stops_rightMin_iff.mp hstops) hloop
    refine ⟨t :: (used ++ used'), by simp, ?_, hstops'⟩
    simpa [ht] using hall

theorem binary_takesAll {d : Nat} (hunary : Takes s .unary (unary s.names d))
    (hfolds : Extends s d) : TakesAll s d := by
  intro min ts e rest hmin hread
  obtain ⟨left, us, hleft, hloop⟩ := against_binary_eq_ok.mp hread
  obtain ⟨used, rfl, hused⟩ := hunary ts left us hleft
  obtain ⟨used', rfl, hall, hstops⟩ :=
    hfolds min .unary left e (kinds used) us rest hmin hused (follows_unary us) hloop
  exact ⟨used ++ used', by simp, by simpa using hall, hstops⟩

theorem ternary_takes {d : Nat} (hbinary : TakesAll s d)
    (hternary : Takes s .ternary (ternary s.names d)) :
    Takes s .ternary (ternary s.names (d + 1)) := by
  intro ts e rest hread
  obtain ⟨less, c, us, ⟨⟩, hc, hmore⟩ := against_ternary_eq_ok.mp hread
  obtain ⟨used, rfl, hused, -⟩ := hbinary .disjunction ts c us (by decide) hc
  rcases hmore with ⟨-, rfl, rfl⟩ | ⟨vs, y, ws, xs, n, hquestion, -, hy, hcolon, hn, rfl⟩
  · exact ⟨used, rfl, .stronger (by decide) hused⟩
  · obtain ⟨t, rfl, ht⟩ := after?_eq_some.mp hquestion
    obtain ⟨used', rfl, hused', -⟩ := hbinary .disjunction vs y ws (by decide) hy
    obtain ⟨t', rfl, ht', -⟩ := against_expect_eq_ok.mp hcolon
    obtain ⟨used'', rfl, hused''⟩ := hternary xs n rest hn
    refine ⟨used ++ t :: (used' ++ t' :: used''), by simp, ?_⟩
    simpa [ht, ht'] using Derives.ternary hused hused' hused''

/-- A successful reading of a ternary uses up a ternary of the grammar. -/
theorem takes_ternary (s : Scope) (d : Nat) : Takes s .ternary (ternary s.names d) := by
  refine (levels_induction (T := fun d => Takes s .ternary (ternary s.names d))
    (A := fun d => Takes s .atom (atom s.names d)) (U := fun d => Takes s .unary (unary s.names d))
    (F := Extends s) (B := TakesAll s) ?_ ?_ ?_ ?_ ?_ ?_ ?_ ?_ d).1
  · intro ts e rest hread
    obtain ⟨less, _, _, ⟨⟩, -⟩ := against_ternary_eq_ok.mp hread
  · exact fun d => atom_takes
  · exact fun hatom => unary_takes hatom (by simp)
  · exact folds_extends (by simp)
  · exact fun d => binary_takesAll
  · exact fun d => ternary_takes
  · exact fun d hunary hatom => unary_takes hatom fun less h => by cases h; exact hunary
  · exact fun d hbinary hfolds => folds_extends fun less h => by cases h; exact ⟨hbinary, hfolds⟩

/-- A successful reading of a whole formula uses up all tokens before the end. -/
theorem topLevel_takes {ts : List Token} {e : Expr}
    (hread : (topLevel s.names ts).against s.functions = .ok e) :
    ∃ used rest, ts = used ++ rest ∧ atFinish rest = true ∧ Derives s .clause (kinds used) e := by
  obtain ⟨-, inner, us, hinner, hmore⟩ := against_topLevel_eq_ok.mp hread
  obtain ⟨used, rfl, hused⟩ := takes_ternary s maxDepth ts inner us hinner
  rcases hmore with ⟨-, hus, rfl⟩ | ⟨vs, ws, cond, xs, hcomma, -, hwhere, -, hcond, hxs, rfl⟩
  · exact ⟨used, us, rfl, hus, .stronger (by decide) hused⟩
  · obtain ⟨t, rfl, ht⟩ := after?_eq_some.mp hcomma
    obtain ⟨t', rfl, ht'⟩ := ident?_eq_some.mp hwhere
    obtain ⟨used', rfl, hused'⟩ := takes_ternary s maxDepth ws cond xs hcond
    refine ⟨used ++ t :: t' :: used', xs, by simp, hxs, ?_⟩
    simpa [ht, ht'] using Derives.clause hused hused'

end FormulaPlot.Parser
