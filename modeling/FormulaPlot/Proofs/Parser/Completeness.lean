/-
What is a formula the parser accepts.

On the tokens of a phrase the parser gives the tree of that phrase, unless it runs out
of levels of nesting; that is what `Gives` says of a reading.  The induction is on the
derivation.

A phrase of a layer of operators is the hard case.  The parser does not read it as one
piece: it reads the first operand and then goes round the loop, and an operator that
follows the phrase is taken by the same loop.  So what is shown of such a phrase is
that reading it comes down to the loop with the phrase already read on its left,
whatever the loop does from there on.
-/
import FormulaPlot.Proofs.Parser.Steps

namespace FormulaPlot

namespace Inquiry

variable {α β : Type} {r : Registry}

/-- The reading has the value, unless the formula is nested too deeply. -/
def Gives (r : Registry) (m : Inquiry α) (a : α) : Prop :=
  m.against r = .ok a ∨ ∃ column, m.against r = .error ⟨.tooDeep, column⟩

theorem gives_pure (a : α) : Gives r (pure a) a := .inl rfl

theorem Gives.bind {m : Inquiry α} {f : α → Inquiry β} {a : α} {b : β} (hm : Gives r m a)
    (hf : Gives r (f a) b) : Gives r (m >>= f) b := by
  unfold Gives
  rw [against_bind]
  rcases hm with hm | ⟨column, hm⟩
  · rw [hm]
    exact hf
  · rw [hm]
    exact .inr ⟨column, rfl⟩

end Inquiry

namespace Parser

open Token (Kind)
open Grammar (Derives DerivesArgs Scope Proper)
open Inquiry (Gives gives_pure)

variable {r : Registry} {names : List String} {ts rest : List Token} {t : Token} {d : Nat}

/-! ### The steps on tokens that fit -/

theorem gives_tooDeep {α : Type} (ts : List Token) (a : α) : Gives r (failAt ts .tooDeep) a :=
  .inr ⟨column ts, rfl⟩

theorem gives_moveTo (h : Clear ts) : Gives r (moveTo ts) ts :=
  .inl (against_moveTo_eq_ok.mpr ⟨h, rfl⟩)

theorem gives_expect {sym : Symbol} (ht : t.kind = .symbol sym) (h : Clear ts) :
    Gives r (expect sym (t :: ts)) ts :=
  .inl (against_expect_eq_ok.mpr ⟨t, rfl, ht, h⟩)

theorem after?_cons_of_ne {sym : Symbol} (h : t.kind ≠ .symbol sym) :
    after? sym (t :: ts) = none := by
  cases hafter : after? sym (t :: ts) with
  | none => rfl
  | some us =>
      obtain ⟨t', heq, ht'⟩ := after?_eq_some.mp hafter
      obtain ⟨rfl, -⟩ := List.cons.inj heq
      exact absurd ht' h

theorem unaryOp?_cons_of_ne (h : ∀ sym, t.kind = .symbol sym → Grammar.prefixOp? sym = none) :
    unaryOp? (t :: ts) = none := by
  refine byKind_unaryOp?.cons_eq_none (Option.bind_eq_none_iff.mpr fun sym hsym => ?_)
  rw [← Grammar.prefixOp?_eq]
  exact h sym (symbol?_eq_some.mp hsym)

theorem binaryOp?_cons_of_ne (h : ∀ sym, t.kind = .symbol sym → BinaryOp.ofSymbol? sym = none) :
    binaryOp? (t :: ts) = none :=
  byKind_binaryOp?.cons_eq_none
    (Option.bind_eq_none_iff.mpr fun sym hsym => h sym (symbol?_eq_some.mp hsym))

/-- The loop stops before a weaker operator. -/
theorem folds_of_stops {min : Precedence} {left : Expr} (h : Stops min ts) :
    folds names d min left ts = pure (left, ts) := by
  rw [folds]
  cases hop : binaryOp? ts with
  | none => rfl
  | some found => simp only [if_pos (h found.1 found.2 hop)]

/-- The loop takes an operator that is strong enough and the operand after it. -/
theorem gives_folds {min : Precedence} {left right : Expr} {sym : Symbol} {op : BinaryOp}
    {out : Expr × List Token} (ht : t.kind = .symbol sym) (hsym : BinaryOp.ofSymbol? sym = some op)
    (hmin : min ≤ op.precedence) (hclear : Clear ts)
    (hright : ∀ less, Gives r (binary names less op.rightMin ts) (right, rest))
    (hloop : ∀ less, Gives r (folds names less min (.binary op left right) rest) out) :
    Gives r (folds names d min left (t :: ts)) out := by
  have hstrong : ¬ op.precedence < min := Nat.not_lt_of_le hmin
  rw [folds, binaryOp?_eq_some.mpr ⟨t, sym, rfl, ht, hsym⟩]
  simp only [if_neg hstrong]
  refine (gives_moveTo hclear).bind ?_
  cases d with
  | zero => exact gives_tooDeep ts out
  | succ less => exact (hright less).bind (hloop less)

/-! ### What the parser makes of a phrase -/

/-- Neither an operator nor a question mark comes next, so an expression can end here. -/
structure Ends (ts : List Token) : Prop where
  operator : binaryOp? ts = none
  question : after? .question ts = none

theorem ends_symbol {sym : Symbol} (ht : t.kind = .symbol sym)
    (hop : BinaryOp.ofSymbol? sym = none) (hquestion : sym ≠ .question) : Ends (t :: ts) := by
  refine ⟨binaryOp?_cons_of_ne ?_, after?_cons_of_ne ?_⟩
  · intro sym' hsym
    rw [ht] at hsym
    obtain rfl := Kind.symbol.inj hsym
    exact hop
  · rw [ht]
    exact fun h => hquestion (Kind.symbol.inj h)

theorem clear_symbol {sym : Symbol} (ht : t.kind = .symbol sym) : Clear (t :: ts) := by
  refine clear_cons.mpr (error?_eq_none ?_)
  rw [ht]
  trivial

theorem clear_finish (ht : t.kind = .finish) : Clear (t :: ts) :=
  clear_cons.mpr (by simp [Token.error?, ht])

theorem follows_of_none {p : Precedence} (h : binaryOp? ts = none) : Follows p ts := by
  intro op us hop
  rw [h] at hop
  cases hop

theorem stops_of_none {p : Precedence} (h : binaryOp? ts = none) : Stops p ts := by
  intro op us hop
  rw [h] at hop
  cases hop

/-- Operands are read to the end of the phrase, whatever comes after it. -/
def ReadsUnary (s : Scope) (ks : List Kind) (e : Expr) : Prop :=
  ∀ (d : Nat) (ts rest : List Token), kinds ts = ks → Clear rest →
    Gives s.functions (unary s.names d (ts ++ rest)) (e, rest)

/-- Whatever comes of the loop after the phrase also comes of reading the phrase. -/
def ReadsBinary (s : Scope) (p : Precedence) (ks : List Kind) (e : Expr) : Prop :=
  ∀ (d : Nat) (min : Precedence) (ts rest : List Token) (out : Expr × List Token),
    kinds ts = ks → Clear rest → min ≤ p → Follows p rest →
    (∀ less, Gives s.functions (folds s.names less min e rest) out) →
    Gives s.functions (binary s.names d min (ts ++ rest)) out

/-- Expressions are read to the end of the phrase, if an expression can end there. -/
def ReadsTernary (s : Scope) (ks : List Kind) (e : Expr) : Prop :=
  ∀ (d : Nat) (ts rest : List Token), kinds ts = ks → Clear rest → Ends rest →
    Gives s.functions (ternary s.names d (ts ++ rest)) (e, rest)

/-- A phrase is read by every reader that is asked for its layer or a weaker one. -/
structure Reads (s : Scope) (p : Precedence) (ks : List Kind) (e : Expr) : Prop where
  unary : .unary ≤ p → ReadsUnary s ks e
  binary : .disjunction ≤ p → ReadsBinary s p ks e
  ternary : .ternary ≤ p → ReadsTernary s ks e

variable {s : Scope} {p : Precedence} {ks : List Kind} {e : Expr}

/-! ### From one reader to the next -/

theorem ReadsUnary.binary (h : ReadsUnary s ks e) : ReadsBinary s p ks e := by
  intro d min ts rest out hts hclear _ _ hloop
  rw [Parser.binary]
  exact (h d ts rest hts hclear).bind (hloop d)

/-- An operand that is read up to an operator that it does not take. -/
theorem ReadsBinary.stops {min : Precedence} (h : ReadsBinary s p ks e) (hts : kinds ts = ks)
    (hclear : Clear rest) (hmin : min ≤ p) (hfollows : Follows p rest) (hstops : Stops min rest) :
    Gives s.functions (Parser.binary s.names d min (ts ++ rest)) (e, rest) := by
  refine h d min ts rest (e, rest) hts hclear hmin hfollows fun less => ?_
  rw [folds_of_stops hstops]
  exact gives_pure (e, rest)

theorem ReadsBinary.ternary (h : ReadsBinary s p ks e) (hp : .disjunction ≤ p) :
    ReadsTernary s ks e := by
  intro d ts rest hts hclear hends
  cases d with
  | zero =>
      rw [Parser.ternary]
      exact gives_tooDeep _ _
  | succ d =>
      rw [Parser.ternary]
      refine (h.stops hts hclear hp (follows_of_none hends.operator)
        (stops_of_none hends.operator)).bind ?_
      simp only [hends.question]
      exact gives_pure (e, rest)

theorem reads_of_binary (hp : p < .unary) (hlow : .disjunction ≤ p) (h : ReadsBinary s p ks e) :
    Reads s p ks e :=
  ⟨fun hunary => absurd hp (Nat.not_lt_of_le hunary), fun _ => h, fun _ => h.ternary hlow⟩

theorem reads_of_unary (hp : .unary ≤ p) (h : ReadsUnary s ks e) : Reads s p ks e :=
  ⟨fun _ => h, fun _ => h.binary,
    fun _ => (h.binary (p := p)).ternary (Nat.le_trans (by decide) hp)⟩

/-! ### Atoms -/

theorem kinds_eq_append_cons {k : Kind} {ls rs : List Kind} (h : kinds ts = ls ++ k :: rs) :
    ∃ us t vs, ts = us ++ t :: vs ∧ kinds us = ls ∧ t.kind = k ∧ kinds vs = rs := by
  obtain ⟨us, ws, rfl, hus, hws⟩ := List.map_eq_append_iff.mp h
  obtain ⟨t, vs, rfl, ht, hvs⟩ := List.map_eq_cons_iff.mp hws
  exact ⟨us, t, vs, rfl, hus, ht, hvs⟩

/-- A phrase that does not start with a prefix operator is read as an atom. -/
theorem reads_of_atom {k : Kind} (hk : ∀ sym, k = .symbol sym → Grammar.prefixOp? sym = none)
    (h : ∀ (d : Nat) (t : Token) (us rest : List Token), t.kind = k → kinds us = ks → Clear rest →
      Gives s.functions (atom s.names d (t :: (us ++ rest))) (e, rest)) :
    Reads s .atom (k :: ks) e := by
  refine reads_of_unary (by decide) ?_
  intro d ts rest hts hclear
  obtain ⟨t, us, rfl, ht, hus⟩ := List.map_eq_cons_iff.mp hts
  have hno : unaryOp? (t :: (us ++ rest)) = none :=
    unaryOp?_cons_of_ne fun sym hsym => hk sym (ht.symm.trans hsym)
  rw [List.cons_append, Parser.unary, hno]
  exact h d t us rest ht hus hclear

theorem atom_number {value : Float} (ht : t.kind = .number value) :
    atom names d (t :: ts) = (do let us ← moveTo ts; pure (.const value, us)) := by
  obtain ⟨kind, lexeme, start, column⟩ := t
  cases ht
  rw [atom]

theorem atom_ident {name : String} (ht : t.kind = .ident name) :
    atom names d (t :: ts) =
      (do let us ← moveTo ts; resolve (ternary names d) names name t.column us) := by
  obtain ⟨kind, lexeme, start, column⟩ := t
  cases ht
  rw [atom]

theorem atom_openParen (ht : t.kind = .symbol .openParen) :
    atom names d (t :: ts) = (do
      let us ← moveTo ts
      let (inner, us) ← ternary names d us
      let us ← expect .closeParen us
      pure (inner, us)) := by
  have hopen : after? .openParen (t :: ts) = some ts := after?_eq_some.mpr ⟨t, rfl, ht⟩
  obtain ⟨kind, lexeme, start, column⟩ := t
  cases ht
  rw [atom, hopen]
  · intro _ _ _ _ _ h
    cases h
  · intro _ _ _ _ _ h
    cases h

theorem reads_number (value : Float) : Reads s .atom [.number value] (.const value) := by
  refine reads_of_atom (by intro sym h; cases h) ?_
  intro d t us rest ht hus hclear
  obtain rfl := List.map_eq_nil_iff.mp hus
  rw [atom_number ht]
  exact (gives_moveTo hclear).bind (gives_pure _)

/-- A name alone stands for what it is resolved to without looking further. -/
theorem reads_name {name : String} (h : ∀ (operand : Reader Expr) (column : Nat)
    (ts : List Token), resolve operand s.names name column ts = pure (e, ts)) :
    Reads s .atom [.ident name] e := by
  refine reads_of_atom (by intro sym h; cases h) ?_
  intro d t us rest ht hus hclear
  obtain rfl := List.map_eq_nil_iff.mp hus
  rw [atom_ident ht]
  refine (gives_moveTo hclear).bind ?_
  rw [h]
  exact gives_pure _

theorem reads_variable {name : String} {i : Nat} (h : s.names[i]? = some name)
    (hfirst : ∀ j < i, s.names[j]? ≠ some name) : Reads s .atom [.ident name] (.var i) := by
  obtain ⟨hi, hname⟩ := List.getElem?_eq_some_iff.mp h
  have hindex : s.names.idxOf? name = some i := by
    refine List.idxOf?_eq_some_iff.mpr ⟨hi, hname, fun j hj hjname => hfirst j hj ?_⟩
    exact List.getElem?_eq_some_iff.mpr ⟨Nat.lt_trans hj hi, hjname⟩
  refine reads_name fun operand column ts => ?_
  simp only [resolve, hindex]

theorem reads_constant {name : String} {value : Float} (hvar : name ∉ s.names)
    (h : Constant.value? name = some value) : Reads s .atom [.ident name] (.const value) := by
  have hindex : s.names.idxOf? name = none := List.idxOf?_eq_none_iff.mpr hvar
  refine reads_name fun operand column ts => ?_
  simp only [resolve, hindex, h]

theorem reads_parens (h : Reads s .ternary ks e) (hproper : ∀ k ∈ ks, Proper k) :
    Reads s .atom (.symbol .openParen :: (ks ++ [.symbol .closeParen])) e := by
  refine reads_of_atom (by intro sym hsym; cases hsym; rfl) ?_
  intro d t us rest ht hus hclear
  obtain ⟨vs, t', ws, rfl, hvs, ht', hws⟩ := kinds_eq_append_cons hus
  obtain rfl := List.map_eq_nil_iff.mp hws
  have hclose : Clear (t' :: rest) := clear_symbol ht'
  have hends : Ends (t' :: rest) := ends_symbol ht' rfl (by decide)
  rw [atom_openParen ht, List.append_assoc, List.singleton_append]
  refine (gives_moveTo (clear_append hvs hproper hclose)).bind ?_
  refine (h.ternary (by decide) d vs _ hvs hclose hends).bind ?_
  exact (gives_expect ht' hclear).bind (gives_pure _)

/-! ### Calls -/

/-- Arguments are read to the end of the phrase, if a list of arguments can end there. -/
def ReadsArgs (s : Scope) (ks : List Kind) (es : List Expr) : Prop :=
  ∀ (d fuel : Nat) (ts rest : List Token), kinds ts = ks → Clear rest → Ends rest →
    after? .comma rest = none → ts.length ≤ fuel →
    Gives s.functions (operands (ternary s.names d) fuel (ts ++ rest)) (es, rest)

theorem readsArgs_last (h : Reads s .ternary ks e) : ReadsArgs s ks [e] := by
  intro d fuel ts rest hts hclear hends hcomma _
  rw [operands]
  refine (h.ternary (by decide) d ts rest hts hclear hends).bind ?_
  simp only [hcomma]
  exact gives_pure _

theorem readsArgs_more {ls : List Kind} {es : List Expr} (h : Reads s .ternary ks e)
    (hs : ReadsArgs s ls es) (hproper : ∀ k ∈ ls, Proper k) :
    ReadsArgs s (ks ++ .symbol .comma :: ls) (e :: es) := by
  intro d fuel ts rest hts hclear hends hcomma hfuel
  obtain ⟨us, t, vs, rfl, hus, ht, hvs⟩ := kinds_eq_append_cons hts
  rw [List.length_append, List.length_cons] at hfuel
  obtain ⟨less, rfl⟩ : ∃ less, fuel = less + 1 := ⟨fuel - 1, by omega⟩
  rw [operands, List.append_assoc, List.cons_append]
  refine (h.ternary (by decide) d us _ hus (clear_symbol ht)
    (ends_symbol ht rfl (by decide))).bind ?_
  simp only [after?_eq_some.mpr ⟨t, rfl, ht⟩]
  refine (gives_moveTo (clear_append hvs hproper hclear)).bind ?_
  exact (hs d less vs rest hvs hclear hends hcomma (by omega)).bind (gives_pure _)

/-- The call of a known function with the right number of arguments. -/
theorem reads_call {name : String} {f : Callee} {args : List Expr} (hvar : name ∉ s.names)
    (hconst : Constant.value? name = none) (hf : s.Calls name f) (hargs : ReadsArgs s ks args)
    (hproper : ∀ k ∈ ks, Proper k) (harity : args.length = f.arity) :
    Reads s .atom (.ident name :: .symbol .openParen :: (ks ++ [.symbol .closeParen]))
      (f.applyTo args) := by
  refine reads_of_atom (by intro sym h; cases h) ?_
  intro d t us rest ht hus hclear
  obtain ⟨t₁, vs, rfl, hopen, hvs⟩ := List.map_eq_cons_iff.mp hus
  obtain ⟨ws, t₂, xs, rfl, hws, hclose, hxs⟩ := kinds_eq_append_cons hvs
  obtain rfl := List.map_eq_nil_iff.mp hxs
  have hindex : s.names.idxOf? name = none := List.idxOf?_eq_none_iff.mpr hvar
  have hinside : Clear (ws ++ (t₂ :: rest)) :=
    clear_append hws hproper (clear_symbol hclose)
  have hcall : ∀ ts, resolve (ternary s.names d) s.names name t.column (t₁ :: ts) =
      call (ternary s.names d) name t.column (t₁ :: ts) := by
    intro ts
    simp only [resolve, hindex, hconst, after?_eq_some.mpr ⟨t₁, rfl, hopen⟩, Option.isSome_some,
      if_true]
  have harguments : Gives s.functions (operands (ternary s.names d) (ws ++ (t₂ :: rest)).length
      (ws ++ (t₂ :: rest))) (args, t₂ :: rest) := by
    refine hargs d _ ws _ hws (clear_symbol hclose) (ends_symbol hclose rfl (by decide)) ?_ ?_
    · exact after?_cons_of_ne (by rw [hclose]; exact fun h => by cases h)
    · rw [List.length_append]
      omega
  have heq : t₁ :: (ws ++ [t₂]) ++ rest = t₁ :: (ws ++ t₂ :: rest) := by simp
  rw [heq, atom_ident ht]
  refine (gives_moveTo (clear_symbol hopen)).bind ?_
  rw [hcall, call]
  refine Gives.bind (.inl ((against_callee_eq_ok s.names).mpr hf)) ?_
  refine (gives_expect hopen hinside).bind ?_
  refine harguments.bind ?_
  refine (gives_expect hclose hclear).bind ?_
  rw [if_pos harity]
  exact gives_pure _

/-! ### Operators -/

theorem reads_unary {sym : Symbol} {op : UnaryOp} (hop : Grammar.prefixOp? sym = some op)
    (h : Reads s .unary ks e) (hproper : ∀ k ∈ ks, Proper k) :
    Reads s .unary (.symbol sym :: ks) (.unary op e) := by
  refine reads_of_unary (by decide) ?_
  intro d ts rest hts hclear
  obtain ⟨t, us, rfl, ht, hus⟩ := List.map_eq_cons_iff.mp hts
  rw [Grammar.prefixOp?_eq] at hop
  rw [List.cons_append, Parser.unary, unaryOp?_eq_some.mpr ⟨t, sym, rfl, ht, hop⟩]
  refine (gives_moveTo (clear_append hus hproper hclear)).bind ?_
  cases d with
  | zero => exact gives_tooDeep _ _
  | succ d => exact (h.unary (by decide) d us rest hus hclear).bind (gives_pure _)

/-- An operator of a chain, between a phrase of its layer and one of the next. -/
theorem reads_chain {sym : Symbol} {op : BinaryOp} {ls rs : List Kind} {a b : Expr}
    (hop : Grammar.chainOp? p sym = some op) (ha : Reads s p ls a) (hb : Reads s p.next rs b)
    (hproper : ∀ k ∈ rs, Proper k) :
    Reads s p (ls ++ .symbol sym :: rs) (.binary op a b) := by
  obtain ⟨hsym, rfl, hleft, hright, -⟩ := Grammar.chainOp?_eq_some hop
  have hlow : .disjunction ≤ op.precedence := by cases op <;> decide
  have hlow' : .disjunction ≤ op.precedence.next := by cases op <;> decide
  refine reads_of_binary (by cases op <;> decide) hlow ?_
  intro d min ts rest out hts hclear hmin hfollows hloop
  obtain ⟨us, t, vs, rfl, hus, ht, hvs⟩ := kinds_eq_append_cons hts
  have hstops : Stops op.rightMin rest := stops_rightMin_iff.mpr hfollows
  have hnext : op.precedence ≤ op.precedence.next := by cases op <;> decide
  rw [List.append_assoc, List.cons_append]
  refine ha.binary hlow d min us _ out hus (clear_symbol ht) hmin ?_ ?_
  · -- The operator itself takes the phrase on its left.
    intro op' us' hop'
    obtain ⟨t', sym', heq, ht', hsym'⟩ := binaryOp?_eq_some.mp hop'
    obtain ⟨rfl, -⟩ := List.cons.inj heq
    rw [ht] at ht'
    obtain rfl := Kind.symbol.inj ht'
    obtain rfl := Option.some.inj (hsym.symm.trans hsym')
    exact Nat.le_of_eq (congrArg Precedence.rank hleft)
  · intro less
    refine gives_folds ht hsym hmin (clear_append hvs hproper hclear) ?_ hloop
    intro less'
    rw [hright]
    refine (hb.binary hlow').stops hvs hclear (Nat.le_refl _) ?_ (hright ▸ hstops)
    exact fun op' us' hop' => Nat.le_trans (hfollows op' us' hop') hnext

theorem reads_power {ls rs : List Kind} {a b : Expr} (ha : Reads s .unary ls a)
    (hb : Reads s .power rs b) (hproper : ∀ k ∈ rs, Proper k) :
    Reads s .power (ls ++ .symbol .caret :: rs) (.binary .pow a b) := by
  refine reads_of_binary (by decide) (by decide) ?_
  intro d min ts rest out hts hclear hmin hfollows hloop
  obtain ⟨us, t, vs, rfl, hus, ht, hvs⟩ := kinds_eq_append_cons hts
  have hstops : Stops BinaryOp.pow.rightMin rest := stops_rightMin_iff.mpr hfollows
  rw [List.append_assoc, List.cons_append]
  refine ha.binary (by decide) d min us _ out hus (clear_symbol ht)
    (Nat.le_trans hmin (by decide)) (follows_unary _) ?_
  intro less
  refine gives_folds ht rfl hmin (clear_append hvs hproper hclear) ?_ hloop
  exact fun less' => (hb.binary (by decide)).stops hvs hclear (by decide) hfollows hstops

theorem reads_ternary {cs ys ns : List Kind} {c y n : Expr} (hc : Reads s .disjunction cs c)
    (hy : Reads s .disjunction ys y) (hn : Reads s .ternary ns n)
    (hyproper : ∀ k ∈ ys, Proper k) (hnproper : ∀ k ∈ ns, Proper k) :
    Reads s .ternary (cs ++ .symbol .question :: (ys ++ .symbol .colon :: ns))
      (.ternary c y n) := by
  refine ⟨fun h => absurd h (by decide), fun h => absurd h (by decide), fun _ => ?_⟩
  intro d ts rest hts hclear hends
  obtain ⟨us, t₁, vs, rfl, hus, hquestion, hvs⟩ := kinds_eq_append_cons hts
  obtain ⟨ws, t₂, xs, rfl, hws, hcolon, hxs⟩ := kinds_eq_append_cons hvs
  have hno : binaryOp? (t₂ :: (xs ++ rest)) = none :=
    (ends_symbol hcolon rfl (by decide)).operator
  have hno' : binaryOp? (t₁ :: (ws ++ t₂ :: (xs ++ rest))) = none := by
    refine binaryOp?_cons_of_ne fun sym hsym => ?_
    obtain rfl := Kind.symbol.inj (hquestion.symm.trans hsym)
    rfl
  have heq : us ++ t₁ :: (ws ++ t₂ :: xs) ++ rest = us ++ t₁ :: (ws ++ t₂ :: (xs ++ rest)) := by
    simp
  rw [heq]
  cases d with
  | zero =>
      rw [Parser.ternary]
      exact gives_tooDeep _ _
  | succ d =>
      rw [Parser.ternary]
      refine ((hc.binary (by decide)).stops hus (clear_symbol hquestion) (by decide)
        (follows_of_none hno') (stops_of_none hno')).bind ?_
      simp only [after?_eq_some.mpr ⟨t₁, rfl, hquestion⟩]
      refine (gives_moveTo (clear_append hws hyproper (clear_symbol hcolon))).bind ?_
      refine ((hy.binary (by decide)).stops hws (clear_symbol hcolon) (by decide)
        (follows_of_none hno) (stops_of_none hno)).bind ?_
      refine (gives_expect hcolon (clear_append hxs hnproper hclear)).bind ?_
      exact (hn.ternary (by decide) d xs rest hxs hclear hends).bind (gives_pure _)

/-- A phrase of the next stronger layer is read where the weaker one is asked for. -/
theorem Reads.weaken (h : Reads s p.next ks e) : Reads s p ks e := by
  have hnext := p.le_next
  refine ⟨fun hlow => h.unary (Nat.le_trans hlow hnext), fun hlow => ?_,
    fun hlow => h.ternary (Nat.le_trans hlow hnext)⟩
  intro d min ts rest out hts hclear hmin hfollows hloop
  refine h.binary (Nat.le_trans hlow hnext) d min ts rest out hts hclear
    (Nat.le_trans hmin hnext) ?_ hloop
  exact fun op us hop => Nat.le_trans (hfollows op us hop) hnext

/-! ### The induction -/

mutual

/-- The parser reads every phrase of the grammar as its tree. -/
theorem reads_of_derives {p : Precedence} {ks : List Kind} {e : Expr} :
    Derives s p ks e → Reads s p ks e
  | .number value => reads_number value
  | .variable h hfirst => reads_variable h hfirst
  | .constant hvar h => reads_constant hvar h
  | .call hvar hconst hf hargs harity =>
      reads_call hvar hconst hf (readsArgs_of_derives hargs) hargs.proper harity
  | .parens h => reads_parens (reads_of_derives h) h.proper
  | .unary hop h => reads_unary hop (reads_of_derives h) h.proper
  | .power ha hb => reads_power (reads_of_derives ha) (reads_of_derives hb) hb.proper
  | .chain hop ha hb => reads_chain hop (reads_of_derives ha) (reads_of_derives hb) hb.proper
  | .ternary hc hy hn =>
      reads_ternary (reads_of_derives hc) (reads_of_derives hy) (reads_of_derives hn) hy.proper
        hn.proper
  | .clause _ _ =>
      ⟨fun h => absurd h (by decide), fun h => absurd h (by decide), fun h => absurd h (by decide)⟩
  | .stronger _ h => (reads_of_derives h).weaken

theorem readsArgs_of_derives {ks : List Kind} {es : List Expr} :
    DerivesArgs s ks es → ReadsArgs s ks es
  | .last h => readsArgs_last (reads_of_derives h)
  | .more h hs => readsArgs_more (reads_of_derives h) (readsArgs_of_derives hs) hs.proper

end

/-- The tokens of a whole formula, up to the end of the input. -/
theorem topLevel_of_derives (h : Derives s .clause ks e) (hts : kinds ts = ks)
    (hrest : atFinish rest = true) : Gives s.functions (topLevel s.names (ts ++ rest)) e := by
  have hproper := h.proper
  obtain ⟨last, after, rfl, hlast⟩ := atFinish_eq_true.mp hrest
  have hclear : Clear (last :: after) := clear_finish hlast
  have hends : Ends (last :: after) := by
    refine ⟨binaryOp?_cons_of_ne fun sym hsym => ?_, after?_cons_of_ne ?_⟩
    · rw [hlast] at hsym
      cases hsym
    · rw [hlast]
      exact fun h => by cases h
  have hcomma : after? .comma (last :: after) = none :=
    after?_cons_of_ne (by rw [hlast]; exact fun h => by cases h)
  rw [topLevel]
  refine (gives_moveTo (clear_append hts hproper hclear)).bind ?_
  cases h with
  | chain hop => cases hop
  | stronger hp h =>
      refine ((reads_of_derives h).ternary (by decide) maxDepth ts _ hts hclear hends).bind ?_
      simp only [hcomma, pure_bind, hrest, if_true]
      exact gives_pure e
  | clause he hc =>
      obtain ⟨us, t₁, vs, rfl, hus, hkind₁, hvs⟩ := kinds_eq_append_cons hts
      obtain ⟨t₂, ws, rfl, hkind₂, hws⟩ := List.map_eq_cons_iff.mp hvs
      have heq : us ++ t₁ :: t₂ :: ws ++ last :: after =
          us ++ t₁ :: t₂ :: (ws ++ last :: after) := by
        simp
      have hwhere : Clear (t₂ :: (ws ++ last :: after)) := by
        refine clear_cons.mpr (error?_eq_none ?_)
        rw [hkind₂]
        trivial
      rw [heq]
      refine ((reads_of_derives he).ternary (by decide) maxDepth us _ hus (clear_symbol hkind₁)
        (ends_symbol hkind₁ rfl (by decide))).bind ?_
      simp only [after?_eq_some.mpr ⟨t₁, rfl, hkind₁⟩]
      refine (gives_moveTo hwhere).bind ?_
      simp only [ident?_eq_some.mpr ⟨t₂, rfl, hkind₂⟩]
      refine (gives_moveTo (clear_append hws hc.proper hclear)).bind ?_
      refine ((reads_of_derives hc).ternary (by decide) maxDepth ws _ hws hclear hends).bind ?_
      simp only [pure_bind, hrest]
      exact gives_pure _

end Parser

end FormulaPlot
