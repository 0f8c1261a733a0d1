/-
Reading a formula one token after the other.

From the left, a formula is a matter of what may come next.  Either an operand is missing or
one has just been read, and besides that it only matters what is still open: parentheses,
arguments, choices whose first branch is being read, and the clause.  `step` is the machine
with these states.  It never goes back, and where it has no step, no formula goes on.

That takes the two halves of a correctness proof.  Every phrase is run through, from the
state that asks for an operand to the one after it, so a formula never meets a state without
a step.  And what the machine has read can always be completed: in every state there is
something that closes all that is open, and `Came` says how to make a formula of the tokens
and what closes them.  So the machine comes to its end exactly at the end of a formula.  In
between, the layers of the operators do not show, because an operator may follow an operand
whatever came before it.
-/
import FormulaPlot.Proofs.Grammar.Sentence

namespace FormulaPlot.Grammar

open Token (Kind)

/-! ### The machine -/

/-- What is open around the expression that is being read. -/
inductive Pending where
  /-- Nothing: it is the formula itself. -/
  | formula
  /-- The clause at the end of a formula. -/
  | condition
  /-- A choice whose first branch it is. -/
  | choice (outer : Pending)
  /-- An expression in parentheses. -/
  | group (outer : Pending)
  /-- The arguments of a call. -/
  | args (outer : Pending)

/-- The layer of the expression.  A branch before the colon is no choice itself. -/
def Pending.layer : Pending → Precedence
  | choice _ => .disjunction
  | _ => .ternary

theorem Pending.clause_lt (σ : Pending) : .clause < σ.layer := by
  cases σ with
  | choice _ => exact (by decide : Precedence.clause < .disjunction)
  | _ => exact (by decide : Precedence.clause < .ternary)

theorem Pending.layer_le (σ : Pending) : σ.layer ≤ .disjunction := by
  cases σ with
  | choice _ => exact Nat.le_refl _
  | _ => exact (by decide : Precedence.ternary ≤ .disjunction)

/-- What has been read, as far as it matters for what may come. -/
inductive State where
  /-- An operand has to come. -/
  | operand (pending : Pending)
  /-- An operand has been read. -/
  | operator (pending : Pending)
  /-- The name of a function has been read. -/
  | callee (pending : Pending)
  /-- The comma of the clause has been read. -/
  | keyword
  /-- The end has been read. -/
  | finished

/-- What a symbol after an operand means to what is open, if it is no operator. -/
def Pending.after : Pending → Symbol → Option State
  | choice σ, .colon => some (.operand σ)
  | choice _, _ => none
  | σ, .question => some (.operand (.choice σ))
  | group σ, .closeParen => some (.operator σ)
  | args σ, .closeParen => some (.operator σ)
  | args σ, .comma => some (.operand (.args σ))
  | formula, .comma => some .keyword
  | _, _ => none

/-- The next state, if the token may come. -/
def step (names : List String) : State → Kind → Option State
  | .operand σ, .number _ => some (.operator σ)
  | .operand σ, .ident name => some (if standsAlone names name then .operator σ else .callee σ)
  | .operand σ, .symbol .openParen => some (.operand (.group σ))
  | .operand σ, .symbol sym => (prefixOp? sym).map fun _ => .operand σ
  | .callee σ, .symbol .openParen => some (.operand (.args σ))
  | .operator σ, .symbol sym =>
    if (BinaryOp.ofSymbol? sym).isSome then some (.operand σ) else σ.after sym
  | .operator .formula, .finish => some .finished
  | .operator .condition, .finish => some .finished
  | .keyword, .ident "where" => some (.operand .condition)
  | _, _ => none

/-- The state after some tokens. -/
def run (names : List String) (q : State) (ks : List Kind) : Option State :=
  ks.foldlM (step names) q

/-- The state in which a formula begins. -/
abbrev State.start : State := .operand .formula

variable {names : List String} {p : Precedence} {σ : Pending} {q q' : State} {k : Kind}
  {ks ls us w : List Kind}

theorem run_nil : run names q [] = some q := rfl

theorem run_cons : run names q (k :: ks) = (step names q k).bind fun q' => run names q' ks := rfl

theorem run_append : run names q (ks ++ ls) = (run names q ks).bind fun q' => run names q' ls :=
  List.foldlM_append

/-! ### Formulas are run through -/

theorem step_binary {sym : Symbol} {op : BinaryOp} (hop : BinaryOp.ofSymbol? sym = some op) :
    step names (.operator σ) (.symbol sym) = some (.operand σ) := by
  simp [step, hop]

theorem step_prefix {sym : Symbol} {op : UnaryOp} (hop : prefixOp? sym = some op) :
    step names (.operand σ) (.symbol sym) = some (.operand σ) := by
  cases sym <;> cases hop <;> rfl

theorem step_question (h : σ.layer ≤ .ternary) :
    step names (.operator σ) (.symbol .question) = some (.operand (.choice σ)) := by
  cases σ with
  | choice outer =>
      have hno : ¬ Precedence.disjunction ≤ .ternary := by decide
      exact absurd h hno
  | _ => rfl

mutual

/-- A phrase leads from the state that asks for an operand to the one behind it. -/
theorem Phrase.run : {p : Precedence} → {ks : List Kind} → Phrase names p ks →
    {σ : Pending} → σ.layer ≤ p → run names (.operand σ) ks = some (.operator σ)
  | _, _, .number _, _, _ => rfl
  | _, _, .name h, _, _ => by simp [run_cons, run_nil, step, h]
  | _, _, .call h hargs, _, _ => by
      simp [run_cons, run_nil, run_append, step, h, hargs.run, BinaryOp.ofSymbol?, Pending.after]
  | _, _, .parens h, σ, _ => by
      have hinner : run names (.operand (.group σ)) _ = _ := h.run (Nat.le_refl _)
      simp [run_cons, run_nil, run_append, step, hinner, BinaryOp.ofSymbol?, Pending.after]
  | _, _, .unary hop h, _, hp => by
      rw [run_cons, step_prefix hop]
      exact h.run hp
  | _, _, .power ha hb, _, hp => by
      rw [run_append, ha.run (Nat.le_trans hp (by decide)), Option.bind_some, run_cons,
        step_binary rfl]
      exact hb.run hp
  | _, _, .chain hop ha hb, _, hp => by
      rw [run_append, ha.run hp, Option.bind_some, run_cons,
        step_binary (chainOp?_eq_some hop).1]
      exact hb.run (Nat.le_trans hp (Precedence.le_next _))
  | _, _, .ternary hc hy hn, σ, hp => by
      rw [run_append, hc.run (Nat.le_trans hp (by decide)), Option.bind_some, run_cons,
        step_question hp, Option.bind_some, run_append, hy.run (Nat.le_refl _)]
      exact hn.run hp
  | _, _, .clause _ _, σ, hp => absurd hp (Nat.not_le_of_lt σ.clause_lt)
  | _, _, .stronger _ h, _, hp => h.run (Nat.le_trans hp (Precedence.le_next _))

theorem PhraseArgs.run : {ks : List Kind} → PhraseArgs names ks → {σ : Pending} →
    run names (.operand (.args σ)) ks = some (.operator (.args σ))
  | _, .last h, _ => h.run (Nat.le_refl _)
  | _, .more h hs, _ => by
      rw [run_append, h.run (Nat.le_refl _)]
      exact hs.run

end

/-- A formula and its end are run through. -/
theorem Phrase.run_finish (h : Sentence names ks) :
    Grammar.run names .start (ks ++ [.finish]) = some .finished := by
  cases h with
  | clause he hc =>
      have hexpr : Grammar.run names .start _ = _ := he.run (Nat.le_refl _)
      have hcond : Grammar.run names (.operand .condition) _ = _ := hc.run (Nat.le_refl _)
      simp [run_append, run_cons, run_nil, hexpr, hcond, step, BinaryOp.ofSymbol?, Pending.after]
  | stronger _ h =>
      have hexpr : Grammar.run names .start _ = _ := h.run (Nat.le_refl _)
      simp [run_append, run_cons, run_nil, hexpr, step]
  | chain hop _ _ => exact absurd hop (by simp [chainOp?])

/-- No formula goes on where the machine has no step. -/
theorem no_sentence (hw : run names .start w = some q) (hk : step names q k = none)
    (hks : Sentence names ks) : ¬ w ++ [k] <+: ks ++ [.finish] := by
  rintro ⟨rest, hrest⟩
  have hrun := hks.run_finish
  rw [← hrest, run_append, run_append, hw, Option.bind_some, run_cons, hk] at hrun
  cases hrun

/-! ### What was read can be completed -/

/-- An operand behind the tokens makes a phrase of the layer. -/
def Begins (names : List String) (p : Precedence) (ps : List Kind) : Prop :=
  ∀ us, Phrase names .unary us → Phrase names p (ps ++ us)

/-- The arguments that were read, with a comma behind each of them. -/
def BeginsArgs (names : List String) (as : List Kind) : Prop :=
  ∀ ks, PhraseArgs names ks → PhraseArgs names (as ++ ks)

/-- The tokens have opened what is open, and the expression inside has not begun. -/
inductive Opened (names : List String) : Pending → List Kind → Prop
  | formula : Opened names .formula []
  | condition {es : List Kind} (h : Phrase names .ternary es) :
      Opened names .condition (es ++ [.symbol .comma, .ident "where"])
  | choice {σ : Pending} {as cs : List Kind} (h : Opened names σ as) (hlayer : σ.layer = .ternary)
      (hc : Phrase names .ternary cs) :
      Opened names (.choice σ) (as ++ (cs ++ [.symbol .question]))
  | group {σ : Pending} {as ps : List Kind} (h : Opened names σ as)
      (hbegins : Begins names σ.layer ps) :
      Opened names (.group σ) (as ++ (ps ++ [.symbol .openParen]))
  | args {σ : Pending} {as ps bs : List Kind} {name : String} (h : Opened names σ as)
      (hbegins : Begins names σ.layer ps) (hname : standsAlone names name = false)
      (hargs : BeginsArgs names bs) :
      Opened names (.args σ) (as ++ (ps ++ .ident name :: .symbol .openParen :: bs))

/-- The tokens have led to the state. -/
inductive Came (names : List String) : State → List Kind → Prop
  | operand {σ : Pending} {as ps : List Kind} (h : Opened names σ as)
      (hbegins : Begins names σ.layer ps) : Came names (.operand σ) (as ++ ps)
  | operator {σ : Pending} {as ks : List Kind} (h : Opened names σ as)
      (hphrase : Phrase names σ.layer ks) : Came names (.operator σ) (as ++ ks)
  | callee {σ : Pending} {as ps : List Kind} {name : String} (h : Opened names σ as)
      (hbegins : Begins names σ.layer ps) (hname : standsAlone names name = false) :
      Came names (.callee σ) (as ++ (ps ++ [.ident name]))
  | keyword {es : List Kind} (h : Phrase names .ternary es) :
      Came names .keyword (es ++ [.symbol .comma])
  | finished {ks : List Kind} (h : Sentence names ks) : Came names .finished (ks ++ [.finish])

theorem begins_nil (σ : Pending) : Begins names σ.layer [] := by
  intro us hus
  exact hus.weaken (Nat.le_trans σ.layer_le (by decide))

/-- An operand of any kind completes what asks for one. -/
theorem Begins.atom {ps : List Kind} (h : Begins names p ps) (hus : Phrase names .atom us) :
    Phrase names p (ps ++ us) :=
  h us (hus.weaken (by decide))

theorem Begins.prefixed {ps : List Kind} {sym : Symbol} {op : UnaryOp} (h : Begins names p ps)
    (hop : prefixOp? sym = some op) : Begins names p (ps ++ [.symbol sym]) := by
  intro us hus
  rw [List.append_assoc]
  exact h _ (.unary hop hus)

/-- After an operator another operand is missing, and the phrase goes on. -/
theorem Phrase.begins {sym : Symbol} {op : BinaryOp} (h : Phrase names p ks)
    (hop : BinaryOp.ofSymbol? sym = some op) (hp : p ≤ .disjunction) :
    Begins names p (ks ++ [.symbol sym]) := by
  intro us hus
  rw [List.append_assoc]
  exact Phrase.append_binary hop hus h (Nat.le_refl _) (Nat.le_trans hp op.disjunction_le)

/-- Nothing has begun yet where something has just been opened. -/
theorem Opened.came {as : List Kind} (h : Opened names σ as) : Came names (.operand σ) as := by
  simpa using Came.operand h (begins_nil σ)

/-- A branch behind the colon is missing, and the choice goes on with it. -/
theorem Phrase.begins_branch {cs ys : List Kind} (hc : Phrase names .ternary cs)
    (hy : Phrase names .disjunction ys) :
    Begins names .ternary (cs ++ .symbol .question :: (ys ++ [.symbol .colon])) := by
  intro us hus
  simpa using Phrase.append_choice hy (hus.weaken (by decide)) hc (Nat.le_refl _)

theorem BeginsArgs.more {as : List Kind} (h : BeginsArgs names as)
    (hk : Phrase names .ternary ks) : BeginsArgs names (as ++ (ks ++ [.symbol .comma])) := by
  intro ls hls
  simpa using h _ (.more hk hls)

/-- What a symbol after an expression means to what is open, it means to the tokens. -/
theorem Opened.after {as : List Kind} {sym : Symbol} (h : Opened names σ as)
    (hk : Phrase names σ.layer ks) (hnext : σ.after sym = some q') :
    Came names q' (as ++ (ks ++ [.symbol sym])) := by
  revert hk hnext
  fun_cases Pending.after σ sym with
  | case1 σ =>
      rintro hk ⟨⟩
      cases h with
      | choice h hlayer hc =>
          have hbegins := hlayer ▸ hc.begins_branch hk
          simpa using Came.operand h hbegins
  | case2 => rintro _ ⟨⟩
  | case3 _ hno =>
      rintro hk ⟨⟩
      have hlayer : σ.layer = .ternary := by
        cases σ with
        | choice outer => exact absurd rfl (hno outer)
        | _ => rfl
      exact (Opened.choice h hlayer (hlayer ▸ hk)).came
  | case4 σ =>
      rintro hk ⟨⟩
      cases h with
      | group h hbegins => simpa using Came.operator h (hbegins.atom (.parens hk))
  | case5 σ =>
      rintro hk ⟨⟩
      cases h with
      | args h hbegins hname hargs =>
          have hcall := Phrase.call hname (hargs _ (.last hk))
          simpa using Came.operator h (hbegins.atom hcall)
  | case6 σ =>
      rintro hk ⟨⟩
      cases h with
      | args h hbegins hname hargs =>
          simpa using (Opened.args h hbegins hname (hargs.more hk)).came
  | case7 =>
      rintro hk ⟨⟩
      cases h
      exact .keyword hk
  | case8 => rintro _ ⟨⟩

/-- **A step of the machine keeps what its state says about the tokens.** -/
theorem Came.step (h : Came names q w) (hnext : step names q k = some q') :
    Came names q' (w ++ [k]) := by
  revert hnext
  fun_cases Grammar.step names q k with
  | case1 σ value =>
      rintro ⟨⟩
      cases h with
      | operand h hbegins => simpa using Came.operator h (hbegins.atom (.number value))
  | case2 σ name =>
      rintro ⟨⟩
      cases h with
      | operand h hbegins =>
          cases hname : standsAlone names name with
          | true => simpa using Came.operator h (hbegins.atom (.name hname))
          | false => simpa using Came.callee h hbegins hname
  | case3 σ =>
      rintro ⟨⟩
      cases h with
      | operand h hbegins => simpa using (Opened.group h hbegins).came
  | case4 σ sym _ =>
      intro hnext
      obtain ⟨op, hop, rfl⟩ := Option.map_eq_some_iff.mp hnext
      cases h with
      | operand h hbegins => simpa using Came.operand h (hbegins.prefixed hop)
  | case5 σ =>
      rintro ⟨⟩
      cases h with
      | callee h hbegins hname =>
          have hnone : BeginsArgs names [] := fun ks hks => hks
          simpa using (Opened.args h hbegins hname hnone).came
  | case6 σ sym hop =>
      rintro ⟨⟩
      obtain ⟨op, hop⟩ := Option.isSome_iff_exists.mp hop
      cases h with
      | operator h hk => simpa using Came.operand h (hk.begins hop σ.layer_le)
  | case7 σ sym _ =>
      intro hnext
      cases h with
      | operator h hk => simpa using h.after hk hnext
  | case8 =>
      rintro ⟨⟩
      cases h with
      | operator h hk =>
          cases h
          exact .finished (.stronger (by decide) hk)
  | case9 =>
      rintro ⟨⟩
      cases h with
      | operator h hk =>
          cases h with
          | condition he => simpa using Came.finished (.clause he hk)
  | case10 =>
      rintro ⟨⟩
      cases h with
      | keyword h => simpa using (Opened.condition h).came
  | case11 => rintro ⟨⟩

/-- What the machine has run through has led to its state. -/
theorem Came.run {v : List Kind} (h : Came names q w) (hv : run names q v = some q') :
    Came names q' (w ++ v) := by
  induction v generalizing q w with
  | nil =>
      cases hv
      simpa using h
  | cons k v ih =>
      obtain ⟨q₁, hk, hv⟩ := Option.bind_eq_some_iff.mp (run_cons.symm.trans hv)
      simpa using ih (h.step hk) hv

theorem Came.sentence (h : Came names .finished w) :
    ∃ ks, w = ks ++ [.finish] ∧ Sentence names ks := by
  cases h with
  | finished h => exact ⟨_, rfl, h⟩

/-- **The machine comes to its end exactly at the end of a formula.** -/
theorem sentence_iff_run :
    Sentence names ks ↔ run names .start (ks ++ [.finish]) = some .finished := by
  refine ⟨Phrase.run_finish, fun hrun => ?_⟩
  obtain ⟨ls, hls, h⟩ := (Opened.formula.came.run hrun).sentence
  rw [List.nil_append] at hls
  obtain ⟨rfl, -⟩ := List.append_inj' hls rfl
  exact h

/-- After an operand, what is open can be closed. -/
theorem exists_closing (names : List String) (σ : Pending) :
    ∃ v, run names (.operator σ) v = some .finished := by
  induction σ with
  | formula => exact ⟨[.finish], rfl⟩
  | condition => exact ⟨[.finish], rfl⟩
  | choice σ ih =>
      obtain ⟨v, hv⟩ := ih
      exact ⟨.symbol .colon :: .number 0 :: v, hv⟩
  | group σ ih =>
      obtain ⟨v, hv⟩ := ih
      exact ⟨.symbol .closeParen :: v, hv⟩
  | args σ ih =>
      obtain ⟨v, hv⟩ := ih
      exact ⟨.symbol .closeParen :: v, hv⟩

/-- The machine never gets to where it cannot come to the end. -/
theorem exists_completion (names : List String) (q : State) :
    ∃ v, run names q v = some .finished := by
  have hoperand : ∀ σ : Pending, ∃ v, run names (.operand σ) v = some .finished := by
    intro σ
    obtain ⟨v, hv⟩ := exists_closing names σ
    exact ⟨.number 0 :: v, hv⟩
  cases q with
  | operand σ => exact hoperand σ
  | operator σ => exact exists_closing names σ
  | callee σ =>
      obtain ⟨v, hv⟩ := hoperand (.args σ)
      exact ⟨.symbol .openParen :: v, hv⟩
  | keyword =>
      obtain ⟨v, hv⟩ := hoperand .condition
      exact ⟨.ident "where" :: v, hv⟩
  | finished => exact ⟨[], rfl⟩

/-- What was read before the end is the beginning of a formula. -/
theorem exists_sentence (hw : run names .start w = some q) (hq : q ≠ .finished) :
    ∃ v, Sentence names (w ++ v) := by
  obtain ⟨v, hv⟩ := exists_completion names q
  rcases List.eq_nil_or_concat v with rfl | ⟨v, k, rfl⟩
  · exact absurd (Option.some.inj hv) hq
  · obtain ⟨ks, hks, h⟩ := ((Opened.formula.came.run hw).run hv).sentence
    rw [List.nil_append, List.concat_eq_append, ← List.append_assoc] at hks
    obtain ⟨rfl, -⟩ := List.append_inj' hks rfl
    exact ⟨v, h⟩

end FormulaPlot.Grammar
