/-
Where a formula is refused.

The readers look one token ahead and never go back, so a reading goes along with the machine
that runs through the formulas.  What a reader has to be given is that the machine asks for
an operand, or has just read one, at the token that comes next; what it gives back is where
the machine is then, and besides that what the next token cannot be, because the reader would
have taken it.

A reader fails for the grammar's sake only where the machine has no step.  At most of the
places this can be seen from the next token alone.  Where a parenthesis, a colon or the end is
missed, it takes what has been kept about the next token: that it is no operator, no question
mark and no comma.
-/
import FormulaPlot.Proofs.Grammar.Machine
import FormulaPlot.Proofs.Parser.Formula
import FormulaPlot.Proofs.Token.Munch

namespace FormulaPlot.Parser

open Token (Kind)
open Grammar (Pending State Proper step run standsAlone Sentence)
open Inquiry (fail)

variable {names : List String} {all ts us rest : List Token} {t : Token} {σ : Pending}
  {q q' : State} {r : Registry}

/-! ### The machine along the tokens -/

/-- The machine is in the state when these tokens are left, the last one among them. -/
structure Reaches (names : List String) (all : List Token) (q : State) (ts : List Token) :
    Prop where
  came : ∃ used, all = used ++ ts ∧ run names .start (kinds used) = some q
  going : q ≠ .finished
  last : ∃ t ∈ ts, ¬ Proper t.kind

/-- At the column there is a token that the machine has no step for. -/
def Stuck (names : List String) (all : List Token) (column : Nat) : Prop :=
  ∃ used t rest q, all = used ++ t :: rest ∧ t.column = column ∧
    run names .start (kinds used) = some q ∧ q ≠ .finished ∧ step names q t.kind = none

/-- Only the end of a formula ends the machine. -/
theorem proper_of_step {k : Kind} (h : step names q k = some q') (hq' : q' ≠ .finished) :
    Proper k := by
  revert h
  fun_cases step names q k with
  | case8 | case9 =>
      rintro ⟨⟩
      exact absurd rfl hq'
  | case11 => rintro ⟨⟩
  | _ => exact fun _ => trivial

/-- The machine goes on with the next token. -/
theorem Reaches.next (h : Reaches names all q (t :: ts)) (hstep : step names q t.kind = some q')
    (hq' : q' ≠ .finished) : Reaches names all q' ts := by
  obtain ⟨⟨used, hall, hused⟩, -, u, hu, hlast⟩ := h
  refine ⟨⟨used ++ [t], by simpa using hall, ?_⟩, hq', u, ?_, hlast⟩
  · rw [kinds, List.map_append, Grammar.run_append, hused]
    simpa [Grammar.run_cons, Grammar.run_nil] using hstep
  · rcases List.mem_cons.mp hu with rfl | hu
    · exact absurd (proper_of_step hstep hq') hlast
    · exact hu

/-- There is always a token left. -/
theorem Reaches.exists_cons (h : Reaches names all q ts) : ∃ t us, ts = t :: us := by
  obtain ⟨t, ht, -⟩ := h.last
  exact List.exists_cons_of_ne_nil (List.ne_nil_of_mem ht)

theorem Reaches.stuck (h : Reaches names all q ts)
    (hno : ∀ t us, ts = t :: us → step names q t.kind = none) : Stuck names all (column ts) := by
  obtain ⟨t, us, rfl⟩ := h.exists_cons
  obtain ⟨⟨used, hall, hused⟩, hgoing, -⟩ := h
  exact ⟨used, t, us, q, hall, rfl, hused, hgoing, hno t us rfl⟩

/-! ### Readings that go along with the machine -/

/-- What is true of the value if the reading succeeds.  If it fails for the grammar's sake, the
machine is stuck where it fails. -/
structure Heeds (names : List String) (all : List Token) (r : Registry) {α : Type}
    (m : Inquiry α) (Q : α → Prop) : Prop where
  ok : ∀ a, m.against r = .ok a → Q a
  error : ∀ fault, m.against r = .error fault → fault.cause.kind = .grammar →
    fault.cause ≠ .tooDeep → Stuck names all fault.column

section

variable {α β : Type} {m : Inquiry α} {f : α → Inquiry β} {P : α → Prop} {Q : β → Prop}

theorem heeds_pure {b : β} (h : Q b) : Heeds names all r (pure b) Q := by
  refine ⟨?_, ?_⟩
  · rintro _ ⟨⟩
    exact h
  · rintro _ ⟨⟩

theorem Heeds.bind (hm : Heeds names all r m P)
    (hf : ∀ a, m.against r = .ok a → P a → Heeds names all r (f a) Q) :
    Heeds names all r (m >>= f) Q := by
  cases hread : m.against r with
  | error fault =>
      have hboth : (m >>= f).against r = .error fault := by
        rw [Inquiry.against_bind, hread]
        rfl
      refine ⟨fun b hb => ?_, fun fault' hfault => ?_⟩
      · rw [hboth] at hb
        cases hb
      · rw [hboth] at hfault
        cases hfault
        exact hm.error fault hread
  | ok a =>
      have hboth : (m >>= f).against r = (f a).against r := by
        rw [Inquiry.against_bind, hread]
        rfl
      have hnext := hf a hread (hm.ok a hread)
      exact ⟨fun b hb => hnext.ok b (hboth ▸ hb), fun fault h => hnext.error fault (hboth ▸ h)⟩

/-- A failure that is none of the grammar. -/
theorem heeds_fail {fault : Fault} (h : fault.cause.kind = .grammar → fault.cause = .tooDeep) :
    Heeds names all r (fail fault) Q := by
  refine ⟨?_, ?_⟩
  · rintro _ ⟨⟩
  · rintro _ ⟨⟩ hkind hdeep
    exact absurd (h hkind) hdeep

theorem heeds_stuck {cause : Cause} (h : Reaches names all q ts)
    (hno : ∀ t us, ts = t :: us → step names q t.kind = none) :
    Heeds names all r (failAt ts cause) Q := by
  refine ⟨?_, ?_⟩
  · rintro _ ⟨⟩
  · rintro _ ⟨⟩ _ _
    exact h.stuck hno

end

theorem heeds_moveTo (h : Reaches names all q ts) :
    Heeds names all r (moveTo ts) (Reaches names all q) := by
  unfold moveTo
  split
  · exact heeds_fail fun h => by cases h
  · exact heeds_pure h

/-- A symbol that has to come is the only one the machine has a step for. -/
theorem heeds_expect {sym : Symbol} (h : Reaches names all q ts)
    (hstep : step names q (.symbol sym) = some q') (hq' : q' ≠ .finished)
    (hno : ∀ t us, ts = t :: us → t.kind ≠ .symbol sym → step names q t.kind = none) :
    Heeds names all r (expect sym ts) (Reaches names all q') := by
  unfold expect
  cases hafter : after? sym ts with
  | some us =>
      obtain ⟨t, rfl, ht⟩ := after?_eq_some.mp hafter
      exact heeds_moveTo (h.next (ht ▸ hstep) hq')
  | none =>
      refine heeds_stuck h fun t us hts => hno t us hts fun ht => ?_
      rw [after?_eq_some.mpr ⟨t, hts, ht⟩] at hafter
      cases hafter

/-! ### Where the machine is stuck -/

theorem step_keyword_eq_none {k : Kind} (h : k ≠ .ident "where") :
    step names .keyword k = none := by
  unfold step
  split <;> simp_all

theorem step_callee_eq_none {k : Kind} (h : k ≠ .symbol .openParen) :
    step names (.callee σ) k = none := by
  cases k with
  | symbol sym => cases sym <;> first | rfl | exact absurd rfl h
  | _ => rfl

theorem ne_of_after?_eq_none {sym : Symbol} (h : after? sym (t :: us) = none) :
    t.kind ≠ .symbol sym := by
  intro ht
  rw [after?_eq_some.mpr ⟨t, rfl, ht⟩] at h
  cases h

/-- What is neither a number nor a name nor a parenthesis nor a prefix operator begins no
operand. -/
theorem step_operand_eq_none (hnumber : ∀ value, t.kind ≠ .number value)
    (hname : ∀ name, t.kind ≠ .ident name) (hopen : after? .openParen (t :: us) = none)
    (hunary : unaryOp? (t :: us) = none) : step names (.operand σ) t.kind = none := by
  cases hk : t.kind with
  | number value => exact absurd hk (hnumber value)
  | ident name => exact absurd hk (hname name)
  | symbol sym =>
      cases hprefix : Grammar.prefixOp? sym with
      | some op =>
          rw [Grammar.prefixOp?_eq] at hprefix
          rw [unaryOp?_eq_some.mpr ⟨t, sym, rfl, hk, hprefix⟩] at hunary
          cases hunary
      | none =>
          have hparen : sym ≠ .openParen := by
            rintro rfl
            exact ne_of_after?_eq_none hopen hk
          simp [step, hprefix]
  | finish => rfl
  | invalid e => rfl

/-- After an operand, what is no operator has to mean something to what is open. -/
theorem step_operator_eq_none (hop : binaryOp? (t :: us) = none)
    (hafter : ∀ sym, t.kind = .symbol sym → σ.after sym = none)
    (hfinish : t.kind = .finish → σ ≠ .formula ∧ σ ≠ .condition) :
    step names (.operator σ) t.kind = none := by
  cases hk : t.kind with
  | symbol sym =>
      have hsym : BinaryOp.ofSymbol? sym = none := by
        cases hfound : BinaryOp.ofSymbol? sym with
        | none => rfl
        | some op =>
            rw [binaryOp?_eq_some.mpr ⟨t, sym, rfl, hk, hfound⟩] at hop
            cases hop
      simp [step, hsym, hafter sym hk]
  | finish =>
      obtain ⟨hformula, hcondition⟩ := hfinish hk
      cases σ with
      | formula => exact absurd rfl hformula
      | condition => exact absurd rfl hcondition
      | _ => rfl
  | number value => rfl
  | ident name => rfl
  | invalid e => rfl

/-- Where an expression can end, only what closes what is open has a step. -/
theorem step_of_ends (hends : Ends (t :: us))
    (hafter : ∀ sym, t.kind = .symbol sym → sym ≠ .question → σ.after sym = none)
    (hfinish : t.kind = .finish → σ ≠ .formula ∧ σ ≠ .condition) :
    step names (.operator σ) t.kind = none := by
  refine step_operator_eq_none hends.operator (fun sym ht => hafter sym ht ?_) hfinish
  rintro rfl
  exact ne_of_after?_eq_none hends.question ht

/-- What is weaker than a disjunction is no operator. -/
theorem none_of_stops (h : Stops .disjunction ts) : binaryOp? ts = none := by
  cases hop : binaryOp? ts with
  | none => rfl
  | some found => exact absurd (h found.1 found.2 hop) (Nat.not_lt_of_le found.1.disjunction_le)

/-! ### Names and calls -/

theorem heeds_callee (name : String) (column : Nat) :
    Heeds names all r (callee name column) fun _ => True := by
  have hrequest : Heeds names all r (Inquiry.request name) fun _ => True := by
    refine ⟨fun _ _ => trivial, fun fault h => ?_⟩
    simp only [Inquiry.request, Inquiry.against] at h
    split at h <;> cases h
  unfold callee
  cases Intrinsic.ofName? name with
  | some f => exact heeds_pure trivial
  | none =>
      refine hrequest.bind fun answer _ _ => ?_
      cases answer with
      | found f => exact heeds_pure trivial
      | _ => exact heeds_fail fun h => by cases h

/-- An operand is read from where the machine asks for one to where it has read one, and no
operator and no question mark are left. -/
def HeedsOperand (names : List String) (all : List Token) (r : Registry) (operand : Reader Expr) :
    Prop :=
  ∀ σ ts, σ.layer = .ternary → Reaches names all (.operand σ) ts →
    Heeds names all r (operand ts) fun out => Reaches names all (.operator σ) out.2 ∧ Ends out.2

variable {operand : Reader Expr} {s : Grammar.Scope} {d : Nat}

/-- Arguments are read up to what is neither an operator nor a question mark nor a comma. -/
theorem heeds_operands (hoperand : HeedsOperand names all s.functions operand)
    (htakes : Takes s .ternary operand) (fuel : Nat) :
    ∀ ts, ts.length ≤ fuel → Reaches names all (.operand (.args σ)) ts →
      Heeds names all s.functions (operands operand fuel ts) fun out =>
        Reaches names all (.operator (.args σ)) out.2 ∧ Ends out.2 ∧
          after? .comma out.2 = none := by
  induction fuel with
  | zero =>
      intro ts hfuel h
      obtain ⟨t, us, rfl⟩ := h.exists_cons
      cases hfuel
  | succ fuel ih =>
      intro ts hfuel h
      rw [operands]
      refine (hoperand (.args σ) ts rfl h).bind ?_
      rintro ⟨first, us⟩ hread ⟨hreach, hends⟩
      cases hcomma : after? .comma us with
      | none =>
          simp only [hcomma]
          exact heeds_pure ⟨hreach, hends, hcomma⟩
      | some vs =>
          simp only [hcomma]
          obtain ⟨t, rfl, ht⟩ := after?_eq_some.mp hcomma
          obtain ⟨used, hused, -⟩ := htakes ts first _ hread
          have hlength : vs.length ≤ fuel := by
            rw [hused, List.length_append, List.length_cons] at hfuel
            omega
          refine (heeds_moveTo (hreach.next (by rw [ht]; rfl) (by simp))).bind ?_
          intro ws hws hargs
          obtain ⟨-, rfl⟩ := against_moveTo_eq_ok.mp hws
          refine (ih _ hlength hargs).bind ?_
          rintro ⟨others, xs⟩ - hothers
          exact heeds_pure hothers

/-- The arguments of a call are read from the parenthesis behind the name. -/
theorem heeds_call (hoperand : HeedsOperand names all s.functions operand)
    (htakes : Takes s .ternary operand) (name : String) (column : Nat)
    (h : Reaches names all (.callee σ) ts) :
    Heeds names all s.functions (call operand name column ts) fun out =>
      Reaches names all (.operator σ) out.2 := by
  unfold call
  refine (heeds_callee name column).bind fun f _ _ => ?_
  refine (heeds_expect h rfl (by simp) fun t us _ => step_callee_eq_none).bind fun us _ hus => ?_
  refine (heeds_operands hoperand htakes us.length us (Nat.le_refl _) hus).bind ?_
  rintro ⟨args, vs⟩ - ⟨hvs, hends, hcomma⟩
  refine (heeds_expect hvs rfl (by simp) ?_).bind fun ws _ hws => ?_
  · rintro t ws rfl hclose
    have hcomma := ne_of_after?_eq_none hcomma
    refine step_of_ends hends (fun sym ht hquestion => ?_) (by simp)
    cases sym <;>
      first | rfl | exact absurd rfl hquestion | exact absurd ht hcomma | exact absurd ht hclose
  · split
    · exact heeds_pure hws
    · exact heeds_fail fun h => by cases h

/-- What the machine is in after a name, it stays in after a name that stands alone. -/
theorem heeds_resolve (hoperand : HeedsOperand s.names all s.functions operand)
    (htakes : Takes s .ternary operand) {name : String} (column : Nat)
    (h : Reaches s.names all (if standsAlone s.names name then .operator σ else .callee σ) ts) :
    Heeds s.names all s.functions (resolve operand s.names name column ts) fun out =>
      Reaches s.names all (.operator σ) out.2 := by
  unfold resolve
  cases hindex : s.names.idxOf? name with
  | some index =>
      obtain ⟨hi, hname, -⟩ := List.idxOf?_eq_some_iff.mp hindex
      have hmem : name ∈ s.names := hname ▸ List.getElem_mem hi
      rw [if_pos (by simp [standsAlone, hmem])] at h
      exact heeds_pure h
  | none =>
      have hvar : name ∉ s.names := List.idxOf?_eq_none_iff.mp hindex
      cases hconst : Constant.value? name with
      | some value =>
          rw [if_pos (by simp [standsAlone, hconst])] at h
          exact heeds_pure h
      | none =>
          rw [Grammar.standsAlone_eq_false hvar hconst] at h
          simp only
          split
          · exact heeds_call hoperand htakes name column h
          · exact heeds_fail fun h => by cases h

/-! ### One reader after the other -/

/-- An operand without operators of its own is read. -/
def HeedsAtom (s : Grammar.Scope) (all : List Token) (d : Nat) : Prop :=
  ∀ σ ts, unaryOp? ts = none → Reaches s.names all (.operand σ) ts →
    Heeds s.names all s.functions (atom s.names d ts) fun out =>
      Reaches s.names all (.operator σ) out.2

/-- An operand with its prefix operators is read. -/
def HeedsUnary (s : Grammar.Scope) (all : List Token) (d : Nat) : Prop :=
  ∀ σ ts, Reaches s.names all (.operand σ) ts →
    Heeds s.names all s.functions (unary s.names d ts) fun out =>
      Reaches s.names all (.operator σ) out.2

/-- Operators are read as long as they are strong enough. -/
def HeedsFolds (s : Grammar.Scope) (all : List Token) (d : Nat) : Prop :=
  ∀ σ min left ts, Reaches s.names all (.operator σ) ts →
    Heeds s.names all s.functions (folds s.names d min left ts) fun out =>
      Reaches s.names all (.operator σ) out.2 ∧ Stops min out.2

/-- An expression of operators is read. -/
def HeedsBinary (s : Grammar.Scope) (all : List Token) (d : Nat) : Prop :=
  ∀ σ min ts, Reaches s.names all (.operand σ) ts →
    Heeds s.names all s.functions (binary s.names d min ts) fun out =>
      Reaches s.names all (.operator σ) out.2 ∧ Stops min out.2

theorem heeds_atom (hternary : HeedsOperand s.names all s.functions (ternary s.names d)) :
    HeedsAtom s all d := by
  intro σ ts hunary h
  fun_cases atom s.names d ts with
  | case1 value lexeme start column us =>
      refine (heeds_moveTo (h.next rfl (by simp))).bind fun us _ hus => ?_
      exact heeds_pure hus
  | case2 name lexeme start column us =>
      refine (heeds_moveTo (h.next rfl ?_)).bind fun us _ hus => ?_
      · split <;> simp
      · exact heeds_resolve hternary (takes_ternary s d) column hus
  | case3 ts hnumber hident hopen =>
      refine heeds_stuck h fun t us hts => ?_
      subst hts
      obtain ⟨kind, _, _, _⟩ := t
      refine step_operand_eq_none ?_ ?_ hopen hunary
      · rintro value rfl
        exact hnumber _ _ _ _ _ rfl
      · rintro name rfl
        exact hident _ _ _ _ _ rfl
  | case4 ts hnumber hident us hopen =>
      obtain ⟨t, rfl, ht⟩ := after?_eq_some.mp hopen
      refine (heeds_moveTo (h.next (by rw [ht]; rfl) (by simp))).bind fun us _ hus => ?_
      refine (hternary (.group σ) us rfl hus).bind ?_
      rintro ⟨inner, vs⟩ - ⟨hvs, hends⟩
      refine (heeds_expect hvs rfl (by simp) ?_).bind fun ws _ hws => heeds_pure hws
      rintro t ws rfl hclose
      refine step_of_ends hends (fun sym ht hquestion => ?_) (by simp)
      cases sym <;> first | rfl | exact absurd rfl hquestion | exact absurd ht hclose

theorem heeds_unary (hatom : HeedsAtom s all d)
    (hunary : ∀ less, d = less + 1 → HeedsUnary s all less) : HeedsUnary s all d := by
  intro σ ts h
  rw [unary]
  cases hop : unaryOp? ts with
  | none => exact hatom σ ts hop h
  | some found =>
      obtain ⟨op, us⟩ := found
      obtain ⟨t, sym, rfl, ht, hsym⟩ := unaryOp?_eq_some.mp hop
      rw [← Grammar.prefixOp?_eq] at hsym
      have hnext := h.next (by rw [ht, Grammar.step_prefix hsym]) (by simp)
      refine (heeds_moveTo hnext).bind fun us _ hus => ?_
      cases d with
      | zero => exact heeds_fail fun _ => rfl
      | succ less =>
          refine (hunary less rfl σ us hus).bind ?_
          rintro ⟨operand, vs⟩ - hvs
          exact heeds_pure hvs

theorem heeds_folds (hbinary : ∀ less, d = less + 1 → HeedsBinary s all less)
    (hfolds : ∀ less, d = less + 1 → HeedsFolds s all less) : HeedsFolds s all d := by
  intro σ min left ts h
  rw [folds]
  cases hop : binaryOp? ts with
  | none => exact heeds_pure ⟨h, stops_of_none hop⟩
  | some found =>
      obtain ⟨op, us⟩ := found
      simp only
      split
      · rename_i hweak
        refine heeds_pure ⟨h, fun op' us' hop' => ?_⟩
        rw [hop] at hop'
        cases hop'
        exact hweak
      · obtain ⟨t, sym, rfl, ht, hsym⟩ := binaryOp?_eq_some.mp hop
        have hnext := h.next (by rw [ht, Grammar.step_binary hsym]) (by simp)
        refine (heeds_moveTo hnext).bind fun us _ hus => ?_
        cases d with
        | zero => exact heeds_fail fun _ => rfl
        | succ less =>
            refine (hbinary less rfl σ op.rightMin us hus).bind ?_
            rintro ⟨right, vs⟩ - ⟨hvs, -⟩
            exact hfolds less rfl σ min _ vs hvs

theorem heeds_binary (hunary : HeedsUnary s all d) (hfolds : HeedsFolds s all d) :
    HeedsBinary s all d := by
  intro σ min ts h
  rw [binary]
  refine (hunary σ ts h).bind ?_
  rintro ⟨left, us⟩ - hus
  exact hfolds σ min left us hus

theorem heeds_ternary (hbinary : HeedsBinary s all d)
    (hternary : HeedsOperand s.names all s.functions (ternary s.names d)) :
    HeedsOperand s.names all s.functions (ternary s.names (d + 1)) := by
  intro σ ts hlayer h
  rw [ternary]
  refine (hbinary σ .disjunction ts h).bind ?_
  rintro ⟨cond, us⟩ - ⟨hus, hstops⟩
  cases hquestion : after? .question us with
  | none =>
      simp only [hquestion]
      exact heeds_pure ⟨hus, none_of_stops hstops, hquestion⟩
  | some vs =>
      simp only [hquestion]
      obtain ⟨t, rfl, ht⟩ := after?_eq_some.mp hquestion
      have hstep : step s.names (.operator σ) t.kind = some (.operand (.choice σ)) := by
        rw [ht, Grammar.step_question (hlayer ▸ Nat.le_refl _)]
      refine (heeds_moveTo (hus.next hstep (by simp))).bind fun vs _ hvs => ?_
      refine (hbinary (.choice σ) .disjunction vs hvs).bind ?_
      rintro ⟨yes, ws⟩ - ⟨hws, hstops⟩
      refine (heeds_expect hws rfl (by simp) ?_).bind fun xs _ hxs => ?_
      · rintro t ws rfl hcolon
        refine step_operator_eq_none (none_of_stops hstops) (fun sym ht => ?_) (by simp)
        cases sym <;> first | rfl | exact absurd ht hcolon
      · refine (hternary σ xs hlayer hxs).bind ?_
        rintro ⟨no, ys⟩ - hys
        exact heeds_pure hys

/-- Every reader goes along with the machine. -/
theorem heedsOperand_ternary (s : Grammar.Scope) (all : List Token) (d : Nat) :
    HeedsOperand s.names all s.functions (ternary s.names d) := by
  refine (levels_induction
    (T := fun d => HeedsOperand s.names all s.functions (ternary s.names d))
    (A := HeedsAtom s all) (U := HeedsUnary s all) (F := HeedsFolds s all)
    (B := HeedsBinary s all) ?_ ?_ ?_ ?_ ?_ ?_ ?_ ?_ d).1
  · intro σ ts _ _
    rw [ternary]
    exact heeds_fail fun _ => rfl
  · exact fun d => heeds_atom
  · exact fun hatom => heeds_unary hatom (by simp)
  · exact heeds_folds (by simp) (by simp)
  · exact fun d => heeds_binary
  · exact fun d => heeds_ternary
  · exact fun d hunary hatom => heeds_unary hatom fun less h => by cases h; exact hunary
  · exact fun d hbinary hfolds => heeds_folds (fun less h => by cases h; exact hbinary)
      fun less h => by cases h; exact hfolds

/-! ### Whole formulas -/

/-- The end has to come, if the machine has a step for nothing else. -/
theorem heeds_finish {e : Expr} (h : Reaches names all q ts)
    (hno : ∀ t us, ts = t :: us → t.kind ≠ .finish → step names q t.kind = none) :
    Heeds names all r (if atFinish ts = true then pure e else failAt ts .unexpectedToken)
      fun _ => True := by
  split
  · exact heeds_pure trivial
  · rename_i hfinish
    refine heeds_stuck h fun t us hts => hno t us hts fun ht => ?_
    exact hfinish (atFinish_eq_true.mpr ⟨t, us, hts, ht⟩)

/-- A whole formula is refused where the machine is stuck. -/
theorem heeds_topLevel (h : Reaches s.names all .start ts) :
    Heeds s.names all s.functions (topLevel s.names ts) fun _ => True := by
  unfold topLevel
  refine (heeds_moveTo h).bind fun ts _ h => ?_
  refine (heedsOperand_ternary s all maxDepth .formula ts rfl h).bind ?_
  rintro ⟨inner, us⟩ - ⟨hus, hends⟩
  cases hcomma : after? .comma us with
  | none =>
      simp only [hcomma, pure_bind]
      refine heeds_finish hus ?_
      rintro t vs rfl hfinish
      have hcomma := ne_of_after?_eq_none hcomma
      refine step_of_ends hends (fun sym ht hquestion => ?_) fun ht => absurd ht hfinish
      cases sym <;> first | rfl | exact absurd rfl hquestion | exact absurd ht hcomma
  | some vs =>
      simp only [hcomma]
      obtain ⟨t, rfl, ht⟩ := after?_eq_some.mp hcomma
      refine (heeds_moveTo (hus.next (by rw [ht]; rfl) (by simp))).bind fun ws _ hws => ?_
      split
      · rename_i rest hwhere
        obtain ⟨t', rfl, ht'⟩ := ident?_eq_some.mp hwhere
        refine (heeds_moveTo (hws.next (by rw [ht']; rfl) (by simp))).bind fun xs _ hxs => ?_
        refine (heedsOperand_ternary s all maxDepth .condition xs rfl hxs).bind ?_
        rintro ⟨cond, ys⟩ - ⟨hys, hends⟩
        simp only [pure_bind]
        refine heeds_finish hys ?_
        rintro t vs rfl hfinish
        refine step_of_ends hends (fun sym ht hquestion => ?_) fun ht => absurd ht hfinish
        cases sym <;> first | rfl | exact absurd rfl hquestion
      · rename_i hno
        have hstuck : Heeds s.names all s.functions
            (failAt ws .whereExpected : Inquiry (Expr × List Token)) fun _ => False := by
          refine heeds_stuck hws fun t us hts => step_keyword_eq_none fun ht => ?_
          exact hno us (ident?_eq_some.mpr ⟨t, hts, ht⟩)
        exact hstuck.bind fun _ _ hfalse => hfalse.elim

/-- What is accepted has the shape of a formula. -/
theorem sentence_of_read {text : String} {functions : Registry} {e : Expr}
    (h : read text functions names = .ok e) : Sentence names (phrase text) :=
  (derives_of_read h).phrase

/-- At the first token of a text the machine starts. -/
theorem reaches_start (names : List String) (text : String) :
    Reaches names (Token.tokenize text) .start (Token.tokenize text) := by
  obtain ⟨t, hmem, hlast⟩ := Token.exists_isLast 0 1 text.toList
  refine ⟨⟨[], rfl, rfl⟩, by simp, t, hmem, fun hproper => ?_⟩
  unfold Token.isLast at hlast
  revert hlast hproper
  cases t.kind <;> simp [Proper]

/-- The tokens before another one are those at smaller columns. -/
theorem before_eq_filter {text : String} {before after : List Token}
    (h : Token.tokenize text = before ++ t :: after) :
    before = (Token.tokenize text).filter fun u => u.column < t.column := by
  have hcolumns := (Token.lexes_tokenizeFrom [] text.toList).columns
  change (Token.tokenize text).Pairwise _ at hcolumns
  rw [h] at hcolumns ⊢
  obtain ⟨-, hbehind, hbefore⟩ := List.pairwise_append.mp hcolumns
  have hafter : ∀ u ∈ t :: after, ¬ u.column < t.column := by
    intro u hu
    rcases List.mem_cons.mp hu with rfl | hu
    · omega
    · have := (List.pairwise_cons.mp hbehind).1 u hu
      omega
  rw [List.filter_append, List.filter_eq_self.mpr, List.filter_eq_nil_iff.mpr, List.append_nil]
  · simpa using hafter
  · exact fun u hu => by simpa using hbefore u hu t List.mem_cons_self

/-- The column says which token of a text is meant. -/
theorem eq_of_column {text : String} {before before' after after' : List Token} {t t' : Token}
    (h : Token.tokenize text = before ++ t :: after)
    (h' : Token.tokenize text = before' ++ t' :: after') (hcolumn : t.column = t'.column) :
    before = before' ∧ t = t' := by
  have hbefore : before = before' := by
    rw [before_eq_filter h, before_eq_filter h', hcolumn]
  subst hbefore
  obtain ⟨rfl, -⟩ := List.cons.inj (List.append_cancel_left (h.symm.trans h'))
  exact ⟨rfl, rfl⟩

/-- **A formula is refused at the first token that no formula goes on with.**  What stands
before the token that the error points to is the beginning of a formula, with whatever functions
it may call.  With the token, it is the beginning of none, not even of one that ends there. -/
theorem refused_at_first_offence (text : String) (functions : Registry) (names : List String)
    (error : ParseError) (hread : read text functions names = .error error)
    (hkind : error.cause.kind = .grammar)
    (hdeep : error.message ≠ "Expression too deeply nested.") :
    (∃ t ∈ Token.tokenize text, t.column = error.column) ∧
      ∀ before t after, Token.tokenize text = before ++ t :: after → t.column = error.column →
        (∃ ks, Sentence names (kinds before ++ ks)) ∧
          ∀ ks, Sentence names ks → ¬ kinds (before ++ [t]) <+: ks ++ [.finish] := by
  unfold read at hread
  cases hfault : (topLevel names (Token.tokenize text)).against functions with
  | ok e =>
      rw [hfault] at hread
      cases hread
  | error fault =>
      rw [hfault] at hread
      cases hread
      have hcause : fault.cause ≠ .tooDeep := fun hcause => hdeep (by
        simp only [ParseError.message, ParseError.ofFault, hcause]
        rfl)
      obtain ⟨used, t, rest, q, hall, hcolumn, hrun, hq, hstep⟩ :=
        (heeds_topLevel (s := ⟨names, functions⟩) (reaches_start names text)).error fault hfault
          hkind hcause
      refine ⟨⟨t, by rw [hall]; simp, hcolumn⟩, ?_⟩
      intro before t' after hall' hcolumn'
      obtain ⟨rfl, rfl⟩ := eq_of_column hall hall' (hcolumn.trans hcolumn'.symm)
      refine ⟨Grammar.exists_sentence hrun hq, fun ks hks => ?_⟩
      rw [kinds, List.map_append]
      exact Grammar.no_sentence hrun hstep hks

/-- A choice in front of a colon takes parentheses. -/
theorem refused_at_first_offence_nested_choice :
    read "a ? b ? 1 : 2 : 3" .empty ["a", "b"] = .error ⟨.symbolExpected .colon, "", 1, 7⟩ ∧
      (∃ t ∈ Token.tokenize "a ? b ? 1 : 2 : 3", t.column = 7) ∧
      ∀ before t after, Token.tokenize "a ? b ? 1 : 2 : 3" = before ++ t :: after →
        t.column = 7 →
        (∃ ks, Sentence ["a", "b"] (kinds before ++ ks)) ∧
          ∀ ks, Sentence ["a", "b"] ks → ¬ kinds (before ++ [t]) <+: ks ++ [.finish] := by
  have hread : read "a ? b ? 1 : 2 : 3" .empty ["a", "b"] =
      .error ⟨.symbolExpected .colon, "", 1, 7⟩ :=
    error?_eq_some.mp (by decide +kernel)
  exact ⟨hread, refused_at_first_offence _ _ _ _ hread rfl (by decide)⟩

end FormulaPlot.Parser
