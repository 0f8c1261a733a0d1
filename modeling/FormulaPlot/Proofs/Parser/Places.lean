/-
What a fault points to.

A reader fails at one of the tokens that are left to it, or at the name that it has just
taken, because whether a call is right shows only behind its arguments.  So there always is a
token at the column of a fault, and the cause fits it: an error of the text is a token that
stands for this error, and the name that a cause is about is what the token says.

A fault about a function that is asked for says a little more.  The name is no variable, no
constant and no intrinsic function, and a parenthesis comes after it.
-/
import FormulaPlot.Proofs.Parser.Header

namespace FormulaPlot

namespace Inquiry

variable {α β : Type} {Q : α → Prop} {R : β → Prop} {P : Fault → Prop}

/-- Whatever is answered, the reading comes to a value or to a fault of these. -/
inductive Yields (Q : α → Prop) (P : Fault → Prop) : Inquiry α → Prop
  | ok {a : α} (h : Q a) : Yields Q P (.done (.ok a))
  | error {fault : Fault} (h : P fault) : Yields Q P (.done (.error fault))
  | ask (name : String) {next : Answer → Inquiry α} (h : ∀ answer, Yields Q P (next answer)) :
      Yields Q P (.ask name next)

theorem Yields.pure {a : α} (h : Q a) : Yields Q P (pure a) := .ok h

theorem Yields.fail {fault : Fault} (h : P fault) : Yields Q P (fail fault) := .error h

theorem Yields.bind {m : Inquiry α} {f : α → Inquiry β} (hm : m.Yields Q P)
    (hf : ∀ a, Q a → (f a).Yields R P) : (m >>= f).Yields R P := by
  rw [bind_def]
  induction hm with
  | ok h => exact hf _ h
  | error h => exact .error h
  | ask name _ ih => exact .ask name ih

theorem Yields.fault {m : Inquiry α} (hm : m.Yields Q P) {r : Registry} {fault : Fault}
    (h : m.against r = .error fault) : P fault := by
  induction hm with
  | ok _ => cases h
  | error hfault =>
      cases h
      exact hfault
  | @ask name next _ ih =>
      unfold Inquiry.against at h
      cases hget : r.get? name with
      | some f =>
          rw [hget] at h
          exact ih _ h
      | none =>
          rw [hget] at h
          exact ih _ h

end Inquiry

namespace Parser

open Inquiry (Yields fail)

variable {names : List String} {all ts us rest : List Token} {t : Token} {name : String}

/-- The tokens are left of all those of a text, and the one that ends it is among them. -/
structure Left (all ts : List Token) : Prop where
  used : ∃ used, all = used ++ ts
  last : ∃ t ∈ ts, t.isLast = true

/-- The name stands where the grammar takes it for the name of a user function. -/
structure Calling (names : List String) (name : String) (t : Token) (rest : List Token) :
    Prop where
  named : t.kind = .ident name
  opens : (after? .openParen rest).isSome = true
  noVariable : name ∉ names
  noConstant : Constant.value? name = none
  noIntrinsic : Intrinsic.ofName? name = none

/-- The token is one that the cause can be about. -/
def Fits (names : List String) (cause : Cause) (t : Token) (rest : List Token) : Prop :=
  match cause with
  | .lexical e => t.kind = .invalid e
  | .unknownFunction name | .calleeHasErrors name | .recursive name => Calling names name t rest
  | .undefinedName name | .arity name _ | .nameOfIntrinsic name | .nameOfConstant name
  | .alreadyDefined name | .duplicateParameter name => t.kind = .ident name
  | _ => True

/-- At the column of the fault there is a token that its cause fits. -/
def Points (names : List String) (all : List Token) (fault : Fault) : Prop :=
  ∃ used t rest, all = used ++ t :: rest ∧ t.column = fault.column ∧
    Fits names fault.cause t rest

theorem left_tokenize (text : String) : Left (Token.tokenize text) (Token.tokenize text) :=
  ⟨⟨[], rfl⟩, Token.exists_isLast 0 1 text.toList⟩

theorem Left.next (h : Left all (t :: ts)) (ht : t.isLast = false) : Left all ts := by
  obtain ⟨⟨used, rfl⟩, u, hu, hlast⟩ := h
  refine ⟨⟨used ++ [t], by simp⟩, u, ?_, hlast⟩
  rcases List.mem_cons.mp hu with rfl | hu
  · rw [ht] at hlast
    cases hlast
  · exact hu

/-- What comes behind tokens that are not the last still has the last one. -/
theorem Left.behind (h : Left all ts) (hrest : Behind rest ts) : Left all rest := by
  obtain ⟨used, rfl, hused⟩ := hrest
  induction used with
  | nil => exact h
  | cons t used ih =>
      have hnext := h.next (hused t List.mem_cons_self)
      exact ih (fun t' ht' => hused t' (List.mem_cons_of_mem _ ht')) hnext

theorem Left.self (h : Left all ts) : Left ts ts := ⟨⟨[], rfl⟩, h.last⟩

theorem Left.points (h : Left all (t :: rest)) {cause : Cause} (hfits : Fits names cause t rest) :
    Points names all ⟨cause, t.column⟩ := by
  obtain ⟨used, hall⟩ := h.used
  exact ⟨used, t, rest, hall, rfl, hfits⟩

/-- A fault in the rest of the tokens is one among all of them. -/
theorem Points.behind {fault : Fault} (h : Points names ts fault) (hts : Behind ts all) :
    Points names all fault := by
  obtain ⟨used, t, rest, rfl, hcolumn, hfits⟩ := h
  obtain ⟨front, rfl, -⟩ := hts
  exact ⟨front ++ used, t, rest, by simp, hcolumn, hfits⟩

/-! ### The steps of a reader -/

/-- A reader leaves the end of what it is given, and fails at a token of it. -/
def Pointing (names : List String) (all : List Token) {α : Type} (reader : Reader α) : Prop :=
  ∀ ts, Left all ts → (reader ts).Yields (fun out => Left all out.2) (Points names all)

theorem points_failAt {α : Type} {Q : α → Prop} {cause : Cause} (h : Left all ts)
    (hcause : ∀ t rest, Fits names cause t rest) :
    (failAt ts cause).Yields Q (Points names all) := by
  obtain ⟨t, hmem, -⟩ := h.last
  obtain ⟨t, us, rfl⟩ := List.exists_cons_of_ne_nil (List.ne_nil_of_mem hmem)
  exact .fail (h.points (hcause t us))

theorem kind_of_error? {e : LexicalError} (h : t.error? = some e) : t.kind = .invalid e := by
  unfold Token.error? at h
  split at h
  · rename_i e' hkind
    rw [hkind, Option.some.inj h]
  · cases h

theorem points_moveTo (h : Left all ts) :
    (moveTo ts).Yields (· = ts) (Points names all) := by
  unfold moveTo
  split
  · rename_i e he
    obtain ⟨t, hhead, ht⟩ := Option.bind_eq_some_iff.mp he
    obtain ⟨us, rfl⟩ := List.head?_eq_some_iff.mp hhead
    exact .fail (h.points (kind_of_error? ht))
  · exact .pure rfl

theorem points_expect (sym : Symbol) (h : Left all ts) :
    (expect sym ts).Yields (Left all) (Points names all) := by
  unfold expect
  cases hafter : after? sym ts with
  | none => exact points_failAt h fun _ _ => trivial
  | some us =>
      obtain ⟨t, rfl, ht⟩ := after?_eq_some.mp hafter
      have hus := h.next (isLast_of_symbol ht)
      have hmoved : (moveTo us >>= pure).Yields (Left all) (Points names all) :=
        (points_moveTo hus).bind fun vs hvs => .pure (hvs ▸ hus)
      rwa [bind_pure] at hmoved

/-! ### Calls -/

theorem points_callee (h : Left all (t :: ts)) (ht : t.kind = .ident name)
    (hopen : (after? .openParen ts).isSome = true) (hvar : name ∉ names)
    (hconst : Constant.value? name = none) :
    (callee name t.column).Yields (fun _ => True) (Points names all) := by
  unfold callee
  cases hin : Intrinsic.ofName? name with
  | some f => exact .pure trivial
  | none =>
      have hcalling : Calling names name t ts := ⟨ht, hopen, hvar, hconst, hin⟩
      refine .ask name fun answer => ?_
      cases answer with
      | found f => exact .pure trivial
      | _ => exact .fail (h.points hcalling)

variable {operand : Reader Expr}

theorem points_operands (hoperand : Pointing names all operand) (fuel : Nat) :
    Pointing names all (operands operand fuel) := by
  induction fuel with
  | zero =>
      intro ts h
      rw [operands]
      refine (hoperand ts h).bind ?_
      rintro ⟨first, us⟩ hus
      dsimp only
      split
      · exact .pure hus
      · exact points_failAt hus fun _ _ => trivial
  | succ fuel ih =>
      intro ts h
      rw [operands]
      refine (hoperand ts h).bind ?_
      rintro ⟨first, us⟩ hus
      dsimp only
      split
      · exact .pure hus
      · rename_i vs hcomma
        obtain ⟨t, rfl, ht⟩ := after?_eq_some.mp hcomma
        have hvs := hus.next (isLast_of_symbol ht)
        refine (points_moveTo hvs).bind ?_
        rintro _ rfl
        refine (ih _ hvs).bind ?_
        rintro ⟨others, ws⟩ hws
        exact .pure hws

theorem points_call (hoperand : Pointing names all operand) (h : Left all (t :: ts))
    (ht : t.kind = .ident name) (hopen : (after? .openParen ts).isSome = true)
    (hvar : name ∉ names) (hconst : Constant.value? name = none) :
    (call operand name t.column ts).Yields (fun out => Left all out.2) (Points names all) := by
  unfold call
  refine (points_callee h ht hopen hvar hconst).bind fun f _ => ?_
  refine (points_expect .openParen (h.next (isLast_of_kind ht))).bind fun us hus => ?_
  refine (points_operands hoperand _ us hus).bind ?_
  rintro ⟨args, vs⟩ hvs
  refine (points_expect .closeParen hvs).bind fun ws hws => ?_
  split
  · exact .pure hws
  · exact .fail (h.points ht)

theorem points_resolve (hoperand : Pointing names all operand) (h : Left all (t :: ts))
    (ht : t.kind = .ident name) :
    (resolve operand names name t.column ts).Yields (fun out => Left all out.2)
      (Points names all) := by
  have hnext := h.next (isLast_of_kind ht)
  unfold resolve
  cases hindex : names.idxOf? name with
  | some index => exact .pure hnext
  | none =>
      cases hconst : Constant.value? name with
      | some value => exact .pure hnext
      | none =>
          dsimp only
          split
          · rename_i hopen
            exact points_call hoperand h ht hopen (List.idxOf?_eq_none_iff.mp hindex) hconst
          · exact .fail (h.points ht)

/-! ### Expressions -/

variable {d : Nat}

theorem points_atom (hternary : Pointing names all (ternary names d)) :
    Pointing names all (atom names d) := by
  intro ts h
  fun_cases atom names d ts with
  | case1 value lexeme start column us =>
      have hus := h.next rfl
      refine (points_moveTo hus).bind ?_
      rintro _ rfl
      exact .pure hus
  | case2 name lexeme start column us =>
      refine (points_moveTo (h.next rfl)).bind ?_
      rintro _ rfl
      exact points_resolve hternary h rfl
  | case3 => exact points_failAt h fun _ _ => trivial
  | case4 ts _ _ us hopen =>
      obtain ⟨t, rfl, ht⟩ := after?_eq_some.mp hopen
      have hus := h.next (isLast_of_symbol ht)
      refine (points_moveTo hus).bind ?_
      rintro _ rfl
      refine (hternary _ hus).bind ?_
      rintro ⟨inner, vs⟩ hvs
      exact (points_expect .closeParen hvs).bind fun ws hws => .pure hws

theorem points_unary (hatom : Pointing names all (atom names d))
    (hunary : ∀ less, d = less + 1 → Pointing names all (unary names less)) :
    Pointing names all (unary names d) := by
  intro ts h
  rw [unary]
  split
  · exact hatom ts h
  · rename_i op us hop
    obtain ⟨t, sym, rfl, ht, -⟩ := unaryOp?_eq_some.mp hop
    have hus := h.next (isLast_of_symbol ht)
    refine (points_moveTo hus).bind ?_
    rintro _ rfl
    cases d with
    | zero => exact points_failAt hus fun _ _ => trivial
    | succ less =>
        refine (hunary less rfl _ hus).bind ?_
        rintro ⟨inner, vs⟩ hvs
        exact .pure hvs

/-- The loop over operators, from any tree. -/
def PointingLoop (names : List String) (all : List Token) (d : Nat) : Prop :=
  ∀ min left, Pointing names all (folds names d min left)

theorem points_folds
    (hless : ∀ less, d = less + 1 →
      (∀ min, Pointing names all (binary names less min)) ∧ PointingLoop names all less) :
    PointingLoop names all d := by
  intro min left ts h
  rw [folds]
  split
  · exact .pure h
  · rename_i op us hop
    split
    · exact .pure h
    · obtain ⟨t, sym, rfl, ht, -⟩ := binaryOp?_eq_some.mp hop
      have hus := h.next (isLast_of_symbol ht)
      refine (points_moveTo hus).bind ?_
      rintro _ rfl
      cases d with
      | zero => exact points_failAt hus fun _ _ => trivial
      | succ less =>
          obtain ⟨hbinary, hfolds⟩ := hless less rfl
          refine (hbinary _ _ hus).bind ?_
          rintro ⟨right, vs⟩ hvs
          exact hfolds min _ vs hvs

theorem points_binary (hunary : Pointing names all (unary names d))
    (hfolds : PointingLoop names all d) (min : Precedence) :
    Pointing names all (binary names d min) := by
  intro ts h
  rw [binary]
  refine (hunary ts h).bind ?_
  rintro ⟨left, us⟩ hus
  exact hfolds min left us hus

theorem points_ternary_succ (hbinary : ∀ min, Pointing names all (binary names d min))
    (hternary : Pointing names all (ternary names d)) :
    Pointing names all (ternary names (d + 1)) := by
  intro ts h
  rw [ternary]
  refine (hbinary _ ts h).bind ?_
  rintro ⟨cond, us⟩ hus
  dsimp only
  split
  · exact .pure hus
  · rename_i vs hquestion
    obtain ⟨t, rfl, ht⟩ := after?_eq_some.mp hquestion
    have hvs := hus.next (isLast_of_symbol ht)
    refine (points_moveTo hvs).bind ?_
    rintro _ rfl
    refine (hbinary _ _ hvs).bind ?_
    rintro ⟨yes, ws⟩ hws
    refine (points_expect .colon hws).bind fun xs hxs => ?_
    refine (hternary xs hxs).bind ?_
    rintro ⟨no, ys⟩ hys
    exact .pure hys

theorem points_ternary (names : List String) (all : List Token) (d : Nat) :
    Pointing names all (ternary names d) := by
  refine (levels_induction (T := fun d => Pointing names all (ternary names d))
    (A := fun d => Pointing names all (atom names d))
    (U := fun d => Pointing names all (unary names d)) (F := PointingLoop names all)
    (B := fun d => ∀ min, Pointing names all (binary names d min)) ?_ ?_ ?_ ?_ ?_ ?_ ?_ ?_ d).1
  · intro ts h
    rw [ternary]
    exact points_failAt h fun _ _ => trivial
  · exact fun d => points_atom
  · exact fun hatom => points_unary hatom (by simp)
  · exact points_folds (by simp)
  · exact fun d => points_binary
  · exact fun d => points_ternary_succ
  · exact fun d hunary hatom => points_unary hatom fun less h => by cases h; exact hunary
  · exact fun d hbinary hfolds => points_folds fun less h => by cases h; exact ⟨hbinary, hfolds⟩

/-- A formula is refused at a token that the cause fits. -/
theorem points_topLevel (names : List String) (h : Left all ts) :
    (topLevel names ts).Yields (fun _ => True) (Points names all) := by
  have hfinish : ∀ e : Expr, ∀ us : List Token, Left all us →
      (if atFinish us then pure e else failAt us .unexpectedToken : Inquiry Expr).Yields
        (fun _ => True) (Points names all) := by
    intro e us hus
    split
    · exact .pure trivial
    · exact points_failAt hus fun _ _ => trivial
  unfold topLevel
  refine (points_moveTo h).bind ?_
  rintro _ rfl
  refine (points_ternary names all maxDepth _ h).bind ?_
  rintro ⟨inner, us⟩ hus
  dsimp only
  split
  · exact hfinish inner us hus
  · rename_i vs hcomma
    obtain ⟨t, rfl, ht⟩ := after?_eq_some.mp hcomma
    have hvs := hus.next (isLast_of_symbol ht)
    refine (points_moveTo hvs).bind ?_
    rintro _ rfl
    split
    · rename_i ws hwhere
      obtain ⟨t', rfl, ht'⟩ := ident?_eq_some.mp hwhere
      have hws := hvs.next (isLast_of_kind ht')
      refine (points_moveTo hws).bind ?_
      rintro _ rfl
      refine (points_ternary names all maxDepth _ hws).bind ?_
      rintro ⟨cond, xs⟩ hxs
      exact hfinish _ xs hxs
    · have hmissing : (failAt _ .whereExpected : Inquiry (Expr × List Token)).Yields
          (fun out => Left all out.2) (Points names all) := points_failAt hvs fun _ _ => trivial
      refine hmissing.bind ?_
      rintro ⟨e, xs⟩ hxs
      exact hfinish e xs hxs

/-! ### Headers -/

theorem points_parameters_of_length (n : Nat) (seen : List String) (hn : ts.length ≤ n)
    (h : Left all ts) :
    (parameters seen ts).Yields (fun out => Left all out.2) (Points names all) := by
  induction n generalizing seen ts with
  | zero =>
      obtain ⟨t, hmem, -⟩ := h.last
      have := List.length_pos_of_mem hmem
      omega
  | succ n ih =>
      fun_cases parameters seen ts with
      | case1 name lexeme start column us hseen => exact .fail (h.points rfl)
      | case2 name lexeme start column us hseen =>
          have hus := h.next rfl
          refine (points_moveTo hus).bind ?_
          rintro _ rfl
          split
          · rename_i vs
            have hvs := hus.next rfl
            have hless : vs.length ≤ n := by
              simp only [List.length_cons] at hn
              omega
            refine (points_moveTo hvs).bind ?_
            rintro _ rfl
            refine (ih _ hless hvs).bind ?_
            rintro ⟨others, ws⟩ hws
            exact .pure hws
          · exact .pure hus
      | case3 => exact points_failAt h fun _ _ => trivial

theorem points_signature (taken : String → Bool) (h : Left all (t :: ts))
    (ht : t.kind = .ident name) :
    (signature taken name t.column ts).Yields (fun out => Left all out.2)
      (Points names all) := by
  have hname : (checkName taken name t.column).Yields (fun _ => True) (Points names all) := by
    unfold checkName
    split
    · exact .fail (h.points ht)
    · split
      · exact .fail (h.points ht)
      · split
        · exact .fail (h.points ht)
        · exact .pure trivial
  have hts := h.next (isLast_of_kind ht)
  unfold signature
  refine hname.bind fun _ _ => (points_moveTo hts).bind ?_
  rintro _ rfl
  refine (points_expect .openParen hts).bind fun us hus => ?_
  refine (points_parameters_of_length us.length [] (Nat.le_refl _) hus).bind ?_
  rintro ⟨params, vs⟩ hvs
  refine (points_expect .closeParen hvs).bind fun ws hws => ?_
  exact (points_expect .assign hws).bind fun xs hxs => .pure hxs

/-- A header is refused at a token that the cause fits. -/
theorem points_header {taken : String → Bool} {line : Nat} {e : ParseError} (hts : Left ts ts)
    (h : header taken line ts = .error e) : Points names ts ⟨e.cause, e.column⟩ := by
  unfold header at h
  split at h
  · rename_i name lexeme start column us
    have hyields : (signature taken name column us).Yields _ (Points names _) :=
      points_signature taken hts rfl
    cases hread : (signature taken name column us).against .empty with
    | ok read =>
        rw [hread] at h
        cases h
    | error fault =>
        rw [hread] at h
        cases h
        exact hyields.fault hread
  · obtain ⟨t, hmem, -⟩ := hts.last
    obtain ⟨t, us, rfl⟩ := List.exists_cons_of_ne_nil (List.ne_nil_of_mem hmem)
    simp only [List.head?_cons, Option.bind_some] at h
    cases herror : t.error? with
    | some error =>
        rw [herror] at h
        cases h
        exact hts.points (kind_of_error? herror)
    | none =>
        rw [herror] at h
        cases h
        exact hts.points trivial

end Parser

end FormulaPlot
