/-
Headers of definitions.

Two things are needed of a header that was read.  Its name is new: no function and no
definition before it has that name.  And the tokens after it are those of a text of its
own, the body, which is the rest of the line from the first of these tokens on.
-/
import FormulaPlot.Parser.Definition
import FormulaPlot.Parser.Formula
import FormulaPlot.Proofs.Parser.Formula
import FormulaPlot.Proofs.Token.Lexing

namespace FormulaPlot

namespace Token

theorem dropWhile_eq_drop (cs : List Char) :
    cs.dropWhile isSpace = cs.drop (cs.takeWhile isSpace).length := by
  have h : (cs.takeWhile isSpace ++ cs.dropWhile isSpace).drop (cs.takeWhile isSpace).length =
      cs.dropWhile isSpace := List.drop_left
  rw [List.takeWhile_append_dropWhile] at h
  exact h.symm

theorem kindsOf_dropWhile (cs : List Char) : kindsOf (cs.dropWhile isSpace) = kindsOf cs := by
  induction cs with
  | nil => rfl
  | cons c cs ih =>
      by_cases hc : isSpace c = true
      · rw [List.dropWhile_cons_of_pos hc, ih, kindsOf_space hc]
      · rw [List.dropWhile_cons_of_neg hc]

/-- The first token stands after the space. -/
theorem column_tokenizeFrom (start column : Nat) (cs : List Char) :
    Parser.column (tokenizeFrom start column cs) = column + (cs.takeWhile isSpace).length := by
  rw [tokenizeFrom]
  split <;> rfl

/-- After tokens that are not the last come the tokens of the rest of the text. -/
theorem tokenizeFrom_suffix {used rest : List Token} {start column : Nat} {cs : List Char}
    (h : tokenizeFrom start column cs = used ++ rest) (hused : ∀ t ∈ used, t.isLast = false) :
    ∃ start' n, rest = tokenizeFrom start' (column + n) (cs.drop n) := by
  induction used generalizing start column cs with
  | nil => exact ⟨start, 0, h.symm⟩
  | cons t used ih =>
      rw [tokenizeFrom] at h
      by_cases hlast : (next start column cs).1.isLast = true ∨ cs = []
      · -- The list would end with a token that is the last.
        rw [dif_pos hlast] at h
        obtain ⟨rfl, -⟩ := List.cons.inj h
        have hopen := hused _ List.mem_cons_self
        rcases hlast with hlast | rfl
        · rw [hlast] at hopen
          cases hopen
        · rw [isLast_next_nil] at hopen
          cases hopen
      · rw [dif_neg hlast] at h
        obtain ⟨rfl, hrest⟩ := List.cons.inj h
        obtain ⟨start', n, rfl⟩ := ih hrest fun t ht => hused t (List.mem_cons_of_mem _ ht)
        let space := (cs.takeWhile isSpace).length
        let size := (next start column cs).1.lexeme.length
        have hsize : size = (scan (cs.dropWhile isSpace)).2.length := String.length_ofList
        have hnext : (next start column cs).2 = cs.drop (space + size) := by
          rw [rest_next, ← hsize, dropWhile_eq_drop, List.drop_drop]
        have hcolumn : (next start column cs).1.column = column + space := rfl
        refine ⟨start', space + size + n, ?_⟩
        rw [hnext, List.drop_drop, hcolumn]
        congr 1
        omega

end Token

namespace Parser

/-! ### The tokens of a header -/

theorem isLast_of_kind {t : Token} {name : String} (h : t.kind = .ident name) :
    t.isLast = false := by
  rw [Token.isLast_eq, h]
  rfl

theorem isLast_of_symbol {t : Token} {sym : Symbol} (h : t.kind = .symbol sym) :
    t.isLast = false := by
  rw [Token.isLast_eq, h]
  rfl

/-- The tokens come after others that are not the last. -/
def Behind (rest ts : List Token) : Prop :=
  ∃ used, ts = used ++ rest ∧ ∀ t ∈ used, t.isLast = false

variable {ts us rest : List Token} {t : Token} {r : Registry}

theorem behind_refl (ts : List Token) : Behind ts ts := ⟨[], rfl, by simp⟩

theorem Behind.cons (ht : t.isLast = false) (h : Behind rest ts) : Behind rest (t :: ts) := by
  obtain ⟨used, rfl, hused⟩ := h
  refine ⟨t :: used, rfl, ?_⟩
  intro t' ht'
  rcases List.mem_cons.mp ht' with rfl | ht'
  · exact ht
  · exact hused t' ht'

theorem Behind.trans (h : Behind rest us) (h' : Behind us ts) : Behind rest ts := by
  obtain ⟨used, rfl, hused⟩ := h'
  induction used with
  | nil => exact h
  | cons t used ih =>
      refine .cons (hused t (by simp)) (ih fun t' ht' => hused t' ?_)
      exact List.mem_cons_of_mem _ ht'

theorem behind_expect {sym : Symbol} (h : (expect sym ts).against r = .ok rest) :
    Behind rest ts := by
  obtain ⟨t, rfl, ht, -⟩ := against_expect_eq_ok.mp h
  exact .cons (isLast_of_symbol ht) (behind_refl rest)

/-- A list of parameters is a name, and perhaps a comma and more of them.  No name comes
twice. -/
theorem against_parameters_eq_ok {seen params : List String} :
    (parameters seen ts).against r = .ok (params, rest) ↔
      ∃ t name us, ts = t :: us ∧ t.kind = .ident name ∧ name ∉ seen ∧ Clear us ∧
        (after? .comma us = none ∧ params = [name] ∧ rest = us ∨
          ∃ vs others, after? .comma us = some vs ∧ Clear vs ∧
            (parameters (name :: seen) vs).against r = .ok (others, rest) ∧
            params = name :: others) := by
  fun_cases parameters seen ts with
  | case1 name _ _ _ us hseen =>
      simp only [Inquiry.against_fail, reduceCtorEq, false_iff]
      rintro ⟨t, name', us', heq, ht, hnew, -⟩
      obtain ⟨rfl, rfl⟩ := List.cons.inj heq
      cases ht
      exact hnew hseen
  | case2 name _ _ _ us hseen =>
      simp only [Inquiry.against_bind_eq_ok, against_moveTo_eq_ok, List.cons.injEq]
      constructor
      · rintro ⟨us, ⟨hclear, rfl⟩, h⟩
        refine ⟨_, name, us, ⟨rfl, rfl⟩, rfl, hseen, hclear, ?_⟩
        split at h
        · simp only [Inquiry.against_bind_eq_ok, against_moveTo_eq_ok, Prod.exists,
            Inquiry.against_pure_eq_ok, Prod.mk.injEq] at h
          obtain ⟨vs, ⟨hvs, rfl⟩, others, _, hothers, rfl, rfl⟩ := h
          exact .inr ⟨vs, others, rfl, hvs, hothers, rfl⟩
        · rename_i hno
          rw [Inquiry.against_pure_eq_ok] at h
          obtain ⟨rfl, rfl⟩ := Prod.mk.inj h
          refine .inl ⟨?_, rfl, rfl⟩
          rw [Option.eq_none_iff_forall_ne_some]
          intro vs hvs
          obtain ⟨⟨_, _, _, _⟩, rfl, rfl⟩ := after?_eq_some.mp hvs
          exact hno _ _ _ _ rfl
      · rintro ⟨_, name', us', ⟨rfl, rfl⟩, hname, -, hclear, h⟩
        cases hname
        refine ⟨_, ⟨hclear, rfl⟩, ?_⟩
        rcases h with ⟨hno, rfl, rfl⟩ | ⟨vs, others, hcomma, hvs, hothers, rfl⟩
        · split
          · cases hno
          · rw [Inquiry.against_pure]
        · obtain ⟨⟨_, _, _, _⟩, rfl, rfl⟩ := after?_eq_some.mp hcomma
          simp only [Inquiry.against_bind_eq_ok, against_moveTo_eq_ok, Prod.exists,
            Inquiry.against_pure_eq_ok]
          exact ⟨vs, ⟨hvs, rfl⟩, others, rest, hothers, rfl⟩
  | case3 ts hident =>
      simp only [against_failAt, reduceCtorEq, false_iff]
      rintro ⟨⟨_, _, _, _⟩, name, us, rfl, rfl, -⟩
      exact hident _ _ _ _ _ rfl

theorem behind_parameters (n : Nat) {seen params : List String} (hn : ts.length ≤ n)
    (h : (parameters seen ts).against r = .ok (params, rest)) : Behind rest ts := by
  induction n generalizing ts seen params with
  | zero =>
      obtain ⟨t, name, us, rfl, -⟩ := against_parameters_eq_ok.mp h
      simp at hn
  | succ n ih =>
      obtain ⟨t, name, us, rfl, ht, -, -, hmore⟩ := against_parameters_eq_ok.mp h
      refine .cons (isLast_of_kind ht) ?_
      rcases hmore with ⟨-, -, rfl⟩ | ⟨vs, others, hcomma, -, hothers, -⟩
      · exact behind_refl rest
      · obtain ⟨t', rfl, ht'⟩ := after?_eq_some.mp hcomma
        refine .cons (isLast_of_symbol ht') (ih ?_ hothers)
        simp only [List.length_cons] at hn
        omega

theorem against_checkName_eq_ok {taken : String → Bool} {name : String} {column : Nat} :
    (checkName taken name column).against r = .ok () ↔
      Intrinsic.ofName? name = none ∧ Constant.value? name = none ∧ taken name = false := by
  unfold checkName
  cases Intrinsic.ofName? name with
  | some f => simp
  | none =>
      cases Constant.value? name with
      | some value => simp
      | none => cases taken name <;> simp

theorem against_signature_eq_ok {taken : String → Bool} {name : String} {column : Nat}
    {params : List String} :
    (signature taken name column ts).against r = .ok (params, rest) ↔
      (Intrinsic.ofName? name = none ∧ Constant.value? name = none ∧ taken name = false) ∧
        Clear ts ∧ ∃ us vs ws, (expect .openParen ts).against r = .ok us ∧
          (parameters [] us).against r = .ok (params, vs) ∧
          (expect .closeParen vs).against r = .ok ws ∧
          (expect .assign ws).against r = .ok rest := by
  simp only [signature, Inquiry.against_bind_eq_ok, against_moveTo_eq_ok, Prod.exists,
    Inquiry.against_pure_eq_ok, Prod.mk.injEq]
  constructor
  · rintro ⟨_, hname, _, ⟨hclear, rfl⟩, us, hopen, _, vs, hparams, ws, hclose, _, hassign, rfl, rfl⟩
    exact ⟨against_checkName_eq_ok.mp hname, hclear, us, vs, ws, hopen, hparams, hclose, hassign⟩
  · rintro ⟨hname, hclear, us, vs, ws, hopen, hparams, hclose, hassign⟩
    exact ⟨(), against_checkName_eq_ok.mpr hname, ts, ⟨hclear, rfl⟩, us, hopen, params, vs, hparams,
      ws, hclose, rest, hassign, rfl, rfl⟩

theorem behind_signature {taken : String → Bool} {name : String} {column : Nat}
    {params : List String} (h : (signature taken name column ts).against r = .ok (params, rest)) :
    Behind rest ts := by
  obtain ⟨-, -, us, vs, ws, hopen, hparams, hclose, hassign⟩ := against_signature_eq_ok.mp h
  have hbehind := (behind_expect hclose).trans (behind_parameters _ (Nat.le_refl _) hparams)
  exact (behind_expect hassign).trans (hbehind.trans (behind_expect hopen))

/-- A header that was read has a new name, and the tokens of its body come after it. -/
theorem header_eq_ok {taken : String → Bool} {line : Nat} {d : Definition}
    (h : header taken line ts = .ok d) :
    d.line = line ∧ taken d.name = false ∧ Behind d.body ts := by
  cases ts with
  | nil => cases h
  | cons t us =>
      obtain ⟨kind, lexeme, start, column⟩ := t
      unfold header at h
      cases kind with
      | ident name =>
          dsimp only at h
          cases hread : (signature taken name column us).against .empty with
          | error fault =>
              rw [hread] at h
              cases h
          | ok read =>
              obtain ⟨params, body⟩ := read
              rw [hread] at h
              cases h
              obtain ⟨⟨-, -, hname⟩, -⟩ := against_signature_eq_ok.mp hread
              exact ⟨rfl, hname, (behind_signature hread).cons rfl⟩
      | _ => cases h

/-! ### The text of a body -/

/-- The rest of a line from the first token of the body on. -/
def bodyText (text : String) (d : Definition) : String :=
  String.ofList (text.toList.drop (column d.body - 1))

/-- On its own, the text of the body has the tokens that it has in its line. -/
theorem kinds_bodyText {taken : String → Bool} {line : Nat} {text : String} {d : Definition}
    (h : header taken line (Token.tokenize text) = .ok d) :
    kinds (Token.tokenize (bodyText text d)) = kinds d.body := by
  obtain ⟨-, -, used, htokens, hused⟩ := header_eq_ok h
  obtain ⟨start, n, hbody⟩ := Token.tokenizeFrom_suffix htokens hused
  have hcolumn := Token.column_tokenizeFrom start (1 + n) (text.toList.drop n)
  have htext : (bodyText text d).toList = (text.toList.drop n).dropWhile Token.isSpace := by
    rw [bodyText, String.toList_ofList, Token.dropWhile_eq_drop, List.drop_drop, hbody, hcolumn]
    congr 1
    omega
  calc kinds (Token.tokenize (bodyText text d))
      = Token.kindsOf (bodyText text d).toList := Token.kinds_tokenizeFrom 0 1 _
    _ = Token.kindsOf (text.toList.drop n) := by rw [htext, Token.kindsOf_dropWhile]
    _ = kinds d.body := by rw [hbody, kinds, Token.kinds_tokenizeFrom]

/-! ### The headers of a block -/

variable {functions : Registry} {before : List Definition} {lines : List (String × Nat)}

/-- The names are different from one another and from those of the functions. -/
structure NewNames (functions : Registry) (definitions : List Definition) : Prop where
  distinct : (definitions.map Definition.name).Nodup
  new : ∀ d ∈ definitions, functions.contains d.name = false

theorem NewNames.append {d : Definition} (h : NewNames functions before)
    (hd : functions.contains d.name = false) (hname : ∀ d' ∈ before, d'.name ≠ d.name) :
    NewNames functions (before ++ [d]) := by
  refine ⟨?_, ?_⟩
  · rw [List.map_append, List.nodup_append]
    refine ⟨h.distinct, by simp, ?_⟩
    intro name hmem name' hmem'
    obtain ⟨d', hd', rfl⟩ := List.mem_map.mp hmem
    obtain rfl : name' = d.name := by simpa using hmem'
    exact hname d' hd'
  · intro d' hd'
    rcases List.mem_append.mp hd' with hd' | hd'
    · exact h.new d' hd'
    · obtain rfl : d' = d := by simpa using hd'
      exact hd

/-- A definition of a block is one of those before, or the header of a line. -/
def FromLines (before : List Definition) (lines : List (String × Nat)) (d : Definition) : Prop :=
  d ∈ before ∨ ∃ text taken, (text, d.line) ∈ lines ∧
    header taken d.line (Token.tokenize text) = .ok d

theorem FromLines.later {d : Definition} (h : FromLines before lines d) (entry : String × Nat) :
    FromLines before (entry :: lines) d := by
  rcases h with h | ⟨text, taken, hmem, hheader⟩
  · exact .inl h
  · exact .inr ⟨text, taken, List.mem_cons_of_mem _ hmem, hheader⟩

/-- The definitions of a block have new names, and each is the header of a line. -/
theorem headers_spec (functions : Registry) (lines : List (String × Nat))
    (before : List Definition) (hbefore : NewNames functions before) :
    NewNames functions (headers functions before lines).1 ∧
      ∀ d ∈ (headers functions before lines).1, FromLines before lines d := by
  induction lines generalizing before with
  | nil => exact ⟨hbefore, fun d hd => .inl hd⟩
  | cons entry lines ih =>
      obtain ⟨text, line⟩ := entry
      obtain ⟨hnames, hlines⟩ := ih before hbefore
      rw [headers]
      by_cases hblank : Text.isAllBlank text = true
      · rw [if_pos hblank]
        exact ⟨hnames, fun d hd => (hlines d hd).later _⟩
      · rw [if_neg hblank]
        dsimp only
        cases hheader : header (fun name => functions.contains name ||
            before.any (·.name == name)) line (Token.tokenize text) with
        | error e => exact ⟨hnames, fun d hd => (hlines d hd).later _⟩
        | ok d =>
            obtain ⟨hline, htaken, -⟩ := header_eq_ok hheader
            rw [Bool.or_eq_false_iff, List.any_eq_false] at htaken
            have hnew : NewNames functions (before ++ [d]) := by
              refine hbefore.append htaken.1 fun d' hd' heq => htaken.2 d' hd' ?_
              rw [heq]
              exact beq_self_eq_true d.name
            obtain ⟨hnames', hlines'⟩ := ih (before ++ [d]) hnew
            refine ⟨hnames', fun d' hd' => ?_⟩
            rcases hlines' d' hd' with hmem | hlater
            · rcases List.mem_append.mp hmem with hmem | hmem
              · exact .inl hmem
              · obtain rfl : d' = d := by simpa using hmem
                subst hline
                exact .inr ⟨text, _, List.mem_cons_self, hheader⟩
            · exact FromLines.later (.inr hlater) _

end Parser

end FormulaPlot
