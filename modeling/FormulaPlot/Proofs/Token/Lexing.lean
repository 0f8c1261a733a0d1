/-
What the tokens of a text are, token by token.

What a token is does not depend on where it stands, so the tokens of a text can be
followed by their kinds alone.  `kindsOf` satisfies a plain equation: drop the space,
take one lexeme, go on.

The second half is about lexemes that are followed by more text.  A number or a name
ends where the text after it cannot continue it; a symbol ends at once, unless an
equals sign makes it a longer one.
-/
import Mathlib
import FormulaPlot.Token.Lexer

namespace FormulaPlot.Token

/-- What the tokens of some characters are, wherever they stand. -/
def kindsOf (cs : List Char) : List Kind := (tokenizeFrom 0 1 cs).map Token.kind

/-- Nothing follows a token of this kind. -/
def Kind.isLast : Kind → Bool
  | .finish | .invalid _ => true
  | _ => false

theorem isLast_eq (t : Token) : t.isLast = t.kind.isLast := by
  unfold isLast Kind.isLast
  cases t.kind <;> rfl

/-! ### Tokens without their places -/

theorem kind_next (start column : Nat) (cs : List Char) :
    (next start column cs).1.kind = (scan (cs.dropWhile isSpace)).1 := rfl

theorem rest_next (start column : Nat) (cs : List Char) :
    (next start column cs).2 =
      (cs.dropWhile isSpace).drop (scan (cs.dropWhile isSpace)).2.length := rfl

theorem kinds_tokenizeFrom (start column : Nat) (cs : List Char) :
    (tokenizeFrom start column cs).map Token.kind = kindsOf cs := by
  unfold kindsOf
  -- The place changes in the induction, so both places are arbitrary.
  generalize 0 = start', 1 = column'
  fun_induction tokenizeFrom start column cs generalizing start' column' with
  | case1 start column cs step hlast =>
      rw [isLast_eq, kind_next] at hlast
      conv => rhs; rw [tokenizeFrom, dif_pos (by rwa [isLast_eq, kind_next])]
      rfl
  | case2 start column cs step hopen t ih =>
      rw [isLast_eq, kind_next] at hopen
      conv => rhs; rw [tokenizeFrom, dif_neg (by rwa [isLast_eq, kind_next])]
      rw [List.map_cons, List.map_cons]
      exact congrArg _ (ih _ _)

/-- The first token ends the list, or the rest of the text follows it. -/
theorem kindsOf_eq (cs : List Char) :
    kindsOf cs =
      if (scan (cs.dropWhile isSpace)).1.isLast = true ∨ cs = [] then
        [(scan (cs.dropWhile isSpace)).1]
      else (scan (cs.dropWhile isSpace)).1 ::
        kindsOf ((cs.dropWhile isSpace).drop (scan (cs.dropWhile isSpace)).2.length) := by
  rw [kindsOf, tokenizeFrom]
  simp only [isLast_eq, kind_next, rest_next]
  split
  · rfl
  · rw [List.map_cons, kinds_tokenizeFrom, kind_next]

theorem kindsOf_nil : kindsOf [] = [.finish] := by
  rw [kindsOf_eq]
  rfl

/-- Space in front of a token makes no difference. -/
theorem kindsOf_space {c : Char} (hc : isSpace c = true) (cs : List Char) :
    kindsOf (c :: cs) = kindsOf cs := by
  rw [kindsOf_eq (c :: cs), kindsOf_eq cs, List.dropWhile_cons_of_pos hc]
  cases cs with
  | nil => rfl
  | cons c cs => simp

/-- A lexeme that is scanned in one piece is one token. -/
theorem kindsOf_append {lexeme rest : List Char} {kind : Kind}
    (hscan : scan (lexeme ++ rest) = (kind, lexeme)) (hkind : kind.isLast = false)
    (hspace : ∀ c ∈ lexeme.head?, isSpace c = false) :
    kindsOf (lexeme ++ rest) = kind :: kindsOf rest := by
  have hne : lexeme ≠ [] := by
    rcases scan_ne_nil hscan with rfl | hne
    · cases hkind
    · exact hne
  have hdrop : (lexeme ++ rest).dropWhile isSpace = lexeme ++ rest := by
    cases lexeme with
    | nil => exact absurd rfl hne
    | cons c cs => exact List.dropWhile_cons_of_neg (by simp [hspace c rfl])
  rw [kindsOf_eq, hdrop, hscan, if_neg (by simp [hkind, hne]), List.drop_left]

/-! ### Numbers and names that more text follows -/

/-- A number that is complete can be followed by this text. -/
def EndsNumber (cs : List Char) : Prop := ∀ c ∈ cs.head?, continuesIdent c = false ∧ c ≠ '.'

/-- A number, a name or a symbol that is complete can be followed by this text. -/
def Breaks (cs : List Char) : Prop :=
  ∀ c ∈ cs.head?, continuesIdent c = false ∧ c ≠ '.' ∧ c ≠ '='

theorem Breaks.endsNumber {cs : List Char} (h : Breaks cs) : EndsNumber cs :=
  fun c hc => ⟨(h c hc).1, (h c hc).2.1⟩

theorem breaks_nil : Breaks [] := by
  intro c hc
  cases hc

theorem breaks_cons {c : Char} {cs : List Char}
    (h : continuesIdent c = false ∧ c ≠ '.' ∧ c ≠ '=') : Breaks (c :: cs) := by
  intro c' hc'
  cases hc'
  exact h

theorem continuesIdent_of_isDigit {c : Char} (h : c.isDigit = true) : continuesIdent c = true := by
  simp [continuesIdent, Char.isAlphanum, h]

/-- A run of characters ends where the text after it has none of them. -/
theorem takeWhile_append_of_head {p : Char → Bool} {cs rest : List Char}
    (h : ∀ c ∈ rest.head?, p c = false) : (cs ++ rest).takeWhile p = cs.takeWhile p := by
  induction cs with
  | nil =>
      cases rest with
      | nil => rfl
      | cons c rest => simp [h c rfl]
  | cons c cs ih => simp only [List.cons_append, List.takeWhile_cons, ih]

theorem digits_append {cs rest : List Char} (h : EndsNumber rest) :
    digits (cs ++ rest) = digits cs := by
  refine takeWhile_append_of_head fun c hc => ?_
  rw [← Bool.not_eq_true]
  intro hdigit
  have hno := (h c hc).1
  rw [continuesIdent_of_isDigit hdigit] at hno
  cases hno

theorem fraction_append {cs rest : List Char} (h : EndsNumber rest) :
    fraction (cs ++ rest) = fraction cs := by
  cases cs with
  | nil =>
      cases rest with
      | nil => rfl
      | cons c rest =>
          have hc := (h c rfl).2
          simp [fraction, hc]
  | cons c cs =>
      by_cases hc : c = '.'
      · subst hc
        simp only [List.cons_append, fraction, digits_append h]
      · simp [fraction, hc]

/-- An exponent that is complete stays so. -/
theorem exponent_append {cs rest : List Char} (hcs : exponent cs = cs) (h : EndsNumber rest) :
    exponent (cs ++ rest) = cs := by
  cases cs with
  | nil =>
      cases rest with
      | nil => rfl
      | cons c rest =>
          have hc := (h c rfl).1
          have hmark : ¬ (c = 'e' ∨ c = 'E') := by
            intro hmark
            rcases hmark with rfl | rfl <;> exact absurd hc (by decide)
          simp [exponent, hmark]
  | cons c cs =>
      rw [exponent] at hcs
      by_cases hpower : (c = 'e' ∨ c = 'E') ∧ digits (cs.drop (sign cs).length) ≠ []
      · rw [if_pos hpower] at hcs
        have hparts : sign cs ++ digits (cs.drop (sign cs).length) = cs :=
          List.tail_eq_of_cons_eq hcs
        have hne : cs ≠ [] := by
          intro hnil
          rw [hnil] at hpower
          exact hpower.2 rfl
        have hsign : sign (cs ++ rest) = sign cs := by
          cases cs with
          | nil => exact absurd rfl hne
          | cons c' cs =>
              by_cases hplus : c' = '+'
              · rw [hplus]
                rfl
              · by_cases hminus : c' = '-'
                · rw [hminus]
                  rfl
                · simp [sign, hplus, hminus]
        have hlength : (sign cs).length ≤ cs.length := by
          fun_cases sign cs <;> simp
        simp only [List.cons_append, exponent, hsign]
        rw [List.drop_append_of_le_length hlength, digits_append h, if_pos hpower, hparts]
      · rw [if_neg hpower] at hcs
        cases hcs

/-- A number that is complete stays so. -/
theorem number_append {cs rest : List Char} (hcs : number cs = cs) (hne : cs ≠ [])
    (h : EndsNumber rest) : number (cs ++ rest) = cs := by
  have hwhole : (digits cs).length ≤ cs.length := (List.takeWhile_sublist _).length_le
  rw [number] at hcs ⊢
  by_cases hempty : digits cs = [] ∧ fraction (cs.drop (digits cs).length) = []
  · rw [if_pos hempty] at hcs
    exact absurd hcs.symm hne
  · rw [if_neg hempty, List.append_assoc] at hcs
    have hparts : (digits cs).length + (fraction (cs.drop (digits cs).length)).length ≤
        cs.length := by
      have hlength := congrArg List.length hcs
      rw [List.length_append, List.length_append] at hlength
      omega
    -- What follows the digits and the fraction is all exponent.
    have hexponent : exponent (cs.drop ((digits cs).length +
        (fraction (cs.drop (digits cs).length)).length)) =
        cs.drop ((digits cs).length + (fraction (cs.drop (digits cs).length)).length) := by
      have hdrop := congrArg (List.drop ((digits cs).length +
        (fraction (cs.drop (digits cs).length)).length)) hcs
      rwa [← List.append_assoc, List.drop_left' (by rw [List.length_append])] at hdrop
    rw [digits_append h, List.drop_append_of_le_length hwhole, fraction_append h, if_neg hempty,
      List.drop_append_of_le_length hparts, exponent_append hexponent h, List.append_assoc,
      ← hexponent]
    exact hcs

/-- A name that is complete stays so. -/
theorem ident_append {cs rest : List Char} (hcs : ident cs = cs) (hne : cs ≠ [])
    (h : ∀ c ∈ rest.head?, continuesIdent c = false) : ident (cs ++ rest) = cs := by
  cases cs with
  | nil => exact absurd rfl hne
  | cons c cs =>
      rw [List.cons_append]
      rw [ident] at hcs ⊢
      rw [takeWhile_append_of_head h]
      exact hcs

/-! ### The characters of a lexeme -/

theorem mem_ident {c : Char} {cs : List Char} (h : c ∈ ident cs) : continuesIdent c = true := by
  cases cs with
  | nil => cases h
  | cons c' cs =>
      by_cases hstart : startsIdent c' = true
      · rw [ident, if_pos hstart] at h
        rcases List.mem_cons.mp h with rfl | h
        · simp only [startsIdent, Bool.or_eq_true, decide_eq_true_eq] at hstart
          rcases hstart with halpha | rfl
          · simp [continuesIdent, Char.isAlphanum, halpha]
          · rfl
        · exact List.mem_takeWhile_imp h
      · rw [ident, if_neg hstart] at h
        cases h

theorem isDigit_of_mem_digits {c : Char} {cs : List Char} (h : c ∈ digits cs) :
    c.isDigit = true := List.mem_takeWhile_imp h

theorem mem_fraction {c : Char} {cs : List Char} (h : c ∈ fraction cs) :
    c.isDigit = true ∨ c = '.' := by
  revert h
  fun_cases fraction cs with
  | case2 cs _ =>
      intro h
      rcases List.mem_cons.mp h with rfl | h
      · exact .inr rfl
      · exact .inl (isDigit_of_mem_digits h)
  | _ => simp

theorem mem_exponent {c : Char} {cs : List Char} (h : c ∈ exponent cs) :
    c.isDigit = true ∨ c ∈ ['e', 'E', '+', '-'] := by
  have hsign : ∀ cs, c ∈ sign cs → c ∈ ['e', 'E', '+', '-'] := by
    intro cs
    fun_cases sign cs <;> simp +contextual
  revert h
  fun_cases exponent cs with
  | case2 c' cs mark power hmark =>
      intro h
      rcases List.mem_cons.mp h with rfl | h
      · exact .inr (by rcases hmark.1 with rfl | rfl <;> decide)
      · rcases List.mem_append.mp h with h | h
        · exact .inr (hsign cs h)
        · exact .inl (isDigit_of_mem_digits h)
  | _ => simp

/-- A number is written with digits, a point, signs and the mark of an exponent. -/
theorem mem_number {c : Char} {cs : List Char} (h : c ∈ number cs) :
    c.isDigit = true ∨ c ∈ ['.', 'e', 'E', '+', '-'] := by
  rw [number] at h
  split at h
  · cases h
  · rcases List.mem_append.mp h with h | h
    · rcases List.mem_append.mp h with h | h
      · exact .inl (isDigit_of_mem_digits h)
      · rcases mem_fraction h with hdigit | rfl
        · exact .inl hdigit
        · exact .inr List.mem_cons_self
    · exact (mem_exponent h).imp_right (List.mem_cons_of_mem _)

/-! ### Scanning one lexeme -/

/-- Characters are different if one of them is of a class and the other is not. -/
theorem ne_of_class {p : Char → Bool} {c c' : Char} (h : p c = true) (h' : p c' = false) :
    c ≠ c' := by
  intro heq
  rw [heq, h'] at h
  cases h

theorem isSpace_eq_false {c : Char} (hblank : c ≠ ' ') (htab : c ≠ '\t') (hreturn : c ≠ '\r') :
    isSpace c = false := by
  simp [isSpace, hblank, htab, hreturn]

theorem atFinish_cons_eq_false {c : Char} {cs : List Char} (hline : c ≠ '\n')
    (hsemicolon : c ≠ ';') : atFinish (c :: cs) = false := by
  simp [atFinish, hline, hsemicolon]

theorem number_eq_nil {c : Char} {cs : List Char} (hdigit : c.isDigit = false) (hpoint : c ≠ '.') :
    number (c :: cs) = [] := by
  simp [number, digits, fraction, hdigit, hpoint]

theorem ident_eq_nil {c : Char} {cs : List Char} (h : startsIdent c = false) :
    ident (c :: cs) = [] := by
  simp [ident, h]

theorem isDigit_of_startsIdent {c : Char} (h : startsIdent c = true) : c.isDigit = false := by
  rw [← Bool.not_eq_true]
  intro hdigit
  rw [Char.isDigit_iff_toNat] at hdigit
  simp only [startsIdent, Char.isAlpha, Char.isUpper, Char.isLower, Bool.or_eq_true,
    Bool.and_eq_true, decide_eq_true_eq, ge_iff_le, UInt32.le_iff_toNat_le, Char.toNat_val] at h
  have hnine : '9'.toNat = 57 := rfl
  have hupper : 'A'.toNat = 65 := rfl
  have hlower : 'a'.toNat = 97 := rfl
  rcases h with (h | h) | rfl
  · omega
  · omega
  · exact absurd hdigit (by decide)

theorem startsIdent_of_ident {c : Char} {cs : List Char} (h : ident (c :: cs) = c :: cs) :
    startsIdent c = true := by
  rw [← Bool.not_eq_false]
  intro hno
  rw [ident_eq_nil hno] at h
  cases h

theorem isDigit_of_number {c : Char} {cs : List Char} (h : number (c :: cs) = c :: cs) :
    c.isDigit = true ∨ c = '.' := by
  by_cases hdigit : c.isDigit = true
  · exact .inl hdigit
  · by_cases hpoint : c = '.'
    · exact .inr hpoint
    · rw [number_eq_nil (by simpa using hdigit) hpoint] at h
      cases h

theorem scan_number {cs rest : List Char} {value : Float} (hcs : number cs = cs) (hne : cs ≠ [])
    (hvalue : Decimal.read? cs = some value) (h : EndsNumber rest) :
    scan (cs ++ rest) = (.number value, cs) := by
  have hnumber := number_append hcs hne h
  have hfinish : atFinish (cs ++ rest) = false := by
    obtain ⟨c, tail, rfl⟩ := List.exists_cons_of_ne_nil hne
    rcases isDigit_of_number hcs with hdigit | rfl
    · exact atFinish_cons_eq_false (ne_of_class hdigit (by decide)) (ne_of_class hdigit (by decide))
    · rfl
  simp only [scan, hfinish, hnumber, hvalue]
  simp [hne]

theorem scan_ident {cs rest : List Char} (hcs : ident cs = cs) (hne : cs ≠ [])
    (h : ∀ c ∈ rest.head?, continuesIdent c = false) :
    scan (cs ++ rest) = (.ident (String.ofList cs), cs) := by
  have hident := ident_append hcs hne h
  obtain ⟨c, tail, rfl⟩ := List.exists_cons_of_ne_nil hne
  have hstart := startsIdent_of_ident hcs
  have hfinish : atFinish (c :: tail ++ rest) = false :=
    atFinish_cons_eq_false (ne_of_class hstart (by decide)) (ne_of_class hstart (by decide))
  have hnumber : number (c :: tail ++ rest) = [] :=
    number_eq_nil (isDigit_of_startsIdent hstart) (ne_of_class hstart (by decide))
  simp only [scan, hfinish, hnumber, hident]
  simp

theorem leading?_symbol (sym : Symbol) {rest : List Char} (h : ∀ c ∈ rest.head?, c ≠ '=') :
    Symbol.leading? (sym.text.toList ++ rest) = some sym := by
  cases rest with
  | nil => cases sym <;> decide
  | cons c rest =>
      have hc : ['='].isPrefixOf (c :: rest) = false := by
        simpa [List.isPrefixOf] using (h c rfl).symm
      cases sym <;> simp [Symbol.leading?, Symbol.all, Symbol.text, hc]

/-- Nothing else than a symbol begins as a symbol does. -/
theorem text_symbol (sym : Symbol) : ∃ c tail, sym.text.toList = c :: tail ∧
    startsIdent c = false ∧ c.isDigit = false ∧ isSpace c = false ∧ c ≠ '.' ∧ c ≠ '\n' ∧
    c ≠ ';' := by
  cases sym <;> exact ⟨_, _, rfl, by decide⟩

/-- A symbol is scanned as it is written, unless an equals sign after it makes it a longer
one. -/
theorem scan_symbol (sym : Symbol) {rest : List Char} (h : ∀ c ∈ rest.head?, c ≠ '=') :
    scan (sym.text.toList ++ rest) = (.symbol sym, sym.text.toList) := by
  obtain ⟨c, tail, hc, hstart, hdigit, -, hpoint, hline, hsemicolon⟩ := text_symbol sym
  have hleading := leading?_symbol sym h
  have hfinish : atFinish (sym.text.toList ++ rest) = false := by
    rw [hc]
    exact atFinish_cons_eq_false hline hsemicolon
  have hnumber : number (sym.text.toList ++ rest) = [] := by
    rw [hc]
    exact number_eq_nil hdigit hpoint
  have hident : ident (sym.text.toList ++ rest) = [] := by
    rw [hc]
    exact ident_eq_nil hstart
  simp [scan, hfinish, hnumber, hident, hleading]

/-! ### One token after the other -/

theorem kindsOf_number {cs rest : List Char} {value : Float} (hcs : number cs = cs)
    (hne : cs ≠ []) (hvalue : Decimal.read? cs = some value) (h : Breaks rest) :
    kindsOf (cs ++ rest) = .number value :: kindsOf rest := by
  refine kindsOf_append (scan_number hcs hne hvalue h.endsNumber) rfl ?_
  intro c hc
  obtain ⟨tail, rfl⟩ := List.head?_eq_some_iff.mp hc
  rcases isDigit_of_number hcs with hdigit | rfl
  · exact isSpace_eq_false (ne_of_class hdigit (by decide)) (ne_of_class hdigit (by decide))
      (ne_of_class hdigit (by decide))
  · rfl

theorem kindsOf_ident {cs rest : List Char} (hcs : ident cs = cs) (hne : cs ≠ [])
    (h : Breaks rest) : kindsOf (cs ++ rest) = .ident (String.ofList cs) :: kindsOf rest := by
  refine kindsOf_append (scan_ident hcs hne fun c hc => (h c hc).1) rfl ?_
  intro c hc
  obtain ⟨tail, rfl⟩ := List.head?_eq_some_iff.mp hc
  have hstart := startsIdent_of_ident hcs
  exact isSpace_eq_false (ne_of_class hstart (by decide)) (ne_of_class hstart (by decide))
    (ne_of_class hstart (by decide))

theorem kindsOf_symbol (sym : Symbol) {rest : List Char} (h : ∀ c ∈ rest.head?, c ≠ '=') :
    kindsOf (sym.text.toList ++ rest) = .symbol sym :: kindsOf rest := by
  refine kindsOf_append (scan_symbol sym h) rfl ?_
  obtain ⟨c, tail, hc, -, -, hspace, -⟩ := text_symbol sym
  intro c' hc'
  rw [hc] at hc'
  cases hc'
  exact hspace

end FormulaPlot.Token
