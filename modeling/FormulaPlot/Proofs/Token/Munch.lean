/-
The tokenizer takes the longest lexeme there is.

    number → [0-9]* '.'? [0-9]+ ([eE] [+-]? [0-9]+)?
    name   → [A-Za-z_] [A-Za-z0-9_]*
    symbol → one of the 21 symbols

This is the lexical grammar, and `Munched` is what it asks of one token: the longest start
of the text that is in one of these classes, or the end, or one character that nothing in
any class begins with.  The text never leaves a choice between the three, nor between
the classes, since the first character of a lexeme tells them apart.

`Lexes` lays tokens out along a text.  There is space in front of a token and nothing else
between two of them, and the place of a token is counted in the text before it.  The
tokens of a text are the only ones that lie along it in this way.  Whoever reads one token at a
time, each from the end of the last one on, is led along them.
-/
import FormulaPlot.Proofs.Decimal.Literal

namespace FormulaPlot.Token

/-! ### The lexical grammar -/

/-- One or more digits. -/
def Digits (cs : List Char) : Prop := cs ≠ [] ∧ ∀ c ∈ cs, c.isDigit = true

/-- The mark of an exponent, a sign or none, and digits. -/
inductive IsExponent : List Char → Prop
  | mk {mark : Char} {plus power : List Char} (hmark : mark = 'e' ∨ mark = 'E')
      (hplus : plus = [] ∨ plus = ['+'] ∨ plus = ['-']) (hpower : Digits power) :
      IsExponent (mark :: (plus ++ power))

/-- Digits with a point or without one, at least one digit behind it, and an exponent or
none. -/
inductive IsNumber : List Char → Prop
  | mk {whole point part tail : List Char} (hwhole : ∀ c ∈ whole, c.isDigit = true)
      (hpoint : point = [] ∨ point = ['.']) (hpart : Digits part)
      (htail : tail = [] ∨ IsExponent tail) : IsNumber (whole ++ (point ++ (part ++ tail)))

/-- A letter or an underscore, then letters, digits and underscores. -/
inductive IsIdent : List Char → Prop
  | mk {c : Char} {cs : List Char} (hstart : startsIdent c = true)
      (hcontinue : ∀ c ∈ cs, continuesIdent c = true) : IsIdent (c :: cs)

/-- The lexemes of all classes. -/
inductive IsLexeme : List Char → Prop
  | number {cs : List Char} (h : IsNumber cs) : IsLexeme cs
  | ident {cs : List Char} (h : IsIdent cs) : IsLexeme cs
  | symbol (s : Symbol) : IsLexeme s.text.toList

/-- The kind of token that a lexeme makes. -/
inductive Spells : Kind → List Char → Prop
  | number {cs : List Char} {value : Float} (h : IsNumber cs)
      (hvalue : Decimal.read? cs = some value) : Spells (.number value) cs
  | ident {cs : List Char} (h : IsIdent cs) : Spells (.ident (String.ofList cs)) cs
  | symbol (s : Symbol) : Spells (.symbol s) s.text.toList

/-- The text is empty, or a newline or a semicolon follows. -/
def Finished (text : List Char) : Prop := ∀ c ∈ text.head?, c = '\n' ∨ c = ';'

/-- What the first token of a text is and which characters belong to it. -/
inductive Munched (text : List Char) : Kind → List Char → Prop
  | finish (h : Finished text) : Munched text .finish []
  | longest {kind : Kind} {lexeme : List Char} (h : Spells kind lexeme)
      (hstarts : lexeme <+: text)
      (hlongest : ∀ other, IsLexeme other → other <+: text → other.length ≤ lexeme.length) :
      Munched text kind lexeme
  | invalid {c : Char} (hhead : text.head? = some c) (hopen : ¬ Finished text)
      (hnone : ∀ other, IsLexeme other → ¬ other <+: text) :
      Munched text (.invalid .invalidChar) [c]

variable {cs rest text lexeme : List Char} {kind : Kind} {c : Char}

/-! ### The longest number -/

theorem digits_append_of_digits (h : ∀ c ∈ cs, c.isDigit = true) (rest : List Char) :
    digits (cs ++ rest) = cs ++ digits rest := List.takeWhile_append_of_pos h

/-- A run of digits ends where the text after it has none. -/
theorem digits_append_of_head (h : ∀ c ∈ cs, c.isDigit = true)
    (hrest : ∀ c ∈ rest.head?, c.isDigit = false) : digits (cs ++ rest) = cs :=
  (Decimal.digits_append h hrest).1

theorem digits_nonempty (h : digits cs ≠ []) : Digits (digits cs) :=
  ⟨h, fun _ hc => isDigit_of_mem_digits hc⟩

theorem Digits.head (h : Digits cs) : ∃ c tail, cs = c :: tail ∧ c.isDigit = true := by
  obtain ⟨c, tail, rfl⟩ := List.exists_cons_of_ne_nil h.1
  exact ⟨c, tail, rfl, h.2 c List.mem_cons_self⟩

theorem sign_append {plus : List Char} (hplus : plus = [] ∨ plus = ['+'] ∨ plus = ['-'])
    (h : Digits cs) (rest : List Char) : sign (plus ++ (cs ++ rest)) = plus := by
  obtain ⟨c, tail, rfl, hc⟩ := h.head
  rcases hplus with rfl | rfl | rfl
  · have hplus : c ≠ '+' := ne_of_class hc (by decide)
    have hminus : c ≠ '-' := ne_of_class hc (by decide)
    simp [sign, hplus, hminus]
  · rfl
  · rfl

/-- The exponent at the start of a text takes in every exponent that is there. -/
theorem IsExponent.length_le (h : IsExponent cs) (rest : List Char) :
    cs.length ≤ (exponent (cs ++ rest)).length := by
  obtain @⟨mark, plus, power, hmark, hplus, hpower⟩ := h
  have hdigits : digits (power ++ rest) = power ++ digits rest :=
    digits_append_of_digits hpower.2 rest
  have hne : power ++ digits rest ≠ [] := by simp [hpower.1]
  rw [List.cons_append, List.append_assoc, exponent]
  simp only [sign_append hplus hpower, List.drop_left, hdigits]
  rw [if_pos ⟨hmark, hne⟩]
  simp only [List.length_cons, List.length_append]
  omega

theorem IsExponent.head (h : IsExponent cs) :
    ∃ c tail, cs = c :: tail ∧ c.isDigit = false ∧ c ≠ '.' := by
  obtain ⟨hmark, -, -⟩ := h
  rcases hmark with rfl | rfl <;> exact ⟨_, _, rfl, by decide⟩

theorem prefix_fraction (cs : List Char) : fraction cs <+: cs := by
  fun_cases fraction cs with
  | case1 => exact List.nil_prefix
  | case2 cs _ => exact (List.prefix_cons_inj '.').mpr (List.takeWhile_prefix _)
  | case3 => exact List.nil_prefix

theorem sign_cases (cs : List Char) : sign cs = [] ∨ sign cs = ['+'] ∨ sign cs = ['-'] := by
  fun_cases sign cs <;> simp

theorem prefix_sign (cs : List Char) : sign cs <+: cs := by
  fun_cases sign cs <;> simp

/-- A start of a text and a start of what is left make a start of the text. -/
theorem prefix_append_of_drop {as bs : List Char} (ha : as <+: cs) (hb : bs <+: cs.drop as.length) :
    as ++ bs <+: cs := by
  obtain ⟨rest, rfl⟩ := ha
  rw [List.drop_left] at hb
  exact (List.prefix_append_right_inj as).mpr hb

theorem prefix_exponent (cs : List Char) : exponent cs <+: cs := by
  fun_cases exponent cs with
  | case2 c cs mark power _ =>
      exact (List.prefix_cons_inj c).mpr
        (prefix_append_of_drop (prefix_sign cs) (List.takeWhile_prefix _))
  | _ => exact List.nil_prefix

theorem prefix_number (cs : List Char) : number cs <+: cs := by
  have hwhole : digits cs <+: cs := List.takeWhile_prefix _
  rw [number]
  split
  · exact List.nil_prefix
  · refine prefix_append_of_drop (prefix_append_of_drop hwhole (prefix_fraction _)) ?_
    rw [List.length_append]
    exact prefix_exponent _

theorem digits_prefix_number (cs : List Char) : digits cs <+: number cs := by
  rw [number]
  split
  · rename_i hempty
    rw [hempty.1]
  · rw [List.append_assoc]
    exact List.prefix_append _ _

theorem isExponent_exponent (h : exponent cs ≠ []) : IsExponent (exponent cs) := by
  revert h
  fun_cases exponent cs with
  | case2 c cs mark power hpower =>
      intro _
      exact .mk hpower.1 (sign_cases cs) (digits_nonempty hpower.2)
  | _ => exact fun h => absurd rfl h

/-- What is taken as a number is one. -/
theorem isNumber_number (h : number cs ≠ []) : IsNumber (number cs) := by
  rw [number] at h ⊢
  split
  · rename_i hempty
    exact absurd (if_pos hempty) h
  · rename_i hne
    generalize htail : exponent _ = tail
    have htail : tail = [] ∨ IsExponent tail := by
      by_cases hnil : tail = []
      · exact .inl hnil
      · exact .inr (htail ▸ isExponent_exponent (htail ▸ hnil))
    have hwhole : ∀ c ∈ digits cs, c.isDigit = true := fun _ hc => isDigit_of_mem_digits hc
    by_cases hpart : fraction (cs.drop (digits cs).length) = []
    · -- Without a fraction, the digits before the exponent are the ones that have to be there.
      have hdigits : digits cs ≠ [] := fun hnil => hne ⟨hnil, hpart⟩
      rw [hpart, List.append_nil]
      exact .mk (fun _ hc => absurd hc List.not_mem_nil) (.inl rfl) (digits_nonempty hdigits) htail
    · rw [List.append_assoc]
      revert hpart
      fun_cases fraction (cs.drop (digits cs).length) with
      | case2 cs hmore =>
          intro _
          rw [List.isEmpty_iff] at hmore
          exact .mk hwhole (.inr rfl) (digits_nonempty hmore) htail
      | _ => exact fun h => absurd rfl h

/-- A number is put together from its digits, its fraction and its exponent. -/
theorem number_of_parts (as bs rest : List Char) (ha : digits (as ++ (bs ++ rest)) = as)
    (hb : fraction (bs ++ rest) = bs) (hne : as ≠ [] ∨ bs ≠ []) :
    number (as ++ (bs ++ rest)) = as ++ (bs ++ exponent rest) := by
  have hdrop : (as ++ (bs ++ rest)).drop (as.length + bs.length) = rest := by
    rw [← List.append_assoc, ← List.length_append, List.drop_left]
  rw [number]
  simp only [ha, List.drop_left, hb, hdrop]
  rw [if_neg (by simpa [imp_iff_not_or] using hne), List.append_assoc]

/-- Without a point, all digits come first. -/
theorem length_le_number (h : Digits cs) {tail : List Char} (htail : tail = [] ∨ IsExponent tail)
    (rest : List Char) : (cs ++ tail).length ≤ (number (cs ++ (tail ++ rest))).length := by
  rcases htail with rfl | hexponent
  · have hle := (digits_prefix_number (cs ++ rest)).length_le
    rw [digits_append_of_digits h.2, List.length_append] at hle
    rw [List.append_nil, List.nil_append]
    omega
  · have hle := hexponent.length_le rest
    obtain ⟨c, tail, rfl, hdigit, hpoint⟩ := hexponent.head
    have hdigits : digits (cs ++ (c :: tail ++ rest)) = cs :=
      digits_append_of_head h.2 (by rintro _ ⟨⟩; exact hdigit)
    have hnumber := number_of_parts cs [] (c :: tail ++ rest) hdigits (by simp [fraction, hpoint])
      (.inl h.1)
    rw [List.nil_append, List.nil_append] at hnumber
    rw [hnumber, List.length_append, List.length_append]
    omega

/-- With a point, the digits behind it may go on in the text. -/
theorem length_le_number_point {whole : List Char} (hwhole : ∀ c ∈ whole, c.isDigit = true)
    (h : Digits cs) {tail : List Char} (htail : tail = [] ∨ IsExponent tail) (rest : List Char) :
    (whole ++ '.' :: (cs ++ tail)).length ≤
      (number (whole ++ '.' :: (cs ++ (tail ++ rest)))).length := by
  have hmore : digits (tail ++ rest) ++ (tail ++ rest).dropWhile Char.isDigit = tail ++ rest :=
    List.takeWhile_append_dropWhile
  have htail : tail.length ≤ (digits (tail ++ rest)).length +
      (exponent ((tail ++ rest).dropWhile Char.isDigit)).length := by
    rcases htail with rfl | hexponent
    · exact Nat.zero_le _
    · have hle := hexponent.length_le rest
      obtain ⟨c, tail, rfl, hdigit, -⟩ := hexponent.head
      rw [List.cons_append, List.dropWhile_cons_of_neg (by simp [hdigit])]
      exact Nat.le_add_left_of_le hle
  have hpart : Digits (cs ++ digits (tail ++ rest)) := by
    refine ⟨by simp [h.1], fun c hc => ?_⟩
    exact (List.mem_append.mp hc).elim (h.2 c) isDigit_of_mem_digits
  have hfraction : fraction ('.' :: (cs ++ digits (tail ++ rest)) ++
      (tail ++ rest).dropWhile Char.isDigit) = '.' :: (cs ++ digits (tail ++ rest)) := by
    rw [List.cons_append, List.append_assoc, hmore, fraction, digits_append_of_digits h.2, if_neg]
    simp [h.1]
  have hnumber := number_of_parts whole ('.' :: (cs ++ digits (tail ++ rest)))
    ((tail ++ rest).dropWhile Char.isDigit) (digits_append_of_head hwhole (by simp)) hfraction
    (.inr (List.cons_ne_nil _ _))
  rw [List.cons_append, List.append_assoc, hmore] at hnumber
  rw [hnumber]
  simp only [List.length_append, List.length_cons]
  omega

/-- The number at the start of a text is as long as any that is there. -/
theorem IsNumber.length_le (h : IsNumber cs) (rest : List Char) :
    cs.length ≤ (number (cs ++ rest)).length := by
  obtain @⟨whole, point, part, tail, hwhole, hpoint, hpart, htail⟩ := h
  rcases hpoint with rfl | rfl
  · have hdigits : Digits (whole ++ part) := by
      refine ⟨by simp [hpart.1], fun c hc => ?_⟩
      exact (List.mem_append.mp hc).elim (hwhole c) (hpart.2 c)
    have hle := length_le_number hdigits htail rest
    rw [List.append_assoc, List.append_assoc, ← List.append_assoc part] at hle
    rw [List.append_assoc]
    exact hle
  · have hle := length_le_number_point hwhole hpart htail rest
    rw [← List.append_assoc part] at hle
    rw [List.append_assoc]
    exact hle

/-! ### The longest name and the longest symbol -/

theorem prefix_ident (cs : List Char) : ident cs <+: cs := by
  fun_cases ident cs with
  | case2 c cs _ => exact (List.prefix_cons_inj c).mpr (List.takeWhile_prefix _)
  | _ => exact List.nil_prefix

theorem isIdent_ident (h : ident cs ≠ []) : IsIdent (ident cs) := by
  revert h
  fun_cases ident cs with
  | case2 c cs hstart => exact fun _ => .mk hstart fun _ hc => List.mem_takeWhile_imp hc
  | _ => exact fun h => absurd rfl h

/-- The name at the start of a text is as long as any that is there. -/
theorem IsIdent.length_le (h : IsIdent cs) (rest : List Char) :
    cs.length ≤ (ident (cs ++ rest)).length := by
  obtain ⟨hstart, hcontinue⟩ := h
  rw [List.cons_append, ident, if_pos hstart, List.takeWhile_append_of_pos hcontinue]
  simp only [List.length_cons, List.length_append]
  omega

theorem mem_symbols (s : Symbol) : s ∈ Symbol.all := by
  cases s <;> decide

/-- The symbol that is found is as long as any that is there. -/
theorem leading?_eq_some {s : Symbol} (h : Symbol.leading? cs = some s) :
    s.text.toList <+: cs ∧
      ∀ s' : Symbol, s'.text.toList <+: cs → s'.text.toList.length ≤ s.text.toList.length := by
  obtain ⟨hs, before, after, hall, hbefore⟩ := List.find?_eq_some_iff_append.mp h
  have hsorted : Symbol.all.Pairwise fun s t => t.text.toList.length ≤ s.text.toList.length := by
    decide
  refine ⟨List.isPrefixOf_iff_prefix.mp hs, fun s' hs' => ?_⟩
  have hmem := mem_symbols s'
  rw [hall] at hmem hsorted
  rcases List.mem_append.mp hmem with hmem | hmem
  · have hno := hbefore s' hmem
    rw [List.isPrefixOf_iff_prefix.mpr hs'] at hno
    cases hno
  · rcases List.mem_cons.mp hmem with rfl | hmem
    · exact Nat.le_refl _
    · exact List.rel_of_pairwise_cons (List.pairwise_append.mp hsorted).2.1 hmem

theorem leading?_eq_none (h : Symbol.leading? cs = none) (s : Symbol) : ¬ s.text.toList <+: cs := by
  intro hs
  exact List.find?_eq_none.mp h s (mem_symbols s) (List.isPrefixOf_iff_prefix.mpr hs)

/-! ### The value of a number -/

theorem IsNumber.head (h : IsNumber cs) :
    ∃ c tail, cs = c :: tail ∧ (c.isDigit = true ∨ c = '.') := by
  obtain @⟨whole, point, part, tail, hwhole, hpoint, hpart, -⟩ := h
  cases whole with
  | cons c whole => exact ⟨c, _, rfl, .inl (hwhole c List.mem_cons_self)⟩
  | nil =>
      rcases hpoint with rfl | rfl
      · obtain ⟨c, part, rfl, hc⟩ := hpart.head
        exact ⟨c, _, rfl, .inl hc⟩
      · exact ⟨'.', _, rfl, .inr rfl⟩

theorem readExponent?_of_exponent (h : cs = [] ∨ IsExponent cs) :
    ∃ n, Decimal.readExponent? cs = some n := by
  rcases h with rfl | @⟨mark, plus, power, hmark, hplus, hpower⟩
  · exact ⟨0, rfl⟩
  · have hno : ¬ (mark ≠ 'e' ∧ mark ≠ 'E') := fun h => hmark.elim h.1 h.2
    obtain ⟨c, tail, rfl, hc⟩ := hpower.head
    have hall : (c :: tail).all Char.isDigit = true := List.all_eq_true.mpr hpower.2
    have hplus' : c ≠ '+' := ne_of_class hc (by decide)
    have hminus : c ≠ '-' := ne_of_class hc (by decide)
    unfold Decimal.readExponent?
    rcases hplus with rfl | rfl | rfl <;> simp [hno, hall, hplus', hminus]

theorem readUnsigned?_of_number (h : IsNumber cs) :
    ∃ value, Decimal.readUnsigned? cs = some value := by
  obtain @⟨whole, point, part, tail, hwhole, hpoint, hpart, htail⟩ := h
  obtain ⟨n, hn⟩ := readExponent?_of_exponent htail
  have hhead : ∀ c ∈ tail.head?, c.isDigit = false ∧ c ≠ '.' := by
    rcases htail with rfl | hexponent
    · rintro _ ⟨⟩
    · obtain ⟨c, tail, rfl, hc⟩ := hexponent.head
      rintro _ ⟨⟩
      exact hc
  unfold Decimal.readUnsigned?
  rcases hpoint with rfl | rfl
  · have hdigits : ∀ c ∈ whole ++ part, c.isDigit = true := fun c hc =>
      (List.mem_append.mp hc).elim (hwhole c) (hpart.2 c)
    obtain ⟨htake, hdrop⟩ := Decimal.digits_append hdigits fun c hc => (hhead c hc).1
    rw [List.nil_append, ← List.append_assoc, htake, hdrop]
    cases tail with
    | nil => simp [hn, hpart.1]
    | cons c tail => simp [hn, hpart.1, (hhead c rfl).2]
  · have hpointed : ∀ c ∈ ('.' :: (part ++ tail)).head?, c.isDigit = false := by simp
    obtain ⟨htake, hdrop⟩ := Decimal.digits_append hwhole hpointed
    obtain ⟨htake', hdrop'⟩ := Decimal.digits_append hpart.2 fun c hc => (hhead c hc).1
    rw [List.singleton_append, htake, hdrop]
    simp [htake', hdrop', hn, hpart.1]

/-- Every number of the grammar has a value. -/
theorem IsNumber.read? (h : IsNumber cs) : ∃ value, Decimal.read? cs = some value := by
  obtain ⟨value, hvalue⟩ := readUnsigned?_of_number h
  refine ⟨value, ?_⟩
  obtain ⟨c, tail, rfl, hc⟩ := h.head
  have hlower : c.toLower = c := by
    rcases hc with hc | rfl
    · exact Decimal.toLower_of_isDigit hc
    · rfl
  have hother : ∀ other : Char, other.isDigit = false → other ≠ '.' → c ≠ other := by
    intro other hdigit hpoint
    rcases hc with hc | rfl
    · exact ne_of_class hc hdigit
    · exact hpoint.symm
  have hminus := hother '-' (by decide) (by decide)
  have hplus := hother '+' (by decide) (by decide)
  have hi := hother 'i' (by decide) (by decide)
  have hn := hother 'n' (by decide) (by decide)
  have hread : Decimal.read? (c :: tail) = Decimal.readMagnitude? (c :: tail) := by
    simp [Decimal.read?, hminus, hplus]
  rw [hread, ← hvalue]
  unfold Decimal.readMagnitude?
  simp [hlower, hi, hn]

/-! ### One token

The class of a lexeme shows in its first character, and so does that a text is not
finished.
-/

theorem IsIdent.head (h : IsIdent cs) : ∃ c tail, cs = c :: tail ∧ startsIdent c = true := by
  obtain ⟨hstart, -⟩ := h
  exact ⟨_, _, rfl, hstart⟩

/-- A lexeme starts in the same way as the text. -/
theorem exists_of_starts (h : c :: cs <+: text) : ∃ tail, text = c :: tail := by
  obtain ⟨rest, rfl⟩ := h
  exact ⟨cs ++ rest, rfl⟩

theorem number_of_isNumber (h : IsNumber cs) (hstarts : cs <+: text) : number text ≠ [] := by
  obtain ⟨rest, rfl⟩ := hstarts
  obtain ⟨c, tail, rfl, -⟩ := h.head
  have hle := h.length_le rest
  intro hnil
  rw [hnil] at hle
  simp at hle

theorem ident_of_isIdent (h : IsIdent cs) (hstarts : cs <+: text) : ident text ≠ [] := by
  obtain ⟨c, tail, rfl, hstart⟩ := h.head
  obtain ⟨rest, rfl⟩ := exists_of_starts hstarts
  rw [ident, if_pos hstart]
  exact List.cons_ne_nil _ _

/-- Where a name or a symbol stands, there is no number. -/
theorem number_eq_nil_of_starts (h : IsIdent cs ∨ ∃ s : Symbol, cs = s.text.toList)
    (hstarts : cs <+: text) : number text = [] := by
  rcases h with h | ⟨s, rfl⟩
  · obtain ⟨c, tail, rfl, hstart⟩ := h.head
    obtain ⟨rest, rfl⟩ := exists_of_starts hstarts
    exact number_eq_nil (isDigit_of_startsIdent hstart) (ne_of_class hstart (by decide))
  · obtain ⟨c, tail, hc, -, hdigit, -, hpoint, -⟩ := text_symbol s
    obtain ⟨rest, rfl⟩ := exists_of_starts (hc ▸ hstarts)
    exact number_eq_nil hdigit hpoint

/-- Where a symbol stands, there is no name. -/
theorem ident_eq_nil_of_starts {s : Symbol} (hstarts : s.text.toList <+: text) :
    ident text = [] := by
  obtain ⟨c, tail, hc, hstart, -⟩ := text_symbol s
  obtain ⟨rest, rfl⟩ := exists_of_starts (hc ▸ hstarts)
  exact ident_eq_nil hstart

theorem atFinish_iff : atFinish text = true ↔ Finished text := by
  cases text with
  | nil => simp [atFinish, Finished]
  | cons c text => simp [atFinish, Finished]

/-- No lexeme starts where the text is finished. -/
theorem IsLexeme.not_finished (h : IsLexeme cs) (hstarts : cs <+: text) : ¬ Finished text := by
  intro hfinished
  have hhead : ∃ c tail, cs = c :: tail ∧ c ≠ '\n' ∧ c ≠ ';' := by
    cases h with
    | number h =>
        obtain ⟨c, tail, rfl, hdigit | rfl⟩ := h.head
        · exact ⟨c, tail, rfl, ne_of_class hdigit (by decide), ne_of_class hdigit (by decide)⟩
        · exact ⟨'.', tail, rfl, by decide⟩
    | ident h =>
        obtain ⟨c, tail, rfl, hstart⟩ := h.head
        exact ⟨c, tail, rfl, ne_of_class hstart (by decide), ne_of_class hstart (by decide)⟩
    | symbol s =>
        obtain ⟨c, tail, hc, -, -, -, -, hline, hsemicolon⟩ := text_symbol s
        exact ⟨c, tail, hc, hline, hsemicolon⟩
  obtain ⟨c, tail, rfl, hline, hsemicolon⟩ := hhead
  obtain ⟨rest, rfl⟩ := exists_of_starts hstarts
  exact (hfinished c rfl).elim hline hsemicolon

theorem Spells.isLexeme (h : Spells kind lexeme) : IsLexeme lexeme := by
  cases h with
  | number h _ => exact .number h
  | ident h => exact .ident h
  | symbol s => exact .symbol s

/-- The scanner does what the grammar asks. -/
theorem munched_scan (text : List Char) : Munched text (scan text).1 (scan text).2 := by
  unfold scan
  by_cases hfinish : atFinish text = true
  · rw [if_pos hfinish]
    exact .finish (atFinish_iff.mp hfinish)
  rw [if_neg hfinish]
  by_cases hnumber : number text ≠ []
  · obtain ⟨value, hvalue⟩ := (isNumber_number hnumber).read?
    rw [if_pos hnumber, hvalue]
    refine .longest (.number (isNumber_number hnumber) hvalue) (prefix_number text) ?_
    intro other hother hstarts
    cases hother with
    | number h =>
        obtain ⟨rest, rfl⟩ := hstarts
        exact h.length_le rest
    | ident h => exact absurd (number_eq_nil_of_starts (.inl h) hstarts) hnumber
    | symbol s => exact absurd (number_eq_nil_of_starts (.inr ⟨s, rfl⟩) hstarts) hnumber
  rw [if_neg hnumber]
  by_cases hident : ident text ≠ []
  · rw [if_pos hident]
    refine .longest (.ident (isIdent_ident hident)) (prefix_ident text) ?_
    intro other hother hstarts
    cases hother with
    | number h => exact absurd (number_of_isNumber h hstarts) hnumber
    | ident h =>
        obtain ⟨rest, rfl⟩ := hstarts
        exact h.length_le rest
    | symbol s => exact absurd (ident_eq_nil_of_starts hstarts) hident
  rw [if_neg hident]
  cases hsymbol : Symbol.leading? text with
  | some s =>
      obtain ⟨hstarts, hlongest⟩ := leading?_eq_some hsymbol
      refine .longest (.symbol s) hstarts ?_
      intro other hother hother'
      cases hother with
      | number h => exact absurd (number_of_isNumber h hother') hnumber
      | ident h => exact absurd (ident_of_isIdent h hother') hident
      | symbol s' => exact hlongest s' hother'
  | none =>
      cases text with
      | nil => exact absurd rfl hfinish
      | cons c text =>
          refine .invalid rfl (fun h => hfinish (atFinish_iff.mpr h)) ?_
          intro other hother hother'
          cases hother with
          | number h => exact hnumber (number_of_isNumber h hother')
          | ident h => exact hident (ident_of_isIdent h hother')
          | symbol s => exact leading?_eq_none hsymbol s hother'

/-- One lexeme makes one kind of token. -/
theorem Spells.unique {kind' : Kind} (h : Spells kind lexeme) (h' : Spells kind' lexeme) :
    kind = kind' := by
  have hself : lexeme <+: lexeme := List.prefix_refl lexeme
  cases h with
  | number h hvalue =>
      cases h' with
      | number _ hvalue' =>
          rw [hvalue] at hvalue'
          rw [Option.some.inj hvalue']
      | ident h' =>
          exact absurd (number_eq_nil_of_starts (.inl h') hself) (number_of_isNumber h hself)
      | symbol s =>
          exact absurd (number_eq_nil_of_starts (.inr ⟨s, rfl⟩) hself) (number_of_isNumber h hself)
  | ident h =>
      cases h' with
      | number h' _ =>
          exact absurd (number_eq_nil_of_starts (.inl h) hself) (number_of_isNumber h' hself)
      | ident _ => rfl
      | symbol s => exact absurd (ident_eq_nil_of_starts hself) (ident_of_isIdent h hself)
  | symbol s =>
      generalize hs : s.text.toList = lexeme at h' hself
      cases h' with
      | number h' _ =>
          exact absurd (number_eq_nil_of_starts (.inr ⟨s, hs.symm⟩) hself)
            (number_of_isNumber h' hself)
      | ident h' =>
          exact absurd (ident_eq_nil_of_starts (s := s) (by rw [hs])) (ident_of_isIdent h' hself)
      | symbol s' =>
          have hleading : Symbol.leading? (s.text.toList ++ []) = some s :=
            leading?_symbol s (by simp)
          rw [hs, leading?_symbol s' (by simp)] at hleading
          rw [Option.some.inj hleading]

/-- The grammar leaves no choice. -/
theorem Munched.unique {kind' : Kind} {lexeme' : List Char} (h : Munched text kind lexeme)
    (h' : Munched text kind' lexeme') : kind = kind' ∧ lexeme = lexeme' := by
  cases h with
  | finish hfinished =>
      cases h' with
      | finish _ => exact ⟨rfl, rfl⟩
      | longest hspells hstarts _ => exact absurd hfinished (hspells.isLexeme.not_finished hstarts)
      | invalid _ hopen _ => exact absurd hfinished hopen
  | longest hspells hstarts hlongest =>
      cases h' with
      | finish hfinished => exact absurd hfinished (hspells.isLexeme.not_finished hstarts)
      | longest hspells' hstarts' hlongest' =>
          have hle := hlongest' lexeme hspells.isLexeme hstarts
          have hle' := hlongest lexeme' hspells'.isLexeme hstarts'
          obtain rfl : lexeme = lexeme' :=
            (List.prefix_of_prefix_length_le hstarts hstarts' hle).eq_of_length_le hle'
          exact ⟨hspells.unique hspells', rfl⟩
      | invalid _ _ hnone => exact absurd hstarts (hnone lexeme hspells.isLexeme)
  | invalid hhead hopen hnone =>
      cases h' with
      | finish hfinished => exact absurd hfinished hopen
      | longest hspells hstarts _ => exact absurd hstarts (hnone _ hspells.isLexeme)
      | invalid hhead' _ _ =>
          rw [hhead] at hhead'
          exact ⟨rfl, by rw [Option.some.inj hhead']⟩

theorem Munched.scan_eq (h : Munched text kind lexeme) : scan text = (kind, lexeme) := by
  obtain ⟨hkind, hlexeme⟩ := (munched_scan text).unique h
  exact Prod.ext hkind hlexeme

theorem Munched.isPrefix (h : Munched text kind lexeme) : lexeme <+: text := by
  cases h with
  | finish _ => exact List.nil_prefix
  | longest _ hstarts _ => exact hstarts
  | invalid hhead _ _ =>
      obtain ⟨rest, rfl⟩ := List.head?_eq_some_iff.mp hhead
      exact List.prefix_append [_] rest

/-- A name is its lexeme. -/
theorem Munched.ident {name : String} (h : Munched text (.ident name) lexeme) :
    name = String.ofList lexeme ∧ IsIdent lexeme := by
  cases h with
  | longest h _ _ =>
      cases h with
      | ident h => exact ⟨rfl, h⟩

/-- Nothing begins with a character that is invalid. -/
theorem Munched.none_starts (h : Munched text (.invalid .invalidChar) lexeme) :
    ∀ other, IsLexeme other → ¬ other <+: text := by
  cases h with
  | longest h _ _ => cases h
  | invalid _ _ hnone => exact hnone

/-- Only the end has no characters. -/
theorem Munched.ne_nil (h : Munched text kind lexeme) : kind = .finish ∨ lexeme ≠ [] :=
  scan_ne_nil h.scan_eq

/-! ### All tokens of a text -/

/-- The number of bytes of a text. -/
def bytes (cs : List Char) : Nat := (String.ofList cs).utf8ByteSize

/-- A token that stands behind this text. -/
def behind (before : List Char) (kind : Kind) (lexeme : List Char) : Token :=
  ⟨kind, String.ofList lexeme, bytes before, before.length + 1⟩

/-- The tokens lie along a text that stands behind another one.  In front of each of them is
space and nothing else, and the last one is the first that ends the text or is no lexeme. -/
inductive Lexes : (before text : List Char) → List Token → Prop
  | last {before space text lexeme : List Char} {kind : Kind}
      (hspace : ∀ c ∈ space, isSpace c = true) (hstart : ∀ c ∈ text.head?, isSpace c = false)
      (h : Munched text kind lexeme) (hlast : kind.isLast = true) :
      Lexes before (space ++ text) [behind (before ++ space) kind lexeme]
  | more {before space lexeme rest : List Char} {kind : Kind} {ts : List Token}
      (hspace : ∀ c ∈ space, isSpace c = true)
      (hstart : ∀ c ∈ (lexeme ++ rest).head?, isSpace c = false)
      (h : Munched (lexeme ++ rest) kind lexeme) (hopen : kind.isLast = false)
      (hrest : Lexes (before ++ space ++ lexeme) rest ts) :
      Lexes before (space ++ (lexeme ++ rest)) (behind (before ++ space) kind lexeme :: ts)

theorem bytes_append (as bs : List Char) : bytes (as ++ bs) = bytes as + bytes bs := by
  rw [bytes, String.ofList_append, String.utf8ByteSize_append]
  rfl

theorem bytes_cons (c : Char) (cs : List Char) : bytes (c :: cs) = c.utf8Size + bytes cs := by
  rw [bytes, String.ofList_cons, String.utf8ByteSize_append, String.utf8ByteSize_singleton]
  rfl

theorem bytes_space (h : ∀ c ∈ cs, isSpace c = true) : bytes cs = cs.length := by
  induction cs with
  | nil => rfl
  | cons c cs ih =>
      have hc : c.utf8Size = 1 := by
        have hspace := h c List.mem_cons_self
        simp only [isSpace, Bool.or_eq_true, decide_eq_true_eq] at hspace
        rcases hspace with (rfl | rfl) | rfl <;> rfl
      have hcs : bytes cs = cs.length := ih fun c hc => h c (List.mem_cons_of_mem _ hc)
      rw [bytes_cons, hc, hcs, List.length_cons, Nat.add_comm]

variable {before space : List Char} {ts : List Token} {t : Token}

/-- The first token behind some space. -/
theorem next_eq (hspace : ∀ c ∈ space, isSpace c = true)
    (hstart : ∀ c ∈ text.head?, isSpace c = false) (h : Munched text kind lexeme) :
    next (bytes before) (before.length + 1) (space ++ text) =
      (behind (before ++ space) kind lexeme, text.drop lexeme.length) := by
  have htake : (space ++ text).takeWhile isSpace = space :=
    (takeWhile_append_of_head hstart).trans (List.takeWhile_eq_self_iff.mpr hspace)
  have hdrop : (space ++ text).dropWhile isSpace = text := by
    have hsplit : (space ++ text).takeWhile isSpace ++ (space ++ text).dropWhile isSpace =
        space ++ text := List.takeWhile_append_dropWhile
    rw [htake] at hsplit
    exact List.append_cancel_left hsplit
  have hcolumn : before.length + 1 + space.length = (before ++ space).length + 1 := by
    rw [List.length_append]
    omega
  simp only [next, htake, hdrop, h.scan_eq]
  rw [behind, bytes_append, bytes_space hspace, hcolumn]

/-- A last token is the only one. -/
theorem tokenizeFrom_last (hspace : ∀ c ∈ space, isSpace c = true)
    (hstart : ∀ c ∈ text.head?, isSpace c = false) (h : Munched text kind lexeme)
    (hlast : kind.isLast = true) :
    tokenizeFrom (bytes before) (before.length + 1) (space ++ text) =
      [behind (before ++ space) kind lexeme] := by
  rw [tokenizeFrom, dif_pos, next_eq hspace hstart h]
  left
  rw [next_eq hspace hstart h, isLast_eq]
  exact hlast

/-- Behind any other token, the tokens of what is left follow. -/
theorem tokenizeFrom_more (hspace : ∀ c ∈ space, isSpace c = true)
    (hstart : ∀ c ∈ (lexeme ++ rest).head?, isSpace c = false)
    (h : Munched (lexeme ++ rest) kind lexeme) (hopen : kind.isLast = false) :
    tokenizeFrom (bytes before) (before.length + 1) (space ++ (lexeme ++ rest)) =
      behind (before ++ space) kind lexeme ::
        tokenizeFrom (bytes (before ++ space ++ lexeme)) ((before ++ space ++ lexeme).length + 1)
          rest := by
  have hne : lexeme ≠ [] := by
    rcases h.ne_nil with rfl | hne
    · cases hopen
    · exact hne
  have hcolumn : (before ++ space).length + 1 + lexeme.length =
      (before ++ space ++ lexeme).length + 1 := by
    have hlength : (before ++ space ++ lexeme).length = (before ++ space).length + lexeme.length :=
      List.length_append
    omega
  have hlength : (String.ofList lexeme).length = lexeme.length := String.length_ofList
  rw [tokenizeFrom, dif_neg]
  · simp only [next_eq hspace hstart h, List.drop_left]
    rw [bytes_append _ lexeme, ← hcolumn, ← hlength]
    rfl
  · rw [next_eq hspace hstart h, isLast_eq]
    simp [behind, hopen, hne]

/-- Only the tokens that the tokenizer gives lie along a text. -/
theorem Lexes.eq (h : Lexes before cs ts) :
    ts = tokenizeFrom (bytes before) (before.length + 1) cs := by
  induction h with
  | last hspace hstart h hlast => exact (tokenizeFrom_last hspace hstart h hlast).symm
  | more hspace hstart h hopen _ ih => rw [tokenizeFrom_more hspace hstart h hopen, ← ih]

/-- The tokens that the tokenizer gives lie along the text. -/
theorem lexes_tokenizeFrom (before cs : List Char) :
    Lexes before cs (tokenizeFrom (bytes before) (before.length + 1) cs) := by
  -- The text gets shorter with every token, so the induction is on its length.
  induction hn : cs.length using Nat.strong_induction_on generalizing before cs with
  | _ n ih =>
      obtain ⟨space, text, rfl, hspace, hstart⟩ : ∃ space text, cs = space ++ text ∧
          (∀ c ∈ space, isSpace c = true) ∧ ∀ c ∈ text.head?, isSpace c = false := by
        refine ⟨cs.takeWhile isSpace, cs.dropWhile isSpace,
          List.takeWhile_append_dropWhile.symm, fun _ hc => List.mem_takeWhile_imp hc, ?_⟩
        intro c hc
        have hnot := List.head?_dropWhile_not isSpace cs
        rw [Option.mem_def.mp hc] at hnot
        exact hnot
      have hmunched := munched_scan text
      generalize (scan text).1 = kind, (scan text).2 = lexeme at hmunched
      by_cases hlast : kind.isLast = true
      · rw [tokenizeFrom_last hspace hstart hmunched hlast]
        exact .last hspace hstart hmunched hlast
      · have hopen : kind.isLast = false := by simpa using hlast
        obtain ⟨rest, rfl⟩ := hmunched.isPrefix
        rw [tokenizeFrom_more hspace hstart hmunched hopen]
        refine .more hspace hstart hmunched hopen (ih rest.length ?_ _ _ rfl)
        have hne : 0 < lexeme.length := by
          rcases hmunched.ne_nil with rfl | hne
          · cases hopen
          · exact List.length_pos_iff.mpr hne
        rw [← hn, List.length_append, List.length_append]
        omega

/-- The last token, and no other, ends the text or is no lexeme. -/
theorem Lexes.ends (h : Lexes before cs ts) :
    ∃ front last, ts = front ++ [last] ∧ last.isLast = true ∧ ∀ t ∈ front, t.isLast = false := by
  induction h with
  | last _ _ _ hlast => exact ⟨[], _, rfl, hlast, List.forall_mem_nil _⟩
  | more _ _ _ hopen _ ih =>
      obtain ⟨front, last, rfl, hlast, hfront⟩ := ih
      exact ⟨_ :: front, last, rfl, hlast, List.forall_mem_cons.mpr ⟨hopen, hfront⟩⟩

/-- Every token stands behind a part of the text and is munched there. -/
theorem Lexes.place (h : Lexes before cs ts) (ht : t ∈ ts) :
    ∃ between text, cs = between ++ text ∧
      t = behind (before ++ between) t.kind t.lexeme.toList ∧
      Munched text t.kind t.lexeme.toList := by
  have hbehind : ∀ {front text lexeme : List Char} {kind : Kind}, Munched text kind lexeme →
      behind front kind lexeme = behind front (behind front kind lexeme).kind
          (behind front kind lexeme).lexeme.toList ∧
        Munched text (behind front kind lexeme).kind
          (behind front kind lexeme).lexeme.toList := by
    intro front text lexeme kind h
    simpa [behind] using h
  induction h with
  | last _ _ h _ =>
      obtain rfl := List.mem_singleton.mp ht
      exact ⟨_, _, rfl, hbehind h⟩
  | @more before space lexeme rest kind ts _ _ h _ _ ih =>
      rcases List.mem_cons.mp ht with rfl | ht
      · exact ⟨_, _, rfl, hbehind h⟩
      · obtain ⟨between, text, rfl, hplace, hmunched⟩ := ih ht
        exact ⟨space ++ lexeme ++ between, text, by simp, by simpa using hplace, hmunched⟩

/-- Every token starts at a place of the text and is munched there. -/
theorem Lexes.stands (h : Lexes before cs ts) (ht : t ∈ ts) :
    ∃ between text, cs = between ++ text ∧ t.start = bytes (before ++ between) ∧
      Munched text t.kind t.lexeme.toList := by
  obtain ⟨between, text, hcs, hplace, hmunched⟩ := h.place ht
  exact ⟨between, text, hcs, by rw [hplace]; rfl, hmunched⟩

/-- No token starts before the one in front of it has ended. -/
theorem Lexes.pairwise (h : Lexes before cs ts) :
    ts.Pairwise fun t u => t.start + t.size ≤ u.start := by
  induction h with
  | last _ _ _ _ => exact List.pairwise_singleton _ _
  | @more before space lexeme rest kind ts _ _ _ _ hrest ih =>
      refine List.pairwise_cons.mpr ⟨fun t ht => ?_, ih⟩
      obtain ⟨between, text, -, hstart, -⟩ := hrest.stands ht
      have hend : bytes (before ++ space) + bytes lexeme = bytes (before ++ space ++ lexeme) :=
        (bytes_append _ _).symm
      rw [hstart, bytes_append _ between, ← hend]
      exact Nat.le_add_right _ _

theorem Lexes.length_lt_column (h : Lexes before cs ts) (ht : t ∈ ts) :
    before.length < t.column := by
  obtain ⟨between, text, -, hplace, -⟩ := h.place ht
  rw [hplace]
  simp only [behind, List.length_append]
  omega

/-- No two tokens stand at one column, for all but the last have a character. -/
theorem Lexes.columns (h : Lexes before cs ts) : ts.Pairwise fun t u => t.column < u.column := by
  induction h with
  | last _ _ _ _ => exact List.pairwise_singleton _ _
  | @more before space lexeme rest kind ts _ _ h hopen hrest ih =>
      refine List.pairwise_cons.mpr ⟨fun t ht => ?_, ih⟩
      have hbehind := hrest.length_lt_column ht
      have hpos : 0 < lexeme.length := by
        rcases h.ne_nil with rfl | hne
        · cases hopen
        · exact List.length_pos_iff.mpr hne
      simp only [behind, List.length_append] at hbehind ⊢
      omega

/-- The tokenizer is maximal munch over the lexical grammar.  At each place of a text the
grammar leaves one token to take, and the tokens of a text are the only ones that lie along it.
They come one after the other, the last one is the first that ends the text or is no lexeme,
each has a character except for the end, and a number is always read. -/
theorem tokenize_munches (s : String) :
    (∀ text, ∃! token : Kind × List Char, Munched text token.1 token.2) ∧
    (∀ ts, Lexes [] s.toList ts ↔ ts = tokenize s) ∧
    (∃ front last, tokenize s = front ++ [last] ∧ last.isLast = true ∧
      ∀ t ∈ front, t.isLast = false) ∧
    ((tokenize s).Pairwise fun t u => t.start + t.size ≤ u.start) ∧
    ∀ t ∈ tokenize s, t.kind ≠ .invalid .invalidNumber ∧ (t.kind = .finish ∨ 0 < t.size) ∧
      ∃ before after, s.toList = before ++ (t.lexeme.toList ++ after) ∧ t.start = bytes before ∧
        Munched (t.lexeme.toList ++ after) t.kind t.lexeme.toList := by
  have hlexes : Lexes [] s.toList (tokenize s) := lexes_tokenizeFrom [] s.toList
  refine ⟨fun text => ?_, fun ts => ⟨Lexes.eq, fun h => h ▸ hlexes⟩, hlexes.ends, hlexes.pairwise,
    fun t ht => ?_⟩
  · exact ⟨scan text, munched_scan text, fun _ h => h.scan_eq.symm⟩
  · obtain ⟨before, text, htext, hstart, hmunched⟩ := hlexes.stands ht
    refine ⟨?_, ?_, ?_⟩
    · intro hkind
      rw [hkind] at hmunched
      cases hmunched with
      | longest h _ _ => cases h
    · refine hmunched.ne_nil.imp_right fun hne => ?_
      rw [size, Nat.pos_iff_ne_zero, Ne, String.utf8ByteSize_eq_zero_iff]
      intro hempty
      rw [hempty] at hne
      exact hne rfl
    · obtain ⟨after, rfl⟩ := hmunched.isPrefix
      exact ⟨before, after, htext, hstart, hmunched⟩

/-! ### One token at a time -/

theorem splitBytes_append (before after : List Char) :
    splitBytes (bytes before) (before ++ after) = (before, after) := by
  induction before with
  | nil => simp [bytes, splitBytes]
  | cons c before ih =>
      have hpos : 0 < c.utf8Size := c.utf8Size_pos
      obtain ⟨n, hn⟩ : ∃ n, c.utf8Size + bytes before = n + 1 :=
        Nat.exists_eq_add_one.mpr (by omega)
      have hrest : n + 1 - c.utf8Size = bytes before := by omega
      rw [bytes_cons, hn, List.cons_append, splitBytes, hrest, ih]

variable {s : String}

/-- From a place of a text on, the first token is that of the rest. -/
theorem nextAt_eq (hs : s.toList = before ++ cs) :
    nextAt s (bytes before) = (next (bytes before) (before.length + 1) cs).1 := by
  rw [nextAt, hs, splitBytes_append]

/-- The tokens along the rest of a text are those that are read one at a time, each from the
end of the one in front of it on. -/
theorem Lexes.steps (h : Lexes before cs ts) (hs : s.toList = before ++ cs) :
    ts.head? = some (nextAt s (bytes before)) ∧
      ts.IsChain fun t u => u = nextAt s (t.start + t.size) := by
  induction h with
  | last hspace hstart h _ =>
      rw [nextAt_eq hs, next_eq hspace hstart h]
      exact ⟨rfl, .singleton _⟩
  | @more before space lexeme rest kind ts hspace hstart h _ _ ih =>
      obtain ⟨hhead, hchain⟩ := ih (by simpa using hs)
      have hend : (behind (before ++ space) kind lexeme).start +
          (behind (before ++ space) kind lexeme).size = bytes (before ++ space ++ lexeme) :=
        (bytes_append _ _).symm
      refine ⟨?_, List.isChain_cons.mpr ⟨fun u hu => ?_, hchain⟩⟩
      · rw [nextAt_eq hs, next_eq hspace hstart h]
        rfl
      · rw [hhead] at hu
        rw [hend]
        exact (Option.some.inj hu).symm

/-- The tokens of a text can be read one at a time: the first one from its start on, and any
other from the end of the one in front of it on. -/
theorem tokenize_steps (s : String) :
    (tokenize s).head? = some (nextAt s 0) ∧
      (tokenize s).IsChain fun t u => u = nextAt s (t.start + t.size) :=
  Lexes.steps (lexes_tokenizeFrom [] s.toList) rfl

end FormulaPlot.Token
