/-
Reading what was written.

The text of a tree is a phrase of the grammar, at every place and whatever strength
of binding the place asks for.  The tree of that phrase is not always the tree that
was written: a negative number is written with a minus sign, and the parser takes the
sign for a prefix operator.  Folding the constants undoes the difference, so both
trees simplify to the same one.

The induction follows the printer.  For each node it joins two facts: `Spells` says
what the tokens of the text are, whatever comes after it, and `Derives` that they are
a phrase.  The parentheses are where the two tables of precedence, that of the printer
and that of the grammar, have to agree.
-/
import FormulaPlot.Expr.Printer
import FormulaPlot.Proofs.Expr.Equivalence
import FormulaPlot.Proofs.Number.Special
import FormulaPlot.Proofs.Parser.Formula
import FormulaPlot.Proofs.Token.Lexing

namespace FormulaPlot.Expr

open Token (Kind Breaks kindsOf breaks_cons breaks_nil)
open Grammar (Derives DerivesArgs Scope)

/-! ### Trees that can be written -/

/-- The name is an identifier. -/
def IsName (name : String) : Prop :=
  Token.ident name.toList = name.toList ∧ name.toList ≠ []

instance (name : String) : Decidable (IsName name) :=
  inferInstanceAs (Decidable (_ ∧ _))

/-- The text of a finite number is a number of the formula language, after a minus sign if
the number is negative, and reads as the same number. -/
def ReadsBack (value : Float) : Prop :=
  ∃ lexeme, (Decimal.literal value).toList = (if isNegative value then ['-'] else []) ++ lexeme ∧
    Token.number lexeme = lexeme ∧ lexeme ≠ [] ∧
    Decimal.read? (Decimal.literal value).toList = some value

/-- Variables can have these names. -/
structure VariableNames (names : List String) : Prop where
  distinct : names.Nodup
  name : ∀ name ∈ names, IsName name
  /-- The two constants that a number can be written as are not hidden. -/
  nan : "NaN" ∉ names
  infinity : "inf" ∉ names

/-- The names are different identifiers. -/
structure Identifiers (names : List String) : Prop where
  distinct : names.Nodup
  name : ∀ name ∈ names, IsName name

theorem VariableNames.identifiers {names : List String} (h : VariableNames names) :
    Identifiers names := ⟨h.distinct, h.name⟩

/-- If the number is written as the name of a constant, then no variable has that name. -/
structure Unhidden (names : List String) (value : Float) : Prop where
  nan : value.isNaN = true → "NaN" ∉ names
  infinity : value.isInf = true → "inf" ∉ names

instance (names : List String) (value : Float) : Decidable (Unhidden names value) :=
  decidable_of_iff ((value.isNaN = true → "NaN" ∉ names) ∧ (value.isInf = true → "inf" ∉ names))
    ⟨fun h => ⟨h.1, h.2⟩, fun h => ⟨h.nan, h.infinity⟩⟩

/-- The number is the same when its text is read again. -/
structure Legible (names : List String) (value : Float) : Prop extends Unhidden names value where
  finite : value.isFinite = true → ReadsBack value

theorem VariableNames.legible {names : List String} (h : VariableNames names) {value : Float}
    (hback : value.isFinite = true → ReadsBack value) : Legible names value :=
  ⟨⟨fun _ => h.nan, fun _ => h.infinity⟩, hback⟩

mutual

/-- What is in the tree has a name in the scope, and every call has the arguments that it
needs.  There is no clause inside. -/
def Named (s : Scope) : Expr → Prop
  | const _ => True
  | var index => index < s.names.length
  | unary _ e => Named s e
  | binary _ a b => Named s a ∧ Named s b
  | apply f args => f.name ∉ s.names ∧ args.length = f.arity ∧ AllNamed s args
  | call name params body args =>
    (s.functions.get? name = some ⟨name, params, body⟩ ∧ IsName name ∧ name ∉ s.names ∧
      Constant.value? name = none ∧ Intrinsic.ofName? name = none) ∧
    params ≠ [] ∧ args.length = params.length ∧ AllNamed s args
  | ternary c a b => Named s c ∧ Named s a ∧ Named s b
  | limit _ _ => False

/-- The same for each of several trees. -/
def AllNamed (s : Scope) : List Expr → Prop
  | [] => True
  | e :: es => Named s e ∧ AllNamed s es

end

/-- A whole formula, which may end in a clause. -/
def Writable (s : Scope) : Expr → Prop
  | limit e c => Named s e ∧ Named s c
  | e => Named s e

mutual

/-- The constants in a tree. -/
def constants : Expr → List Float
  | const value => [value]
  | var _ => []
  | unary _ e => constants e
  | binary _ a b => constants a ++ constants b
  | apply _ args => allConstants args
  | call _ _ _ args => allConstants args
  | ternary c a b => constants c ++ constants a ++ constants b
  | limit e c => constants e ++ constants c

/-- The constants in several trees. -/
def allConstants : List Expr → List Float
  | [] => []
  | e :: es => constants e ++ allConstants es

end

/-! ### The tokens of a text -/

/-- The characters have tokens of these kinds, whatever comes after them.  They do not start
with an equals sign, which could make a symbol before them a longer one, and stand on one line. -/
structure Spells (cs : List Char) (ks : List Kind) : Prop where
  start : ∃ c tail, cs = c :: tail ∧ c ≠ '='
  line : ∀ c ∈ cs, c ≠ '\n' ∧ c ≠ '\r'
  kinds : ∀ rest, Breaks rest → kindsOf (cs ++ rest) = ks ++ kindsOf rest

theorem line_append {as bs : List Char} (ha : ∀ c ∈ as, c ≠ '\n' ∧ c ≠ '\r')
    (hb : ∀ c ∈ bs, c ≠ '\n' ∧ c ≠ '\r') : ∀ c ∈ as ++ bs, c ≠ '\n' ∧ c ≠ '\r' :=
  List.forall_mem_append.mpr ⟨ha, hb⟩

theorem line_space {cs : List Char} (h : ∀ c ∈ cs, c ≠ '\n' ∧ c ≠ '\r') :
    ∀ c ∈ ' ' :: cs, c ≠ '\n' ∧ c ≠ '\r' := List.forall_mem_cons.mpr ⟨by decide, h⟩

theorem line_symbol (sym : Symbol) : ∀ c ∈ sym.text.toList, c ≠ '\n' ∧ c ≠ '\r' := by
  cases sym <;> simp [Symbol.text]

theorem head?_cons {c : Char} (hc : c ≠ '=') (cs : List Char) :
    ∀ c' ∈ (c :: cs).head?, c' ≠ '=' := by
  intro c' hc'
  cases hc'
  exact hc

namespace Spells

variable {as bs : List Char} {ks ls : List Kind}

theorem start_append (h : Spells as ks) (rest : List Char) :
    ∃ c tail, as ++ rest = c :: tail ∧ c ≠ '=' := by
  obtain ⟨c, tail, rfl, hc⟩ := h.start
  exact ⟨c, tail ++ rest, rfl, hc⟩

theorem head?_append (h : Spells as ks) (rest : List Char) : ∀ c ∈ (as ++ rest).head?, c ≠ '=' := by
  obtain ⟨c, tail, heq, hc⟩ := h.start_append rest
  rw [heq]
  exact head?_cons hc tail

theorem name {name : String} (h : IsName name) : Spells name.toList [.ident name] := by
  obtain ⟨hident, hne⟩ := h
  refine ⟨?_, fun c hc => ?_, ?_⟩
  · obtain ⟨c, tail, hc⟩ := List.exists_cons_of_ne_nil hne
    rw [hc] at hident
    exact ⟨c, tail, hc, Token.ne_of_class (Token.startsIdent_of_ident hident) (by decide)⟩
  · rw [← hident] at hc
    have hclass := Token.mem_ident hc
    exact ⟨Token.ne_of_class hclass (by decide), Token.ne_of_class hclass (by decide)⟩
  · intro rest hrest
    rw [Token.kindsOf_ident hident hne hrest, String.ofList_toList]
    rfl

theorem number {value : Float} (hnumber : Token.number as = as) (hne : as ≠ [])
    (hvalue : Decimal.read? as = some value) : Spells as [.number value] := by
  refine ⟨?_, fun c hc => ?_, fun rest hrest => Token.kindsOf_number hnumber hne hvalue hrest⟩
  · obtain ⟨c, tail, rfl⟩ := List.exists_cons_of_ne_nil hne
    refine ⟨c, tail, rfl, ?_⟩
    rcases Token.isDigit_of_number hnumber with hdigit | rfl
    · exact Token.ne_of_class hdigit (by decide)
    · decide
  · rw [← hnumber] at hc
    rcases Token.mem_number hc with hdigit | hmem
    · exact ⟨Token.ne_of_class hdigit (by decide), Token.ne_of_class hdigit (by decide)⟩
    · clear hc
      simp only [List.mem_cons, List.not_mem_nil, or_false] at hmem
      rcases hmem with rfl | rfl | rfl | rfl | rfl <;> decide

/-- A symbol directly in front of a text. -/
theorem prefixed (h : Spells as ks) (sym : Symbol) (hsym : sym.text.toList.head? ≠ some '=') :
    Spells (sym.text.toList ++ as) (.symbol sym :: ks) := by
  refine ⟨?_, line_append (line_symbol sym) h.line, ?_⟩
  · obtain ⟨c, tail, hc⟩ := List.exists_cons_of_ne_nil (Symbol.toList_text_ne_nil sym)
    refine ⟨c, tail ++ as, by rw [hc]; rfl, ?_⟩
    intro heq
    rw [hc, heq] at hsym
    exact hsym rfl
  · intro rest hrest
    rw [List.append_assoc, Token.kindsOf_symbol sym (h.head?_append rest), h.kinds rest hrest]
    rfl

/-- A text in parentheses. -/
theorem parens (h : Spells as ks) :
    Spells ('(' :: (as ++ [')'])) (.symbol .openParen :: (ks ++ [.symbol .closeParen])) := by
  have hopen : Spells ('(' :: as) (.symbol .openParen :: ks) := h.prefixed .openParen (by decide)
  have hline : ∀ c ∈ '(' :: (as ++ [')']), c ≠ '\n' ∧ c ≠ '\r' :=
    List.forall_mem_cons.mpr ⟨by decide, line_append h.line (by simp)⟩
  refine ⟨⟨'(', as ++ [')'], rfl, by decide⟩, hline, ?_⟩
  intro rest hrest
  have hclose : kindsOf (')' :: rest) = .symbol .closeParen :: kindsOf rest :=
    Token.kindsOf_symbol .closeParen fun c hc => (hrest c hc).2.2
  have hstep := hopen.kinds (')' :: rest) (breaks_cons (by decide))
  rw [hclose] at hstep
  simpa using hstep

/-- Two texts with a symbol between them, and space on both sides of it. -/
theorem infixed (ha : Spells as ks) (hb : Spells bs ls) (sym : Symbol) :
    Spells (as ++ ' ' :: (sym.text.toList ++ ' ' :: bs)) (ks ++ .symbol sym :: ls) := by
  refine ⟨ha.start_append _, line_append ha.line (line_space
    (line_append (line_symbol sym) (line_space hb.line))), ?_⟩
  intro rest hrest
  have hsym : kindsOf (sym.text.toList ++ ' ' :: (bs ++ rest)) =
      .symbol sym :: kindsOf (' ' :: (bs ++ rest)) :=
    Token.kindsOf_symbol sym (head?_cons (by decide) _)
  have heq : as ++ ' ' :: (sym.text.toList ++ ' ' :: bs) ++ rest =
      as ++ ' ' :: (sym.text.toList ++ ' ' :: (bs ++ rest)) := by
    simp
  rw [heq, ha.kinds _ (breaks_cons (by decide)), Token.kindsOf_space (by decide), hsym,
    Token.kindsOf_space (by decide), hb.kinds rest hrest]
  simp

/-- Two texts with nothing but space between them. -/
theorem spaced (ha : Spells as ks) (hb : Spells bs ls) :
    Spells (as ++ ' ' :: bs) (ks ++ ls) := by
  refine ⟨ha.start_append _, line_append ha.line (line_space hb.line), ?_⟩
  intro rest hrest
  rw [List.append_assoc, List.cons_append, ha.kinds _ (breaks_cons (by decide)),
    Token.kindsOf_space (by decide), hb.kinds rest hrest, List.append_assoc]

/-- Two texts with a comma between them. -/
theorem comma (ha : Spells as ks) (hb : Spells bs ls) :
    Spells (as ++ ',' :: ' ' :: bs) (ks ++ .symbol .comma :: ls) := by
  have hline : ∀ c ∈ ',' :: ' ' :: bs, c ≠ '\n' ∧ c ≠ '\r' :=
    List.forall_mem_cons.mpr ⟨by decide, line_space hb.line⟩
  refine ⟨ha.start_append _, line_append ha.line hline, ?_⟩
  intro rest hrest
  have hcomma : kindsOf (',' :: ' ' :: (bs ++ rest)) =
      .symbol .comma :: kindsOf (' ' :: (bs ++ rest)) :=
    Token.kindsOf_symbol .comma (head?_cons (by decide) _)
  rw [List.append_assoc, List.cons_append, List.cons_append, ha.kinds _ (breaks_cons (by decide)),
    hcomma, Token.kindsOf_space (by decide), hb.kinds rest hrest]
  simp

/-- A name directly in front of a parenthesis. -/
theorem call {name : String} (h : IsName name) (ha : Spells as ks) :
    Spells (name.toList ++ '(' :: (as ++ [')']))
      (.ident name :: .symbol .openParen :: (ks ++ [.symbol .closeParen])) := by
  refine ⟨(Spells.name h).start_append _, line_append (Spells.name h).line ha.parens.line, ?_⟩
  intro rest hrest
  have hname := (Spells.name h).kinds ('(' :: (as ++ [')']) ++ rest) (breaks_cons (by decide))
  rw [List.append_assoc, hname, ha.parens.kinds rest hrest]
  rfl

end Spells

/-! ### What is written is a phrase -/

variable {s : Scope} {asked inner : Precedence} {e : Expr}

/-- The text is a phrase that may stand where `asked` is asked for, and its tree simplifies to
the same tree as `e`. -/
def Written (s : Scope) (asked : Precedence) (text : String) (e : Expr) : Prop :=
  ∃ ks again, Spells text.toList ks ∧ Derives s asked ks again ∧ again.simplify = e.simplify

/-- The same for the arguments of a call. -/
def WrittenArgs (s : Scope) (text : String) (es : List Expr) : Prop :=
  ∃ ks again, Spells text.toList ks ∧ DerivesArgs s ks again ∧ again.length = es.length ∧
    simplifyAll again = simplifyAll es

/-- Parentheses stand where the tree binds less strongly than its place asks. -/
theorem written_enclose {text : String} (h : Written s inner text e) (hinner : .ternary ≤ inner) :
    Written s asked (enclose inner asked text) e := by
  obtain ⟨ks, again, hspells, hderives, heq⟩ := h
  unfold enclose
  by_cases hweak : inner < asked
  · rw [if_pos hweak]
    refine ⟨.symbol .openParen :: (ks ++ [.symbol .closeParen]), again, ?_, ?_, heq⟩
    · simpa using hspells.parens
    · have hatom : asked ≤ .atom := by cases asked <;> decide
      exact (Derives.parens (hderives.weaken hinner)).weaken hatom
  · rw [if_neg hweak]
    exact ⟨ks, again, hspells, hderives.weaken (Nat.le_of_not_lt hweak), heq⟩

/-! ### Numbers -/

theorem fold_neg (value : Float) : fold (unary .neg (const value)) = const (-value) := by
  simp [fold, children, isConst, eval, UnaryOp.apply, canonical_eq]

/-- A number that is written as one word. -/
theorem written_word {value : Float} {name : String} (hname : IsName name) (hvar : name ∉ s.names)
    (hvalue : Constant.value? name = some value) : Written s .atom name (const value) :=
  ⟨[.ident name], const value, .name hname, .constant hvar hvalue, rfl⟩

/-- A number with a minus sign in front. -/
theorem written_neg {cs : List Char} {ks : List Kind} {value : Float} {text : String}
    (htext : text.toList = '-' :: cs) (hspells : Spells cs ks)
    (hderives : Derives s .atom ks (const value)) : Written s .unary text (const (-value)) := by
  refine ⟨.symbol .minus :: ks, unary .neg (const value), ?_, ?_, ?_⟩
  · rw [htext]
    exact hspells.prefixed .minus (by decide)
  · exact .unary rfl (hderives.weaken (by decide))
  · simp only [simplify, fold_neg]

/-- The number of a text with a minus sign is that of the text after the sign. -/
theorem read?_neg {cs : List Char} {value : Float} (hne : cs ≠ []) (hnumber : Token.number cs = cs)
    (h : Decimal.read? ('-' :: cs) = some value) :
    ∃ magnitude, Decimal.read? cs = some magnitude ∧ value = -magnitude := by
  obtain ⟨c, tail, rfl⟩ := List.exists_cons_of_ne_nil hne
  have hsign : c ≠ '-' ∧ c ≠ '+' := by
    rcases Token.isDigit_of_number hnumber with hdigit | rfl
    · exact ⟨Token.ne_of_class hdigit (by decide), Token.ne_of_class hdigit (by decide)⟩
    · decide
  rw [Decimal.read?, Option.map_eq_some_iff] at h
  obtain ⟨magnitude, hread, rfl⟩ := h
  refine ⟨magnitude, ?_, rfl⟩
  unfold Decimal.read?
  simp [hsign, hread]

theorem written_infinity {value : Float} (h : value.isInf = true) (hvar : "inf" ∉ s.names) :
    Written s (const value).precedence (Decimal.literal value) (const value) := by
  have hinf : IsName "inf" := by decide
  have hnan : value.isNaN = false := by
    rw [isInf_iff] at h
    rw [← Bool.not_eq_true, isNaN_iff]
    exact fun hno => hno.2 h.2
  have hvalue := eq_infinity h
  unfold precedence Decimal.literal Decimal.Layout.write
  simp only [hnan, h]
  by_cases hneg : isNegative value = true
  · rw [if_pos hneg] at hvalue
    simp only [hneg]
    rw [hvalue]
    exact written_neg rfl (Spells.name hinf) (.constant hvar rfl)
  · rw [if_neg hneg] at hvalue
    simp only [hneg]
    rw [hvalue]
    exact written_word hinf hvar rfl

theorem written_finite {value : Float} (hback : ReadsBack value) :
    Written s (const value).precedence (Decimal.literal value) (const value) := by
  obtain ⟨lexeme, htext, hnumber, hne, hread⟩ := hback
  unfold precedence
  by_cases hneg : isNegative value = true
  · rw [if_pos hneg] at htext
    rw [htext] at hread
    simp only [hneg]
    obtain ⟨magnitude, hmagnitude, rfl⟩ := read?_neg hne hnumber hread
    exact written_neg htext (Spells.number hnumber hne hmagnitude) (.number magnitude)
  · rw [if_neg hneg] at htext
    rw [htext] at hread
    simp only [hneg]
    refine ⟨[.number value], const value, ?_, .number value, rfl⟩
    rw [htext]
    exact Spells.number hnumber hne hread

theorem written_const {value : Float} (hvalue : Legible s.names value) :
    Written s asked (write s.names asked (const value)) (const value) := by
  have hstrong : .ternary ≤ (const value).precedence := by
    show .ternary ≤ if isNegative value = true then Precedence.unary else Precedence.atom
    by_cases hneg : isNegative value = true
    · rw [if_pos hneg]
      decide
    · rw [if_neg hneg]
      decide
  refine written_enclose ?_ hstrong
  by_cases hnan : value.isNaN = true
  · have hname : IsName "NaN" := by decide
    have hvar := hvalue.nan hnan
    obtain rfl := eq_nan hnan
    exact written_word hname hvar rfl
  · by_cases hinf : value.isInf = true
    · exact written_infinity hinf (hvalue.infinity hinf)
    · refine written_finite (hvalue.finite ?_)
      rw [isFinite_eq, Bool.and_eq_true, Bool.not_eq_true', Bool.not_eq_true']
      exact ⟨Bool.eq_false_iff.mpr hnan, Bool.eq_false_iff.mpr hinf⟩

/-! ### Names and calls -/

theorem written_var (hnames : Identifiers s.names) {index : Nat} (h : index < s.names.length) :
    Written s asked (write s.names asked (var index)) (var index) := by
  have hindex : s.names[index]? = some s.names[index] := List.getElem?_eq_getElem h
  have hname : IsName s.names[index] := hnames.name _ (List.getElem_mem h)
  have hatom : asked ≤ .atom := by cases asked <;> decide
  unfold write variableText
  rw [hindex]
  refine ⟨[.ident s.names[index]], var index, .name hname, ?_, rfl⟩
  refine (Derives.variable hindex ?_).weaken hatom
  intro j hj hsame
  obtain ⟨hj', hsame⟩ := List.getElem?_eq_some_iff.mp hsame
  have heq := (List.getElem_inj hnames.distinct).mp hsame
  omega

/-- The call of a function under its name. -/
theorem written_call {name : String} {f : Parser.Callee} {args : List Expr} {text : String}
    (hname : IsName name) (hvar : name ∉ s.names) (hconst : Constant.value? name = none)
    (hf : s.Calls name f) (harity : args.length = f.arity) (hargs : WrittenArgs s text args) :
    Written s asked (name ++ "(" ++ text ++ ")") (f.applyTo args) := by
  obtain ⟨ks, again, hspells, hderives, hlength, heq⟩ := hargs
  have hatom : asked ≤ .atom := by cases asked <;> decide
  have hcall := Derives.call hvar hconst hf hderives (hlength.trans harity)
  refine ⟨_, f.applyTo again, ?_, hcall.weaken hatom, ?_⟩
  · simpa using Spells.call hname hspells
  · cases f with
    | intrinsic f => simp only [Parser.Callee.applyTo, simplify, heq]
    | user f => simp only [Parser.Callee.applyTo, callOf, simplify, heq]

theorem written_apply {f : Intrinsic} {args : List Expr} (hvar : f.name ∉ s.names)
    (harity : args.length = f.arity) (hargs : WrittenArgs s (writeArgs s.names args) args) :
    Written s asked (write s.names asked (apply f args)) (apply f args) := by
  have hname : IsName f.name := by cases f <;> decide
  have hconst : Constant.value? f.name = none := by cases f <;> decide
  have hf : Intrinsic.ofName? f.name = some f := by cases f <;> decide
  unfold write
  exact written_call (f := .intrinsic f) hname hvar hconst (.intrinsic hf) harity hargs

theorem length_pos_of_arity (f : Intrinsic) : 0 < f.arity := by cases f <;> decide

/-! ### Operators -/

theorem written_unary {op : UnaryOp} (h : Written s .unary (write s.names .unary e) e) :
    Written s asked (write s.names asked (unary op e)) (unary op e) := by
  obtain ⟨ks, again, hspells, hderives, heq⟩ := h
  unfold write
  refine written_enclose ?_ (by decide)
  obtain ⟨sym, htext, hop, hstart⟩ : ∃ sym : Symbol, op.text = sym.text ∧
      Grammar.prefixOp? sym = some op ∧ sym.text.toList.head? ≠ some '=' := by
    cases op
    · exact ⟨.minus, rfl, rfl, by decide⟩
    · exact ⟨.not, rfl, rfl, by decide⟩
  refine ⟨.symbol sym :: ks, unary op again, ?_, .unary hop hderives, ?_⟩
  · rw [String.toList_append, htext]
    exact hspells.prefixed sym hstart
  · simp only [simplify, heq]

theorem written_binary {op : BinaryOp} {a b : Expr}
    (ha : Written s op.leftMin (write s.names op.leftMin a) a)
    (hb : Written s op.rightMin (write s.names op.rightMin b) b) :
    Written s asked (write s.names asked (binary op a b)) (binary op a b) := by
  obtain ⟨ks, left, hspells, hderives, heq⟩ := ha
  obtain ⟨ls, right, hspells', hderives', heq'⟩ := hb
  have hlow : .ternary ≤ op.precedence := by cases op <;> decide
  obtain ⟨sym, htext, hop⟩ : ∃ sym : Symbol, op.text = sym.text ∧
      BinaryOp.ofSymbol? sym = some op := by
    cases op
    · exact ⟨.plus, rfl, rfl⟩
    · exact ⟨.minus, rfl, rfl⟩
    · exact ⟨.star, rfl, rfl⟩
    · exact ⟨.slash, rfl, rfl⟩
    · exact ⟨.percent, rfl, rfl⟩
    · exact ⟨.caret, rfl, rfl⟩
    · exact ⟨.equal, rfl, rfl⟩
    · exact ⟨.notEqual, rfl, rfl⟩
    · exact ⟨.less, rfl, rfl⟩
    · exact ⟨.lessEqual, rfl, rfl⟩
    · exact ⟨.greater, rfl, rfl⟩
    · exact ⟨.greaterEqual, rfl, rfl⟩
    · exact ⟨.and, rfl, rfl⟩
    · exact ⟨.or, rfl, rfl⟩
  unfold write
  refine written_enclose ?_ hlow
  refine ⟨ks ++ .symbol sym :: ls, binary op left right, ?_, .binary hop hderives hderives', ?_⟩
  · simpa [htext] using hspells.infixed hspells' sym
  · simp only [simplify, heq, heq']

theorem written_ternary {c a b : Expr}
    (hc : Written s .disjunction (write s.names .disjunction c) c)
    (ha : Written s .disjunction (write s.names .disjunction a) a)
    (hb : Written s .ternary (write s.names .ternary b) b) :
    Written s asked (write s.names asked (ternary c a b)) (ternary c a b) := by
  obtain ⟨cs, cond, hcond, hc, heqc⟩ := hc
  obtain ⟨ks, yes, hyes, ha, heqa⟩ := ha
  obtain ⟨ls, no, hno, hb, heqb⟩ := hb
  unfold write
  refine written_enclose ?_ (by decide)
  refine ⟨_, ternary cond yes no, ?_, .ternary hc ha hb, ?_⟩
  · simpa [Symbol.text] using hcond.infixed (hyes.infixed hno .colon) .question
  · simp only [simplify, heqc, heqa, heqb]

/-- A clause stands at the end of a whole formula. -/
theorem written_limit {c : Expr} (he : Written s .ternary (write s.names .ternary e) e)
    (hc : Written s .ternary (write s.names .ternary c) c) :
    Written s .clause (write s.names .clause (limit e c)) (limit e c) := by
  obtain ⟨ks, body, hbody, he, heqe⟩ := he
  obtain ⟨ls, cond, hcond, hc, heqc⟩ := hc
  have hwhere : Spells "where".toList [.ident "where"] := Spells.name (by decide)
  unfold write enclose
  rw [if_neg (by decide)]
  refine ⟨_, limit body cond, ?_, .clause he hc, ?_⟩
  · simpa using hbody.comma (hwhere.spaced hcond)
  · simp only [simplify, heqe, heqc]

/-! ### The induction -/

mutual

/-- What is written at any place is a phrase for that place. -/
theorem written {e : Expr} (hnames : Identifiers s.names) (h : Named s e)
    (hlegible : ∀ value ∈ constants e, Legible s.names value) (asked : Precedence) :
    Written s asked (write s.names asked e) e := by
  cases e with
  | const value => exact written_const (hlegible value (by simp [constants]))
  | var index => exact written_var hnames h
  | unary op e => exact written_unary (written (e := e) hnames h hlegible .unary)
  | binary op a b =>
      simp only [constants, List.mem_append] at hlegible
      obtain ⟨ha, hb⟩ := h
      exact written_binary (written hnames ha (fun v hv => hlegible v (.inl hv)) op.leftMin)
        (written hnames hb (fun v hv => hlegible v (.inr hv)) op.rightMin)
  | apply f args =>
      obtain ⟨hvar, harity, hargs⟩ := h
      have hne : args ≠ [] := by
        have := length_pos_of_arity f
        exact List.ne_nil_of_length_pos (by omega)
      exact written_apply hvar harity (writtenArgs hnames hne hargs hlegible)
  | call name params body args =>
      obtain ⟨⟨hget, hname, hvar, hconst, hintrinsic⟩, hparams, harity, hargs⟩ := h
      have hne : args ≠ [] := by
        have := List.length_pos_iff.mpr hparams
        exact List.ne_nil_of_length_pos (by omega)
      unfold write
      exact written_call (f := .user ⟨name, params, body⟩) hname hvar hconst
        (.user hintrinsic hget) harity (writtenArgs hnames hne hargs hlegible)
  | ternary c a b =>
      simp only [constants, List.mem_append] at hlegible
      obtain ⟨hc, ha, hb⟩ := h
      exact written_ternary
        (written hnames hc (fun v hv => hlegible v (.inl (.inl hv))) .disjunction)
        (written hnames ha (fun v hv => hlegible v (.inl (.inr hv))) .disjunction)
        (written hnames hb (fun v hv => hlegible v (.inr hv)) .ternary)
  | limit e c => exact absurd h id

/-- One or more arguments are written as arguments. -/
theorem writtenArgs {es : List Expr} (hnames : Identifiers s.names) (hne : es ≠ [])
    (h : AllNamed s es)
    (hlegible : ∀ value ∈ allConstants es, Legible s.names value) :
    WrittenArgs s (writeArgs s.names es) es := by
  cases es with
  | nil => exact absurd rfl hne
  | cons e es =>
      simp only [allConstants, List.mem_append] at hlegible
      obtain ⟨he, hes⟩ := h
      obtain ⟨ks, again, hspells, hderives, heq⟩ :=
        written hnames he (fun v hv => hlegible v (.inl hv)) .ternary
      cases es with
      | nil => exact ⟨ks, [again], hspells, .last hderives, rfl, by simp only [simplifyAll, heq]⟩
      | cons e' es =>
          obtain ⟨ls, others, hspells', hderives', hlength, heq'⟩ :=
            writtenArgs hnames (List.cons_ne_nil e' es) hes (fun v hv => hlegible v (.inr hv))
          refine ⟨ks ++ .symbol .comma :: ls, again :: others, ?_, .more hderives hderives', ?_, ?_⟩
          · unfold writeArgs
            simpa using hspells.comma hspells'
          · simp only [List.length_cons, hlength]
          · rw [simplifyAll, simplifyAll, heq, heq']

end

/-- The text of a whole formula is a phrase. -/
theorem written_text (hnames : Identifiers s.names) (h : Writable s e)
    (hlegible : ∀ value ∈ constants e, Legible s.names value) :
    Written s .clause (text s.names e) e := by
  unfold text
  cases e with
  | limit e c =>
      simp only [constants, List.mem_append] at hlegible
      obtain ⟨he, hc⟩ := h
      exact written_limit (written hnames he (fun v hv => hlegible v (.inl hv)) .ternary)
        (written hnames hc (fun v hv => hlegible v (.inr hv)) .ternary)
  | _ => exact written hnames h hlegible .clause

/-! ### Reading it back -/

/-- The parser gives back the tree that was written, with its constants folded, and only
depth can keep it from doing so. -/
theorem parse_text (functions : Registry) (names : List String) (e : Expr)
    (hnames : VariableNames names) (h : Writable ⟨names, functions⟩ e)
    (hback : ∀ value ∈ constants e, value.isFinite = true → ReadsBack value) :
    (∃ again, Parser.parse (text names e) functions names = .ok again ∧
        again.isEquivalent e.simplify = true) ∨
      ∃ error, Parser.parse (text names e) functions names = .error error ∧
        error.message = "Expression too deeply nested." := by
  obtain ⟨ks, again, hspells, hderives, heq⟩ :=
    written_text (s := ⟨names, functions⟩) hnames.identifiers h
      fun value hvalue => hnames.legible (hback value hvalue)
  have hkinds := hspells.kinds [] breaks_nil
  rw [List.append_nil, Token.kindsOf_nil] at hkinds
  have hphrase : Parser.phrase (text names e) = ks := Parser.phrase_eq hkinds hderives.proper
  rw [← hphrase] at hderives
  unfold Parser.parse
  rcases Parser.read_of_derives hderives with hread | ⟨column, hread⟩
  · left
    rw [hread]
    refine ⟨again.simplify, rfl, ?_⟩
    rw [heq]
    exact isEquivalent_refl _
  · right
    rw [hread]
    exact ⟨_, rfl, rfl⟩

set_option maxRecDepth 10000 in
/-- A negative number after a minus sign keeps a sign of its own. -/
theorem parse_text_sub_neg :
    text ["x"] (binary .sub (callOf ⟨"f", ["a"], var 0⟩ [var 0]) (const (-1.5))) =
        "f(x) - -1.5" ∧
      ((∃ again, Parser.parse
          (text ["x"] (binary .sub (callOf ⟨"f", ["a"], var 0⟩ [var 0]) (const (-1.5))))
          ⟨[⟨"f", ["a"], var 0⟩]⟩ ["x"] = .ok again ∧
          again.isEquivalent
            (binary .sub (callOf ⟨"f", ["a"], var 0⟩ [var 0]) (const (-1.5))).simplify = true) ∨
        ∃ error, Parser.parse
          (text ["x"] (binary .sub (callOf ⟨"f", ["a"], var 0⟩ [var 0]) (const (-1.5))))
          ⟨[⟨"f", ["a"], var 0⟩]⟩ ["x"] = .error error ∧
          error.message = "Expression too deeply nested.") := by
  have hnames : VariableNames ["x"] := ⟨by decide, by decide, by decide, by decide⟩
  have hback : ReadsBack (-1.5) :=
    ⟨"1.5".toList, by decide +kernel, by decide, by decide, by decide +kernel⟩
  refine ⟨by decide +kernel, parse_text _ _ _ hnames ?_ ?_⟩
  · refine ⟨⟨⟨rfl, ?_⟩, ?_, rfl, Nat.zero_lt_one, trivial⟩, trivial⟩
    · decide
    · decide
  · intro value hvalue _
    obtain rfl : value = -1.5 := by
      simpa [constants, allConstants, callOf] using hvalue
    exact hback

end FormulaPlot.Expr
