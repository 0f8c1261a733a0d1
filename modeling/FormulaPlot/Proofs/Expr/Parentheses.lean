/-
As few parentheses as possible.

A tree is written with no more opening parentheses than any text has that is read as this tree.
The induction is on the derivation of that text, and at each phrase it is enough that the tree is
written no worse at the place where the phrase stands.  The printer asks for the same strength of
binding at a place as the grammar does, so it puts a tree in parentheses only where the grammar
has no phrase without them: such a phrase is an atom, and then the parentheses are in the text.

The grammar asks for an atom at one place only, inside an atom, where the printer never asks for
more than a unary operator.  So a number is never put in parentheses, not even a negative one.
-/
import FormulaPlot.Proofs.Decimal.Plain
import FormulaPlot.Proofs.Parser.Closure

namespace FormulaPlot.Expr

open Token (Kind)
open Grammar (Derives DerivesArgs Scope)

variable {s : Scope} {asked p : Precedence} {ks ls : List Kind} {e : Expr} {es : List Expr}

/-! ### Opening parentheses -/

/-- The number of opening parentheses in a text. -/
def parens (text : String) : Nat := text.toList.count '('

/-- The kind of token is an opening parenthesis. -/
def opens : Kind → Bool
  | .symbol .openParen => true
  | _ => false

/-- The number of opening parentheses among tokens. -/
def parensOf (ks : List Kind) : Nat := ks.countP opens

@[simp] theorem parens_append (s t : String) : parens (s ++ t) = parens s + parens t := by
  simp [parens]

theorem parens_eq_zero {text : String} : parens text = 0 ↔ '(' ∉ text.toList :=
  List.count_eq_zero

@[simp] theorem parensOf_append (ks ls : List Kind) :
    parensOf (ks ++ ls) = parensOf ks + parensOf ls := List.countP_append

theorem parensOf_le_cons (k : Kind) (ks : List Kind) : parensOf ks ≤ parensOf (k :: ks) :=
  (List.sublist_cons_self k ks).countP_le

/-- What stands between two phrases only adds to their parentheses. -/
theorem parensOf_le_infixed (ks : List Kind) (k : Kind) (ls : List Kind) :
    parensOf ks + parensOf ls ≤ parensOf (ks ++ k :: ls) := by
  rw [parensOf_append]
  exact Nat.add_le_add_left (parensOf_le_cons k ls) _

theorem parensOf_enclosed (ks : List Kind) :
    parensOf (.symbol .openParen :: (ks ++ [.symbol .closeParen])) = parensOf ks + 1 := by
  have hclose : parensOf [.symbol .closeParen] = 0 := rfl
  rw [parensOf, List.countP_cons_of_pos rfl, ← parensOf, parensOf_append, hclose, Nat.add_zero]

/-- Parentheses cost one where they are put. -/
theorem parens_enclose (inner asked : Precedence) (text : String) :
    parens (enclose inner asked text) = parens text + if inner < asked then 1 else 0 := by
  unfold enclose
  split
  · have hopen : parens "(" = 1 := by decide
    have hclose : parens ")" = 0 := by decide
    rw [parens_append, parens_append, hopen, hclose]
    omega
  · rfl

/-! ### Texts without parentheses -/

/-- The name of a token has no parenthesis in it. -/
def Plain (ks : List Kind) : Prop := ∀ name, Kind.ident name ∈ ks → parens name = 0

theorem Plain.left (h : Plain (ks ++ ls)) : Plain ks := fun name hname =>
  h name (List.mem_append_left ls hname)

theorem Plain.right (h : Plain (ks ++ ls)) : Plain ls := fun name hname =>
  h name (List.mem_append_right ks hname)

theorem Plain.tail {k : Kind} (h : Plain (k :: ks)) : Plain ks := fun name hname =>
  h name (List.mem_cons_of_mem k hname)

/-- No name that stands in a text has a parenthesis in it. -/
theorem plain_phrase (text : String) : Plain (Parser.phrase text) := by
  intro name hname
  obtain ⟨t, ht, hkind⟩ := List.mem_map.mp ((List.takeWhile_sublist _).subset hname)
  rw [parens_eq_zero]
  intro hmem
  rw [← (Token.isName_of_mem ht hkind).1] at hmem
  exact absurd (Token.mem_ident hmem) (by decide)

theorem parens_literal (value : Float) : parens (Decimal.literal value) = 0 := by
  rcases Decimal.special_or_finite value with hspecial | ⟨hfinite, -⟩
  · simp only [List.mem_cons, List.not_mem_nil, or_false] at hspecial
    rcases hspecial with rfl | rfl | rfl | rfl | rfl <;> decide +kernel
  · obtain ⟨lexeme, htext, hnumber, -⟩ := Decimal.readsBack hfinite
    rw [parens_eq_zero, htext]
    intro hmem
    rcases List.mem_append.mp hmem with hsign | hmem
    · split at hsign <;> simp at hsign
    · rw [← hnumber] at hmem
      rcases Token.mem_number hmem with hdigit | hmark
      · exact absurd hdigit (by decide)
      · exact absurd hmark (by decide)

/-! ### What a place costs -/

theorem enclose_clause (inner : Precedence) (text : String) : enclose inner .clause text = text :=
  if_neg (Nat.not_lt_zero _)

theorem enclose_atom (asked : Precedence) (text : String) : enclose .atom asked text = text :=
  if_neg (by cases asked <;> decide)

/-- At every place a tree is written as it would be on its own, in parentheses or without. -/
theorem write_eq_enclose (names : List String) (asked : Precedence) (e : Expr) :
    write names asked e = enclose e.precedence asked (text names e) := by
  unfold text
  cases e with
  | var _ | apply _ _ | call _ _ _ _ =>
      rw [precedence, enclose_atom]
      simp only [write]
  | const _ | unary _ _ | binary _ _ _ | ternary _ _ _ | limit _ _ =>
      simp only [write, enclose_clause, precedence]

/-- The parentheses of a tree do not depend on its place, but for a pair around it. -/
theorem parens_write (names : List String) (asked : Precedence) (e : Expr) :
    parens (write names asked e) =
      parens (text names e) + if e.precedence < asked then 1 else 0 := by
  rw [write_eq_enclose, parens_enclose]

/-- A place that asks for no more than a tree has costs nothing. -/
theorem parens_write_of_le (names : List String) (h : asked ≤ e.precedence) :
    parens (write names asked e) = parens (text names e) := by
  have hstrong : ¬ e.precedence < asked := Nat.not_lt.mpr h
  rw [parens_write, if_neg hstrong, Nat.add_zero]

/-- No place costs more than a pair. -/
theorem parens_write_le_succ (names : List String) (asked asked' : Precedence) (e : Expr) :
    parens (write names asked e) ≤ parens (write names asked' e) + 1 := by
  rw [parens_write, parens_write names asked']
  split <;> omega

/-! ### What is written between the parentheses -/

theorem parens_unary (names : List String) (op : UnaryOp) (e : Expr) :
    parens (text names (unary op e)) = parens (write names .unary e) := by
  have hop : parens op.text = 0 := by cases op <;> decide
  rw [text, write, enclose_clause, parens_append, hop, Nat.zero_add]

theorem parens_binary (names : List String) (op : BinaryOp) (a b : Expr) :
    parens (text names (binary op a b)) =
      parens (write names op.leftMin a) + parens (write names op.rightMin b) := by
  have hop : parens op.text = 0 := by cases op <;> decide
  have hspace : parens " " = 0 := by decide
  rw [text, write, enclose_clause]
  simp only [parens_append, hop, hspace, Nat.add_zero]

theorem parens_ternary (names : List String) (c a b : Expr) :
    parens (text names (ternary c a b)) = parens (write names .disjunction c) +
      parens (write names .disjunction a) + parens (write names .ternary b) := by
  have hthen : parens " ? " = 0 := by decide
  have helse : parens " : " = 0 := by decide
  rw [text, write, enclose_clause]
  simp only [parens_append, hthen, helse, Nat.add_zero]

theorem parens_limit (names : List String) (e c : Expr) :
    parens (text names (limit e c)) =
      parens (write names .ternary e) + parens (write names .ternary c) := by
  have hwhere : parens ", where " = 0 := by decide
  rw [text, write, enclose_clause]
  simp only [parens_append, hwhere, Nat.add_zero]

theorem parens_call (name text : String) :
    parens (name ++ "(" ++ text ++ ")") = parens name + 1 + parens text := by
  have hopen : parens "(" = 1 := by decide
  have hclose : parens ")" = 0 := by decide
  simp only [parens_append, hopen, hclose, Nat.add_zero]

theorem parens_args (names : List String) (e : Expr) (hes : es ≠ []) :
    parens (writeArgs names (e :: es)) =
      parens (write names .ternary e) + parens (writeArgs names es) := by
  have hcomma : parens ", " = 0 := by decide
  obtain ⟨e', es, rfl⟩ := List.exists_cons_of_ne_nil hes
  rw [writeArgs]
  · simp only [parens_append, hcomma, Nat.add_zero]
  · exact List.cons_ne_nil e' es

/-- A call is written with the name that it was made by. -/
theorem text_of_calls {name : String} {f : Parser.Callee} (h : s.Calls name f)
    (names : List String) (args : List Expr) :
    text names (f.applyTo args) = name ++ "(" ++ writeArgs names args ++ ")" := by
  cases h with
  | @intrinsic f hname =>
      obtain rfl := name_of_ofName? hname
      rw [Parser.Callee.applyTo, text, write]
  | @user f _ hget =>
      obtain ⟨-, rfl⟩ := Registry.mem_of_get? hget
      rw [Parser.Callee.applyTo, callOf, text, write]

/-! ### What a phrase costs -/

/-- A number binds as strongly as any place of the printer asks. -/
theorem parens_const (names : List String) (value : Float) (hasked : asked ≤ .unary) :
    parens (write names asked (const value)) = 0 := by
  have hstrong : .unary ≤ (const value).precedence := by
    rw [precedence]
    split <;> decide
  rw [parens_write_of_le names (Nat.le_trans hasked hstrong), text, write, enclose_clause,
    parens_literal]

mutual

/-- A tree is written with no more parentheses than its phrase has, at each place that asks for
no more than the phrase has and than a unary operator. -/
theorem parens_le_of_derives {p : Precedence} {ks : List Kind} {e : Expr} :
    Derives s p ks e → Plain ks → ∀ asked, asked ≤ p → asked ≤ .unary →
      parens (write s.names asked e) ≤ parensOf ks
  | .number value, _, asked, _, hunary => by
      rw [parens_const s.names value hunary]
      exact Nat.zero_le _
  | @Derives.constant _ _ value _ _, _, asked, _, hunary => by
      rw [parens_const s.names value hunary]
      exact Nat.zero_le _
  | @Derives.variable _ name i h _, hplain, asked, hatom, _ => by
      have hname : parens name = 0 := hplain name List.mem_cons_self
      rw [parens_write_of_le s.names hatom, text, write, variableText, h, Option.getD_some, hname]
      exact Nat.zero_le _
  | @Derives.call _ name f ks args _ _ hf hargs _, hplain, asked, hatom, _ => by
      have hname : parens name = 0 := hplain name List.mem_cons_self
      have hstrong : asked ≤ (f.applyTo args).precedence := by cases f <;> exact hatom
      have hle := parens_le_of_derivesArgs hargs hplain.tail.tail.left
      have hcall := parensOf_le_cons (.ident name)
        (.symbol .openParen :: (ks ++ [.symbol .closeParen]))
      rw [parens_write_of_le s.names hstrong, text_of_calls hf, parens_call, hname]
      rw [parensOf_enclosed] at hcall
      omega
  | @Derives.parens _ ks e h, hplain, asked, _, _ => by
      have hle := parens_le_of_derives h hplain.tail.left .ternary (by decide) (by decide)
      have hpair := parens_write_le_succ s.names asked .ternary e
      rw [parensOf_enclosed]
      omega
  | @Derives.unary _ sym op ks e _ h, hplain, asked, hasked, _ => by
      have hle := parens_le_of_derives h hplain.tail .unary (by decide) (by decide)
      rw [parens_write_of_le s.names (e := .unary op e) hasked, parens_unary]
      exact Nat.le_trans hle (parensOf_le_cons _ ks)
  | @Derives.power _ ls rs a b ha hb, hplain, asked, hasked, _ => by
      have hleft := parens_le_of_derives ha hplain.left .unary (by decide) (by decide)
      have hright := parens_le_of_derives hb hplain.right.tail .power (by decide) (by decide)
      rw [parens_write_of_le s.names (e := .binary .pow a b) hasked, parens_binary]
      exact Nat.le_trans (Nat.add_le_add hleft hright) (parensOf_le_infixed ls _ rs)
  | @Derives.chain _ p sym op ls rs a b hop ha hb, hplain, asked, hasked, _ => by
      obtain ⟨-, hprec, hleftMin, hrightMin, -⟩ := Grammar.chainOp?_eq_some hop
      have hlow : op.precedence ≤ .unary ∧ op.precedence.next ≤ .unary := by cases op <;> decide
      rw [hprec] at hlow
      have hleft := parens_le_of_derives ha hplain.left p (Nat.le_refl _) hlow.1
      have hright := parens_le_of_derives hb hplain.right.tail p.next (Nat.le_refl _) hlow.2
      have hstrong : asked ≤ (Expr.binary op a b).precedence := by
        rw [precedence, hprec]
        exact hasked
      rw [parens_write_of_le s.names hstrong, parens_binary, hleftMin, hrightMin]
      exact Nat.le_trans (Nat.add_le_add hleft hright) (parensOf_le_infixed ls _ rs)
  | @Derives.ternary _ cs ys ns c y n hc hy hn, hplain, asked, hasked, _ => by
      have hcond := parens_le_of_derives hc hplain.left .disjunction (by decide) (by decide)
      have hyes := parens_le_of_derives hy hplain.right.tail.left .disjunction (by decide)
        (by decide)
      have hno := parens_le_of_derives hn hplain.right.tail.right.tail .ternary (by decide)
        (by decide)
      have hchoice := parensOf_le_infixed cs (.symbol .question) (ys ++ .symbol .colon :: ns)
      have hbranches := parensOf_le_infixed ys (.symbol .colon) ns
      rw [parens_write_of_le s.names (e := .ternary c y n) hasked, parens_ternary]
      omega
  | @Derives.clause _ es cs e c he hc, hplain, asked, hasked, _ => by
      have hinner := parens_le_of_derives he hplain.left .ternary (by decide) (by decide)
      have hcond := parens_le_of_derives hc hplain.right.tail.tail .ternary (by decide) (by decide)
      have hclause := parensOf_le_infixed es (.symbol .comma) (.ident "where" :: cs)
      have hwhere := parensOf_le_cons (.ident "where") cs
      rw [parens_write_of_le s.names (e := .limit e c) hasked, parens_limit]
      omega
  | @Derives.stronger _ p ks e _ h, hplain, asked, hasked, hunary =>
      parens_le_of_derives h hplain asked (Nat.le_trans hasked p.le_next) hunary

/-- The arguments of a call are written with no more parentheses than there are between them. -/
theorem parens_le_of_derivesArgs {ks : List Kind} {es : List Expr} :
    DerivesArgs s ks es → Plain ks → parens (writeArgs s.names es) ≤ parensOf ks
  | .last h, hplain => by
      rw [writeArgs]
      exact parens_le_of_derives h hplain .ternary (by decide) (by decide)
  | @DerivesArgs.more _ ks ls e es h hs, hplain => by
      have hne : es ≠ [] := by
        rintro rfl
        cases hs
      have hfirst := parens_le_of_derives h hplain.left .ternary (by decide) (by decide)
      have hothers := parens_le_of_derivesArgs hs hplain.right.tail
      rw [parens_args s.names e hne]
      exact Nat.le_trans (Nat.add_le_add hfirst hothers) (parensOf_le_infixed ks _ ls)

end

/-! ### Every source of a tree -/

/-- **No source of a tree has fewer parentheses than its text.**  Whatever text is read as a tree,
writing the tree takes no more opening parentheses than there are tokens of that kind in the text
before it ends. -/
theorem fewest_parentheses (source : String) (functions : Registry) (names : List String)
    (e : Expr) (h : Parser.read source functions names = .ok e) :
    (text names e).toList.count '(' ≤ (Parser.phrase source).countP opens :=
  parens_le_of_derives (Parser.derives_of_read h) (plain_phrase source) .clause (by decide)
    (by decide)

/-- Of three pairs one is needed, because differences group to the left. -/
theorem fewest_parentheses_difference :
    Parser.read "(a - (b)) - (a - b)" .empty ["a", "b"] =
        .ok (binary .sub (binary .sub (var 0) (var 1)) (binary .sub (var 0) (var 1))) ∧
      text ["a", "b"] (binary .sub (binary .sub (var 0) (var 1)) (binary .sub (var 0) (var 1))) =
        "a - b - (a - b)" ∧
      (Parser.phrase "(a - (b)) - (a - b)").countP opens = 3 ∧
      (text ["a", "b"] (binary .sub (binary .sub (var 0) (var 1))
        (binary .sub (var 0) (var 1)))).toList.count '(' ≤
        (Parser.phrase "(a - (b)) - (a - b)").countP opens := by
  have hread : Parser.read "(a - (b)) - (a - b)" .empty ["a", "b"] =
      .ok (binary .sub (binary .sub (var 0) (var 1)) (binary .sub (var 0) (var 1))) := by
    cbv
  exact ⟨hread, by decide +kernel, by decide +kernel, fewest_parentheses _ _ _ _ hread⟩

end FormulaPlot.Expr
