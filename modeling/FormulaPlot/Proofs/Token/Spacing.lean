/-
Space between tokens.

A text can be written again with other space: its tokens stay, in their order, and what is
between them changes, as well as whatever comes after the end.  `Respaced` is any such text.
Two words, that is numbers and names, keep some space between them, unless they touch in the
text that they come from.

The new text has the same tokens if no two of them can be read as one.  That is a condition
on neighbours, `Apart`.  It makes the token in front end where it did: what follows it now
begins with a space, with the end, or with the next token, and none of these goes on with it.
-/
import FormulaPlot.Proofs.Grammar.Neighbours
import FormulaPlot.Proofs.Token.Munch

namespace FormulaPlot.Token

open Grammar (Word Apart)

/-- Two words touch only where they did before. -/
def MayTouch (previous : Option Token) (t : Token) : Prop :=
  ∀ p ∈ previous, Word p.kind → Word t.kind → p.start + p.size = t.start

instance (previous : Option Token) (t : Token) : Decidable (MayTouch previous t) := by
  unfold MayTouch
  infer_instance

/-- The text consists of these tokens with some space in front of each, behind another token or
none.  The last of them is the end, and anything may follow it. -/
inductive Respaced : (previous : Option Token) → List Token → List Char → Prop
  | finish {previous : Option Token} {t : Token} {space after : List Char} (ht : t.kind = .finish)
      (hspace : ∀ c ∈ space, isSpace c = true) (hafter : Finished after) :
      Respaced previous [t] (space ++ after)
  | token {previous : Option Token} {t : Token} {ts : List Token} {space text : List Char}
      (hspace : ∀ c ∈ space, isSpace c = true) (htouch : space = [] → MayTouch previous t)
      (h : Respaced (some t) ts text) :
      Respaced previous (t :: ts) (space ++ (t.lexeme.toList ++ text))

variable {before cs space text rest lexeme : List Char} {kind : Kind} {ts : List Token}
  {previous : Option Token} {c : Char}

/-! ### How lexemes begin -/

theorem continuesIdent_eq_false (hstart : startsIdent c = false) (hdigit : c.isDigit = false) :
    continuesIdent c = false := by
  simp only [startsIdent, Bool.or_eq_false_iff] at hstart
  simp [continuesIdent, Char.isAlphanum, hdigit, hstart.1, hstart.2]

/-- A number is all number. -/
theorem IsNumber.number_eq (h : IsNumber cs) : number cs = cs := by
  have hle := h.length_le []
  rw [List.append_nil] at hle
  exact (prefix_number cs).eq_of_length_le hle

theorem IsIdent.ident_eq (h : IsIdent cs) : ident cs = cs := by
  have hle := h.length_le []
  rw [List.append_nil] at hle
  exact (prefix_ident cs).eq_of_length_le hle

/-- A number ends where a symbol begins. -/
theorem endsNumber_symbol (sym : Symbol) (rest : List Char) :
    EndsNumber (sym.text.toList ++ rest) := by
  obtain ⟨c, tail, hc, hstart, hdigit, -, hpoint, -⟩ := text_symbol sym
  rw [hc]
  rintro _ ⟨⟩
  exact ⟨continuesIdent_eq_false hstart hdigit, hpoint⟩

/-- A word does not begin with an equals sign. -/
theorem head_of_word (hspells : Spells kind lexeme) (hword : Word kind) :
    ∃ c tail, lexeme = c :: tail ∧ c ≠ '=' := by
  cases hspells with
  | number h _ =>
      obtain ⟨c, tail, rfl, hdigit | rfl⟩ := h.head
      · exact ⟨c, tail, rfl, ne_of_class hdigit (by decide)⟩
      · exact ⟨'.', tail, rfl, by decide⟩
  | ident h =>
      obtain ⟨c, tail, rfl, hstart⟩ := h.head
      exact ⟨c, tail, rfl, ne_of_class hstart (by decide)⟩
  | symbol s => exact absurd hword id

theorem head_of_symbol {sym : Symbol} (h : sym ≠ .assign ∧ sym ≠ .equal) :
    ∃ c tail, sym.text.toList = c :: tail ∧ c ≠ '=' := by
  cases sym with
  | assign => exact absurd rfl h.1
  | equal => exact absurd rfl h.2
  | _ => exact ⟨_, _, rfl, by decide⟩

/-- A closing parenthesis is a token whatever follows it. -/
theorem scan_closeParen (rest : List Char) :
    scan (')' :: rest) = (.symbol .closeParen, [')']) := by
  have hnumber : number (')' :: rest) = [] := number_eq_nil (by decide) (by decide)
  have hident : ident (')' :: rest) = [] := ident_eq_nil (by decide)
  have hleading : Symbol.leading? (')' :: rest) = some .closeParen := by
    simp [Symbol.leading?, Symbol.all, Symbol.text]
  simp [scan, atFinish, hnumber, hident, hleading, Symbol.text]

/-! ### What follows a token -/

/-- Space breaks off any token, and so does the end. -/
theorem breaks_space (hne : space ≠ []) (hspace : ∀ c ∈ space, isSpace c = true)
    (rest : List Char) : Breaks (space ++ rest) := by
  obtain ⟨c, tail, rfl⟩ := List.exists_cons_of_ne_nil hne
  have hc := hspace c List.mem_cons_self
  simp only [isSpace, Bool.or_eq_true, decide_eq_true_eq] at hc
  refine breaks_cons ?_
  rcases hc with (rfl | rfl) | rfl <;> decide

theorem breaks_finished (h : Finished text) : Breaks text := by
  intro c hc
  rcases h c hc with rfl | rfl <;> decide

/-- Behind a token there is a space or the end, or the next token touches it. -/
theorem Respaced.breaks_or_touches {t : Token} (h : Respaced (some t) ts text) :
    Breaks text ∨ ∃ u us rest, ts = u :: us ∧ us ≠ [] ∧ text = u.lexeme.toList ++ rest ∧
      (Word t.kind → Word u.kind → t.start + t.size = u.start) := by
  cases h with
  | @finish _ u space after hu hspace hafter =>
      left
      by_cases hne : space = []
      · rw [hne]
        exact breaks_finished hafter
      · exact breaks_space hne hspace after
  | @token _ u us space rest hspace htouch hrest =>
      by_cases hne : space = []
      · right
        refine ⟨u, us, rest, rfl, ?_, by rw [hne, List.nil_append], htouch hne t rfl⟩
        rintro rfl
        cases hrest
      · exact .inl (breaks_space hne hspace _)

theorem Munched.spells (h : Munched text kind lexeme) (hopen : kind.isLast = false) :
    Spells kind lexeme := by
  cases h with
  | finish _ => cases hopen
  | longest hspells _ _ => exact hspells
  | invalid _ _ _ => cases hopen

/-- The first token behind a text, if it is not the last one. -/
theorem Lexes.first {u : Token} {us : List Token} (h : Lexes before cs (u :: us)) (hus : us ≠ []) :
    ∃ space rest, cs = space ++ (u.lexeme.toList ++ rest) ∧ Spells u.kind u.lexeme.toList ∧
      u.start = bytes (before ++ space) := by
  cases h with
  | last _ _ _ _ => exact absurd rfl hus
  | @more before space lexeme rest kind us _ _ h hopen _ =>
      have hlexeme : (behind (before ++ space) kind lexeme).lexeme.toList = lexeme :=
        String.toList_ofList
      exact ⟨space, rest, by rw [hlexeme], hlexeme.symm ▸ h.spells hopen, rfl⟩

theorem Spells.symbol_of_not_word (h : Spells kind lexeme) (hword : ¬ Word kind) :
    ∃ sym : Symbol, kind = .symbol sym ∧ lexeme = sym.text.toList := by
  cases h with
  | number _ _ => exact absurd trivial hword
  | ident _ => exact absurd trivial hword
  | symbol s => exact ⟨s, rfl, rfl⟩

/-- A name that is taken does not go on in the text behind it. -/
theorem Munched.ident_ends {name : String} (h : Munched (lexeme ++ rest) (.ident name) lexeme) :
    ∀ c ∈ rest.head?, continuesIdent c = false := by
  intro c hc
  rw [← Bool.not_eq_true]
  intro hcontinues
  obtain ⟨tail, rfl⟩ := List.head?_eq_some_iff.mp hc
  cases h with
  | longest hspells _ hlongest =>
      cases hspells with
      | ident hident =>
          obtain @⟨d, ds, hstart, hds⟩ := hident
          have hmore : IsIdent (d :: (ds ++ [c])) := by
            refine .mk hstart fun c' hc' => ?_
            rcases List.mem_append.mp hc' with hc' | hc'
            · exact hds c' hc'
            · rw [List.mem_singleton.mp hc']
              exact hcontinues
          have hle := hlongest _ (.ident hmore) ⟨tail, by simp⟩
          simp at hle

/-- Words that touch in the new text touch in the old one. -/
theorem rest_of_touching {space after word : List Char} (hrest : rest = space ++ (word ++ after))
    (htouch : (behind before kind lexeme).start + (behind before kind lexeme).size =
      bytes (before ++ lexeme ++ space)) : rest = word ++ after := by
  have hbytes : bytes before + bytes lexeme = bytes before + bytes lexeme + bytes space := by
    rw [← bytes_append, ← bytes_append, ← htouch, bytes_append]
    rfl
  have hzero : (String.ofList space).utf8ByteSize = 0 := by
    have hbytes' : bytes space = 0 := by omega
    exact hbytes'
  rw [String.utf8ByteSize_eq_zero_iff] at hzero
  have hnil : space = [] := by simpa using hzero
  rw [hrest, hnil, List.nil_append]

/-- A token ends in the new text where it ended before. -/
theorem Respaced.scan_eq (h : Munched (lexeme ++ rest) kind lexeme) (hopen : kind.isLast = false)
    (hrest : Lexes (before ++ lexeme) rest ts)
    (hapart : ∀ k ∈ (ts.map Token.kind).head?, Apart kind k)
    (hrespaced : Respaced (some (behind before kind lexeme)) ts text) :
    scan (lexeme ++ text) = (kind, lexeme) := by
  have hne : lexeme ≠ [] := by
    rcases h.ne_nil with rfl | hne
    · cases hopen
    · exact hne
  -- Where the next token touches, it is a word or a symbol.
  have hfollows := hrespaced.breaks_or_touches
  have hends := fun name (hkind : kind = .ident name) => (hkind ▸ h).ident_ends
  cases h.spells hopen with
  | number hnumber hvalue =>
      refine scan_number hnumber.number_eq hne hvalue ?_
      rcases hfollows with hbreaks | ⟨u, us, after, rfl, hus, rfl, -⟩
      · exact hbreaks.endsNumber
      · obtain ⟨-, -, -, hu, -⟩ := hrest.first hus
        obtain ⟨sym, -, hsym⟩ := hu.symbol_of_not_word (hapart _ rfl)
        rw [hsym]
        exact endsNumber_symbol sym after
  | ident hident =>
      refine scan_ident hident.ident_eq hne ?_
      rcases hfollows with hbreaks | ⟨u, us, after, rfl, hus, rfl, htouch⟩
      · exact fun c hc => (hbreaks c hc).1
      · obtain ⟨space, after', hspace, hu, hstart⟩ := hrest.first hus
        by_cases hword : Word u.kind
        · have hstill := hends _ rfl
          rw [rest_of_touching hspace ((htouch trivial hword).trans hstart)] at hstill
          obtain ⟨c, tail, hc, -⟩ := head_of_word hu hword
          rw [hc] at hstill ⊢
          exact hstill
        · obtain ⟨sym, -, hsym⟩ := hu.symbol_of_not_word hword
          rw [hsym]
          exact fun c hc => (endsNumber_symbol sym after c hc).1
  | symbol s =>
      by_cases hclose : s = .closeParen
      · subst hclose
        exact scan_closeParen text
      · refine scan_symbol s ?_
        rcases hfollows with hbreaks | ⟨u, us, after, rfl, hus, rfl, -⟩
        · exact fun c hc => (hbreaks c hc).2.2
        · obtain ⟨-, -, -, hu, -⟩ := hrest.first hus
          have hhead : ∃ c tail, u.lexeme.toList = c :: tail ∧ c ≠ '=' := by
            by_cases hword : Word u.kind
            · exact head_of_word hu hword
            · obtain ⟨sym, hkind, hsym⟩ := hu.symbol_of_not_word hword
              have hneighbour : Apart (.symbol s) (.symbol sym) := hkind ▸ hapart _ rfl
              rw [hsym]
              exact head_of_symbol (hneighbour.resolve_left hclose)
          obtain ⟨c, tail, hc, hequal⟩ := hhead
          rw [hc]
          rintro _ ⟨⟩
          exact hequal

/-! ### The tokens of the new text -/

theorem kindsOf_spaces (hspace : ∀ c ∈ space, isSpace c = true) (cs : List Char) :
    kindsOf (space ++ cs) = kindsOf cs := by
  induction space with
  | nil => rfl
  | cons c space ih =>
      rw [List.cons_append, kindsOf_space (hspace c List.mem_cons_self),
        ih fun c hc => hspace c (List.mem_cons_of_mem _ hc)]

theorem kindsOf_finished (h : Finished text) : kindsOf text = [.finish] := by
  have hdrop : text.dropWhile isSpace = text := by
    cases text with
    | nil => rfl
    | cons c text =>
        refine List.dropWhile_cons_of_neg ?_
        rcases h c rfl with rfl | rfl <;> decide
  rw [kindsOf_eq, hdrop, (Munched.finish h).scan_eq, if_pos (.inl rfl)]

/-- Where no neighbours can be read as one, a text with other space has the same tokens. -/
theorem Respaced.kindsOf_eq (hlexes : Lexes before cs ts) (h : Respaced previous ts text)
    (hapart : (ts.map Token.kind).IsChain Apart) : kindsOf text = ts.map Token.kind := by
  induction hlexes generalizing previous text with
  | @last before space' cs lexeme kind _ _ _ hlast =>
      cases h with
      | @finish _ _ space after ht hspace hafter =>
          rw [kindsOf_spaces hspace, kindsOf_finished hafter, List.map_singleton, ht]
      | token _ _ h => cases h
  | @more before space' lexeme rest kind ts _ hstart hmunched hopen hrest ih =>
      cases h with
      | finish ht _ _ =>
          obtain rfl : kind = .finish := ht
          cases hopen
      | @token _ _ _ space text hspace _ h =>
          obtain ⟨hnext, hchain⟩ := List.isChain_cons.mp hapart
          have hscan := h.scan_eq hmunched hopen hrest hnext
          have hlexeme : (behind (before ++ space') kind lexeme).lexeme.toList = lexeme :=
            String.toList_ofList
          rw [kindsOf_spaces hspace, hlexeme, List.map_cons, ← ih h hchain]
          refine kindsOf_append hscan hopen fun c hc => hstart c ?_
          obtain ⟨tail, rfl⟩ := List.head?_eq_some_iff.mp hc
          rfl

end FormulaPlot.Token
