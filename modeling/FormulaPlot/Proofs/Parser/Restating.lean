/-
Functions written as definitions.

A function of a registry is written as a line that defines it.  The line has a header with
the function's name and parameters, and a body whose phrase has a tree that folds to the
function's body.  Reading this phrase asks for no function but those that the body calls, so
the phrase is stated over these alone: whatever else is defined or not makes no difference.

One thing can go wrong.  Folding can leave an infinite number, which is written as the name
of a constant, and a parameter may have that name.  Then the name is read as the parameter.
-/
import FormulaPlot.Proofs.Decimal.Literal
import FormulaPlot.Proofs.Expr.Callees
import FormulaPlot.Proofs.Parser.Closure

namespace FormulaPlot

open Token (Kind kindsOf)
open FormulaPlot.Expr (IsName Spells Unhidden constants)

/-! ### The tokens of a definition -/

namespace Token

/-- The tokens of a list of parameters. -/
def paramKinds : List String → List Kind
  | [] => []
  | [param] => [.ident param]
  | param :: others => .ident param :: .symbol .comma :: paramKinds others

/-- The tokens of a header, up to the sign of definition. -/
def headerKinds (f : UserFunction) : List Kind :=
  .ident f.name :: .symbol .openParen :: (paramKinds f.params ++ [.symbol .closeParen])

/-- A name does not start with white space. -/
theorem isBlank_of_startsIdent {c : Char} (h : startsIdent c = true) : Text.isBlank c = false := by
  have hletter : 65 ≤ c.toNat ∧ c.toNat ≤ 122 := by
    simp only [startsIdent, Char.isAlpha, Char.isUpper, Char.isLower, ge_iff_le,
      UInt32.le_iff_toNat_le, Bool.or_eq_true, Bool.and_eq_true, decide_eq_true_eq] at h
    rcases h with (h | h) | rfl
    · exact ⟨h.1, h.2.trans (by decide)⟩
    · exact ⟨le_trans (by decide) h.1, h.2⟩
    · decide
  simp only [Text.isBlank, Bool.or_eq_false_iff, Bool.and_eq_false_iff, decide_eq_false_iff_not]
  omega

end Token

namespace Expr.Spells

open Token (paramKinds headerKinds)

variable {ks : List Kind} {f : UserFunction}

theorem params {params : List String} (hne : params ≠ []) (h : ∀ param ∈ params, IsName param) :
    Spells (", ".intercalate params).toList (paramKinds params) := by
  induction params with
  | nil => exact absurd rfl hne
  | cons param others ih =>
      have hparam : Spells param.toList [.ident param] := Spells.name (h param List.mem_cons_self)
      cases others with
      | nil =>
          rw [String.intercalate_singleton]
          exact hparam
      | cons other others =>
          have hothers := ih (List.cons_ne_nil other others)
            fun name hname => h name (List.mem_cons_of_mem _ hname)
          rw [String.intercalate_cons_cons, String.toList_append, String.toList_append,
            List.append_assoc]
          exact hparam.comma hothers

/-- A definition is a call, the sign of definition and the body. -/
theorem definition (h : Parser.Declarable f.name f.params)
    (hbody : Spells (f.body.text f.params).toList ks) :
    Spells f.text.toList (headerKinds f ++ .symbol .assign :: ks) := by
  have hheader := Spells.call h.isName (params h.nonempty h.param)
  have htext : f.text.toList =
      (f.name.toList ++ '(' :: ((", ".intercalate f.params).toList ++ [')'])) ++
        ' ' :: (Symbol.assign.text.toList ++ ' ' :: (f.body.text f.params).toList) := by
    simp [UserFunction.text, Symbol.text]
  rw [htext]
  exact hheader.infixed hbody .assign

end Expr.Spells

namespace Parser

open Token (paramKinds headerKinds)
open Inquiry (Gives)
open Grammar (Derives Proper)

variable {before : List UserFunction} {f : UserFunction}

/-! ### What the text of a function says -/

/-- The functions that are called in the body, each found under its own name. -/
def callees (f : UserFunction) : Registry := ⟨f.body.callees⟩

theorem Standing.get?_callees (h : Standing before f) {name : String} {g : UserFunction}
    (hget : (callees f).get? name = some g) :
    g ∈ f.body.callees ∧ g.name = name ∧ Registry.get? ⟨before⟩ name = some g := by
  obtain ⟨hmem, rfl⟩ := Registry.mem_of_get? hget
  exact ⟨hmem, rfl, h.body.get?_of_mem hmem⟩

/-- No constant of the body is written as a name that a parameter has. -/
def Unshadowed (f : UserFunction) : Prop :=
  ∀ value ∈ constants f.body, Unhidden f.params value

instance (f : UserFunction) : Decidable (Unshadowed f) :=
  inferInstanceAs (Decidable (∀ value ∈ constants f.body, Unhidden f.params value))

/-- The text of a function has the tokens of a definition, and its body is a phrase for the body
of the function. -/
theorem Standing.spells_text (h : Standing before f) (hshadow : Unshadowed f) :
    ∃ ks again, Spells f.text.toList (headerKinds f ++ .symbol .assign :: ks) ∧
      Derives ⟨f.params, callees f⟩ .clause ks again ∧ again.simplify = f.body := by
  have hget : ∀ g ∈ f.body.callees, (callees f).get? g.name = some g := by
    intro g hg
    cases hfind : (callees f).get? g.name with
    | none => exact absurd (List.mem_map_of_mem hg) (Registry.get?_eq_none.mp hfind)
    | some g' =>
        -- What is called under one name is what stands before under that name.
        obtain ⟨-, -, hbefore⟩ := h.get?_callees hfind
        rw [h.body.get?_of_mem hg] at hbefore
        exact hbefore.symm
  have hwritable : Expr.Writable ⟨f.params, callees f⟩ f.body :=
    Expr.Writable.of_callees (s := ⟨f.params, ⟨before⟩⟩) rfl h.body hget
  obtain ⟨ks, again, hspells, hderives, heq⟩ :=
    Expr.written_text ⟨h.declarable.distinct, h.declarable.param⟩ hwritable fun value hvalue =>
      ⟨hshadow value hvalue, Decimal.readsBack⟩
  rw [h.folded] at heq
  exact ⟨ks, again, hspells.definition h.declarable, hderives, heq⟩

/-! ### Reading a definition back -/

variable {r : Registry} {ts rest : List Token}

theorem proper_paramKinds (params : List String) : ∀ k ∈ paramKinds params, Proper k := by
  induction params with
  | nil => simp [paramKinds]
  | cons param others ih =>
      cases others with
      | nil => simp [paramKinds, Proper]
      | cons other others => simpa [paramKinds, Proper] using ih

/-- Different names separated by commas are a list of parameters. -/
theorem against_parameters {seen params : List String} (hne : params ≠ [])
    (hdistinct : params.Nodup) (hseen : ∀ param ∈ params, param ∉ seen)
    (hts : kinds ts = paramKinds params) {t : Token} (ht : t.kind = .symbol .closeParen) :
    (parameters seen (ts ++ t :: rest)).against r = .ok (params, t :: rest) := by
  induction params generalizing seen ts with
  | nil => exact absurd rfl hne
  | cons param others ih =>
      obtain ⟨hnew, hdistinct⟩ := List.nodup_cons.mp hdistinct
      have hfirst := hseen param List.mem_cons_self
      cases others with
      | nil =>
          obtain ⟨t₁, us, rfl, ht₁, hus⟩ := List.map_eq_cons_iff.mp hts
          obtain rfl := List.map_eq_nil_iff.mp hus
          have hlast : after? .comma (t :: rest) = none := after?_cons_of_ne (by simp [ht])
          exact against_parameters_eq_ok.mpr
            ⟨t₁, param, t :: rest, rfl, ht₁, hfirst, clear_symbol ht, .inl ⟨hlast, rfl, rfl⟩⟩
      | cons other others =>
          obtain ⟨t₁, us, rfl, ht₁, hus⟩ := List.map_eq_cons_iff.mp hts
          obtain ⟨t₂, vs, rfl, ht₂, hvs⟩ := List.map_eq_cons_iff.mp hus
          have hlater : ∀ name ∈ other :: others, name ∉ param :: seen := by
            intro name hname hmem
            rcases List.mem_cons.mp hmem with rfl | hmem
            · exact hnew hname
            · exact hseen name (List.mem_cons_of_mem _ hname) hmem
          have hothers := ih (List.cons_ne_nil other others) hdistinct hlater hvs
          have hclear : Clear (vs ++ t :: rest) :=
            clear_append hvs (proper_paramKinds _) (clear_symbol ht)
          exact against_parameters_eq_ok.mpr ⟨t₁, param, t₂ :: (vs ++ t :: rest), rfl, ht₁, hfirst,
            clear_symbol ht₂, .inr ⟨vs ++ t :: rest, other :: others,
              after?_eq_some.mpr ⟨t₂, rfl, ht₂⟩, hclear, hothers, rfl⟩⟩

/-- The tokens of a definition are read as one. -/
theorem header_of_kinds {taken : String → Bool} (h : Declarable f.name f.params)
    (hnew : taken f.name = false) (line : Nat) {ks : List Kind} (hks : ∀ k ∈ ks, Proper k)
    (hts : kinds ts = headerKinds f ++ .symbol .assign :: (ks ++ [.finish])) :
    ∃ body, kinds body = ks ++ [.finish] ∧
      header taken line ts = .ok ⟨f.name, f.params, body, line⟩ := by
  obtain ⟨t₁, us, rfl, ht₁, hus⟩ := List.map_eq_cons_iff.mp hts
  obtain ⟨t₂, vs, rfl, ht₂, hvs⟩ := List.map_eq_cons_iff.mp hus
  rw [List.append_eq, List.append_assoc, List.singleton_append] at hvs
  obtain ⟨ws, t₃, xs, rfl, hws, ht₃, hxs⟩ := kinds_eq_append_cons hvs
  obtain ⟨t₄, body, rfl, ht₄, hbody⟩ := List.map_eq_cons_iff.mp hxs
  have hclear : Clear body := by
    obtain ⟨inner, last, after, rfl, hinner, hlast, -⟩ := kinds_eq_append_cons hbody
    exact clear_append hinner hks (clear_finish hlast)
  have hparams : (parameters [] (ws ++ t₃ :: t₄ :: body)).against .empty =
      .ok (f.params, t₃ :: t₄ :: body) :=
    against_parameters h.nonempty h.distinct (fun _ _ => List.not_mem_nil) hws ht₃
  have hinner : Clear (ws ++ t₃ :: t₄ :: body) :=
    clear_append hws (proper_paramKinds f.params) (clear_symbol ht₃)
  have hread : ∀ column, (signature taken f.name column
      (t₂ :: (ws ++ t₃ :: t₄ :: body))).against .empty = .ok (f.params, body) := by
    intro column
    refine against_signature_eq_ok.mpr ⟨⟨h.intrinsic, h.constant, hnew⟩, clear_symbol ht₂,
      ws ++ t₃ :: t₄ :: body, t₃ :: t₄ :: body, t₄ :: body, ?_, hparams, ?_, ?_⟩
    · exact against_expect_eq_ok.mpr ⟨t₂, rfl, ht₂, hinner⟩
    · exact against_expect_eq_ok.mpr ⟨t₃, rfl, ht₃, clear_symbol ht₄⟩
    · exact against_expect_eq_ok.mpr ⟨t₄, rfl, ht₄, hclear⟩
  obtain ⟨kind, lexeme, start, column⟩ := t₁
  obtain rfl : kind = .ident f.name := ht₁
  refine ⟨body, hbody, ?_⟩
  unfold header
  simp only [hread]

/-- The definition on a line says what the function is.  Its body is read as the function's,
if the called functions are there and the nesting allows it. -/
structure Restates (f : UserFunction) (line : Nat) (d : Definition) : Prop where
  name : d.name = f.name
  params : d.params = f.params
  line : d.line = line
  body : ∃ again, Gives (callees f) (topLevel d.params d.body) again ∧ again.simplify = f.body

/-- The text of a function is read as a definition of this function. -/
theorem Standing.restated (h : Standing before f) (hshadow : Unshadowed f) {taken : String → Bool}
    (hnew : taken f.name = false) (line : Nat) :
    ∃ d, header taken line (Token.tokenize f.text) = .ok d ∧ Restates f line d := by
  obtain ⟨ks, again, hspells, hderives, heq⟩ := h.spells_text hshadow
  have hkinds := hspells.kinds [] Token.breaks_nil
  rw [List.append_nil, Token.kindsOf_nil, List.append_assoc, List.cons_append] at hkinds
  obtain ⟨body, hbody, hheader⟩ := header_of_kinds h.declarable hnew line hderives.proper hkinds
  obtain ⟨inner, last, after, rfl, hinner, hlast, -⟩ := kinds_eq_append_cons hbody
  refine ⟨_, hheader, rfl, rfl, rfl, again, ?_, heq⟩
  exact topLevel_of_derives hderives hinner (atFinish_eq_true.mpr ⟨last, after, rfl, hlast⟩)

/-- The text of a function is one line, and not a blank one. -/
theorem Standing.line_text (h : Standing before f) (hshadow : Unshadowed f) :
    (∀ c ∈ f.text.toList, c ≠ '\n' ∧ c ≠ '\r') ∧ Text.isAllBlank f.text = false := by
  obtain ⟨ks, again, hspells, -⟩ := h.spells_text hshadow
  refine ⟨hspells.line, ?_⟩
  obtain ⟨hident, hne⟩ := h.declarable.isName
  obtain ⟨c, tail, hname⟩ := List.exists_cons_of_ne_nil hne
  rw [hname] at hident
  have hblank := Token.isBlank_of_startsIdent (Token.startsIdent_of_ident hident)
  simp [Text.isAllBlank, UserFunction.text, hname, hblank]

end Parser

end FormulaPlot
