/-
A formula and its grammar.

The tokens of a text that come before its end are what the grammar is about.  A text
without an end stops at a piece that is no token, and no phrase of the grammar has
such a piece in it.  So the two halves of the parser's correctness, soundness and
completeness, can be put together into a statement about texts.
-/
import Mathlib
import FormulaPlot.Parser.Formula
import FormulaPlot.Proofs.Parser.Soundness
import FormulaPlot.Proofs.Parser.Completeness

namespace FormulaPlot

open Token (Kind)

namespace Token

/-- The end of a formula. -/
def Kind.isFinish : Kind → Bool
  | .finish => true
  | _ => false

theorem Kind.isFinish_iff {k : Kind} : k.isFinish = true ↔ k = .finish := by
  cases k <;> simp [isFinish]

theorem Kind.isFinish_of_proper {k : Kind} (h : Grammar.Proper k) : k.isFinish = false := by
  cases k with
  | finish => exact absurd h id
  | _ => rfl

/-- A text that is used up is finished. -/
theorem isLast_next_nil (start column : Nat) : (next start column []).1.isLast = true := rfl

/-- The tokens of a text are never used up without an end or an error. -/
theorem exists_isLast (start column : Nat) (cs : List Char) :
    ∃ t ∈ tokenizeFrom start column cs, t.isLast = true := by
  fun_induction tokenizeFrom start column cs with
  | case1 start column cs step hlast =>
      refine ⟨step.1, by simp, ?_⟩
      rcases hlast with hlast | rfl
      · exact hlast
      · exact isLast_next_nil start column
  | case2 start column cs step hopen t ih =>
      obtain ⟨t', hmem, hlast⟩ := ih
      exact ⟨t', List.mem_cons_of_mem _ hmem, hlast⟩

end Token

namespace Parser

open Grammar (Derives Proper)

/-- What the tokens of a text are, up to the first end. -/
def phrase (text : String) : List Kind :=
  (kinds (Token.tokenize text)).takeWhile fun k => !k.isFinish

/-- Proper tokens before an end are the phrase of the text. -/
theorem phrase_eq {text : String} {ks ls : List Kind}
    (htext : kinds (Token.tokenize text) = ks ++ .finish :: ls) (hks : ∀ k ∈ ks, Proper k) :
    phrase text = ks := by
  have hgo : ∀ k ∈ ks, (!k.isFinish) = true := by
    intro k hk
    rw [Kind.isFinish_of_proper (hks k hk)]
    rfl
  unfold phrase
  rw [htext, List.takeWhile_append_of_pos hgo,
    List.takeWhile_cons_of_neg (by simp [Kind.isFinish]), List.append_nil]

/-- A text whose phrase is proper comes to an end after it. -/
theorem exists_finish {text : String} (h : ∀ k ∈ phrase text, Proper k) :
    ∃ used rest, Token.tokenize text = used ++ rest ∧ kinds used = phrase text ∧
      atFinish rest = true := by
  let go := fun t : Token => !t.kind.isFinish
  have hphrase : kinds ((Token.tokenize text).takeWhile go) = phrase text := by
    unfold phrase kinds
    rw [List.takeWhile_map]
    rfl
  refine ⟨(Token.tokenize text).takeWhile go, (Token.tokenize text).dropWhile go,
    List.takeWhile_append_dropWhile.symm, hphrase, ?_⟩
  cases hrest : (Token.tokenize text).dropWhile go with
  | nil =>
      -- Without an end, the last token is an error, and it is part of the phrase.
      have hall : (Token.tokenize text).takeWhile go = Token.tokenize text := by
        simpa [hrest] using List.takeWhile_append_dropWhile (p := go) (l := Token.tokenize text)
      obtain ⟨t, hmem, hlast⟩ := Token.exists_isLast 0 1 text.toList
      have hproper : Proper t.kind := by
        refine h _ ?_
        rw [← hphrase, hall]
        exact List.mem_map_of_mem hmem
      unfold Token.isLast at hlast
      revert hlast hproper
      cases t.kind <;> simp [Proper]
  | cons t after =>
      have hstop := List.head?_dropWhile_not go (Token.tokenize text)
      rw [hrest] at hstop
      refine atFinish_eq_true.mpr ⟨t, after, rfl, ?_⟩
      rw [← Kind.isFinish_iff]
      simpa [go] using hstop

variable {text : String} {functions : Registry} {names : List String} {e : Expr}

/-- The error of an outcome.  Unlike trees, errors can be compared. -/
def error? : Except ParseError Expr → Option ParseError
  | .ok _ => none
  | .error error => some error

theorem error?_eq_some {outcome : Except ParseError Expr} {error : ParseError} :
    error? outcome = some error ↔ outcome = .error error := by
  cases outcome <;> simp [error?]

/-- What a text is read as, its phrase derives. -/
theorem derives_of_read (h : read text functions names = .ok e) :
    Derives ⟨names, functions⟩ .clause (phrase text) e := by
  unfold read at h
  cases hread : (topLevel names (Token.tokenize text)).against functions with
  | error fault =>
      rw [hread] at h
      cases h
  | ok e' =>
      rw [hread] at h
      cases h
      obtain ⟨used, rest, htext, hrest, hused⟩ := topLevel_takes (s := ⟨names, functions⟩) hread
      obtain ⟨t, after, rfl, ht⟩ := atFinish_eq_true.mp hrest
      have hkinds : kinds (Token.tokenize text) = kinds used ++ .finish :: kinds after := by
        rw [htext, kinds, List.map_append, List.map_cons, ht]
      rw [phrase_eq hkinds hused.proper]
      exact hused

/-- What its phrase derives, a text is read as, unless it is nested too deeply. -/
theorem read_of_derives (h : Derives ⟨names, functions⟩ .clause (phrase text) e) :
    read text functions names = .ok e ∨
      ∃ column, read text functions names = .error ⟨.tooDeep, "", 1, column⟩ := by
  obtain ⟨used, rest, htext, hused, hrest⟩ := exists_finish h.proper
  unfold read
  rw [htext]
  rcases topLevel_of_derives h hused hrest with hread | ⟨column, hread⟩
  · left
    rw [hread]
    rfl
  · right
    refine ⟨column, ?_⟩
    rw [hread]
    rfl

/-- The parser accepts what the grammar derives and builds the grammar's tree.  Only
depth can make it refuse a formula of the grammar. -/
theorem read_sound_and_complete (text : String) (functions : Registry) (names : List String) :
    (∀ e, read text functions names = .ok e →
      Derives ⟨names, functions⟩ .clause (phrase text) e) ∧
    ∀ e, Derives ⟨names, functions⟩ .clause (phrase text) e →
      read text functions names = .ok e ∨
        ∃ error, read text functions names = .error error ∧
          error.message = "Expression too deeply nested." := by
  refine ⟨fun e => derives_of_read, fun e h => ?_⟩
  rcases read_of_derives h with hread | ⟨column, hread⟩
  · exact .inl hread
  · exact .inr ⟨_, hread, rfl⟩

/-- Differences group to the left, and a power comes before them. -/
theorem read_sub_sub_pow :
    Derives ⟨["a", "b"], .empty⟩ .clause (phrase "-a - b - a ^ b")
        (.binary .sub (.binary .sub (.unary .neg (.var 0)) (.var 1))
          (.binary .pow (.var 0) (.var 1))) ∧
      (read "-a - b - a ^ b" .empty ["a", "b"] =
          .ok (.binary .sub (.binary .sub (.unary .neg (.var 0)) (.var 1))
            (.binary .pow (.var 0) (.var 1))) ∨
        ∃ error, read "-a - b - a ^ b" .empty ["a", "b"] = .error error ∧
          error.message = "Expression too deeply nested.") := by
  obtain ⟨hsound, hcomplete⟩ := read_sound_and_complete "-a - b - a ^ b" .empty ["a", "b"]
  have hread : read "-a - b - a ^ b" .empty ["a", "b"] =
      .ok (.binary .sub (.binary .sub (.unary .neg (.var 0)) (.var 1))
        (.binary .pow (.var 0) (.var 1))) := by
    cbv
  have hderives := hsound _ hread
  exact ⟨hderives, hcomplete _ hderives⟩

end Parser

end FormulaPlot
