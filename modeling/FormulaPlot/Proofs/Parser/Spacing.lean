/-
Space and comments mean nothing to the parser.

A text that is read keeps its tree if the space between its tokens is changed, and if something
else follows its end.  Its tokens before the end are a phrase of the grammar, and a phrase has
no neighbours that could be read as one token.  So the new text has the tokens of the old one,
at other places, and a tree does not depend on places.
-/
import FormulaPlot.Proofs.Parser.Block
import FormulaPlot.Proofs.Parser.Formula
import FormulaPlot.Proofs.Token.Spacing

namespace FormulaPlot.Parser

open Token (Kind Lexes Respaced)
open Grammar (Apart)

variable {text text' : String} {functions : Registry} {names : List String} {e : Expr}

theorem kinds_tokenize (text : String) :
    kinds (Token.tokenize text) = Token.kindsOf text.toList :=
  Token.kinds_tokenizeFrom 0 1 text.toList

/-- The first end is the last token. -/
theorem kinds_of_proper (h : ∀ k ∈ phrase text, Grammar.Proper k) :
    kinds (Token.tokenize text) = phrase text ++ [.finish] := by
  obtain ⟨used, rest, htext, hused, hrest⟩ := exists_finish h
  obtain ⟨t, after, rfl, ht⟩ := atFinish_eq_true.mp hrest
  obtain rfl : after = [] := by
    have hlexes : Lexes [] text.toList (Token.tokenize text) :=
      Token.lexes_tokenizeFrom [] text.toList
    obtain ⟨front, last, hfront, -, hopen⟩ := hlexes.ends
    rcases List.eq_nil_or_concat after with rfl | ⟨init, last', rfl⟩
    · rfl
    · have hsplit : used ++ t :: init ++ [last'] = front ++ [last] := by
        rw [← hfront, htext, List.append_assoc, List.cons_append, List.concat_eq_append]
      have ht' : t ∈ front := (List.append_inj_left' hsplit rfl) ▸ by simp
      have hlast := hopen t ht'
      rw [Token.isLast_eq, ht] at hlast
      cases hlast
  rw [htext, kinds, List.map_append, List.map_singleton, ht]
  exact congrArg (· ++ _) hused

/-- A text that is read has no neighbours that could be read as one token. -/
theorem apart_of_read (h : read text functions names = .ok e) :
    (kinds (Token.tokenize text)).IsChain Apart := by
  have hderives := derives_of_read h
  rw [kinds_of_proper hderives.proper]
  exact hderives.tidy.finished

/-- With other space between its tokens, and with another comment behind its end, a text that is
read is still read, and as the same tree. -/
theorem read_respaced (h : read text functions names = .ok e)
    (hspace : Respaced none (Token.tokenize text) text'.toList) :
    read text' functions names = .ok e := by
  have hlexes : Lexes [] text.toList (Token.tokenize text) :=
    Token.lexes_tokenizeFrom [] text.toList
  have hkinds : kinds (Token.tokenize text) = kinds (Token.tokenize text') := by
    rw [kinds_tokenize text', hspace.kindsOf_eq hlexes (apart_of_read h), kinds]
  have hread := topLevel_moved names functions hkinds
  unfold read at h ⊢
  revert h hread
  generalize (topLevel names (Token.tokenize text)).against functions = x,
    (topLevel names (Token.tokenize text')).against functions = y
  intro h hread
  cases hread with
  | @ok tree tree' heq =>
      obtain rfl : tree = tree' := heq
      exact h
  | error _ => cases h

/-- Names stay apart, and around symbols the space can go. -/
theorem read_respaced_clause :
    Respaced none (Token.tokenize "x < -y, where x < y") "x<- y ,where\tx<y ; note".toList ∧
      read "x<- y ,where\tx<y ; note" .empty ["x", "y"] =
        .ok (.limit (.binary .lt (.var 0) (.unary .neg (.var 1)))
          (.binary .lt (.var 0) (.var 1))) := by
  have htokens : Token.tokenize "x < -y, where x < y" =
      [⟨.ident "x", "x", 0, 1⟩, ⟨.symbol .less, "<", 2, 3⟩, ⟨.symbol .minus, "-", 4, 5⟩,
        ⟨.ident "y", "y", 5, 6⟩, ⟨.symbol .comma, ",", 6, 7⟩, ⟨.ident "where", "where", 8, 9⟩,
        ⟨.ident "x", "x", 14, 15⟩, ⟨.symbol .less, "<", 16, 17⟩, ⟨.ident "y", "y", 18, 19⟩,
        ⟨.finish, "", 19, 20⟩] := by
    cbv
  have htext : "x<- y ,where\tx<y ; note".toList =
      [] ++ ("x".toList ++ ([] ++ ("<".toList ++ ([] ++ ("-".toList ++ ([' '] ++ ("y".toList ++
        ([' '] ++ (",".toList ++ ([] ++ ("where".toList ++ (['\t'] ++ ("x".toList ++ ([] ++
          ("<".toList ++ ([] ++ ("y".toList ++ ([' '] ++ "; note".toList)))))))))))))))))) := by
    decide
  have hspace : Respaced none (Token.tokenize "x < -y, where x < y")
      "x<- y ,where\tx<y ; note".toList := by
    rw [htokens, htext]
    have hblank : ∀ c ∈ [' '], Token.isSpace c = true := by simp [Token.isSpace]
    have htab : ∀ c ∈ ['\t'], Token.isSpace c = true := by simp [Token.isSpace]
    refine .token (by simp) ?_ <| .token (by simp) ?_ <| .token (by simp) ?_ <|
      .token hblank ?_ <| .token hblank ?_ <| .token (by simp) ?_ <| .token htab ?_ <|
      .token (by simp) ?_ <| .token (by simp) ?_ <| .finish rfl hblank ?_
    case refine_10 => simp [Token.Finished]
    all_goals decide
  have hread : read "x < -y, where x < y" .empty ["x", "y"] =
      .ok (.limit (.binary .lt (.var 0) (.unary .neg (.var 1)))
        (.binary .lt (.var 0) (.var 1))) := by
    cbv
  exact ⟨hspace, read_respaced hread hspace⟩

end FormulaPlot.Parser
