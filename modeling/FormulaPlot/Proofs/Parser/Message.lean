/-
What a message says.

Most causes are of a class with others, and only the message tells them apart.  Three of them
name a function that is called: the number of its arguments is wrong, it has errors, or the
call goes round in a circle.  Such a message comes from one cause only, because a name in a
message is a name, without spaces and parentheses, so that the words around it can be told.
-/
import FormulaPlot.Parser.Error
import FormulaPlot.Proofs.Token.Munch

namespace FormulaPlot

open Token (IsIdent continuesIdent)

namespace Cause

/-- The name that a cause is about. -/
def subject? : Cause → Option String
  | undefinedName name | unknownFunction name | arity name _ | calleeHasErrors name
  | recursive name | nameOfIntrinsic name | nameOfConstant name | alreadyDefined name
  | duplicateParameter name => some name
  | _ => none

/-- The name that the cause is about is spelled like one. -/
def Legible (cause : Cause) : Prop := ∀ name, cause.subject? = some name → IsIdent name.toList

variable {cause : Cause} {name text : String}

/-! ### Names among other words -/

theorem continuesIdent_of_mem {cs : List Char} (h : IsIdent cs) :
    ∀ c ∈ cs, continuesIdent c = true := by
  obtain ⟨hstart, hcontinue⟩ := h
  refine List.forall_mem_cons.mpr ⟨?_, hcontinue⟩
  simp only [Token.startsIdent, continuesIdent, Char.isAlphanum, Bool.or_eq_true] at hstart ⊢
  exact hstart.imp_left .inl

/-- From the front, the characters of names end behind a name where they do without it. -/
theorem dropWhile_name (h : IsIdent name.toList) (text : String) :
    (name ++ text).toList.dropWhile continuesIdent = text.toList.dropWhile continuesIdent := by
  rw [String.toList_append, List.dropWhile_append_of_pos (continuesIdent_of_mem h)]

/-- And so they do from the full stop at the end. -/
theorem dropWhile_name_stop (h : IsIdent name.toList) (text : String) :
    ((text ++ name ++ ".").toList.reverse.drop 1).dropWhile continuesIdent =
      text.toList.reverse.dropWhile continuesIdent := by
  have hreverse : (text ++ name ++ ".").toList.reverse =
      '.' :: (name.toList.reverse ++ text.toList.reverse) := by
    simp [String.toList_append]
  rw [hreverse, List.drop_one, List.tail_cons, List.dropWhile_append_of_pos]
  exact fun c hc => continuesIdent_of_mem h c (List.mem_reverse.mp hc)

theorem isDigit_head_arity (name : String) (n : Nat) :
    (arity name n).message.toList.head?.map Char.isDigit = some true := by
  obtain ⟨c, cs, hdigits⟩ := List.exists_cons_of_ne_nil (Nat.toDigits_ne_nil (n := n) (b := 10))
  have hc : c.isDigit = true := Decimal.isDigit_toDigits n c (hdigits ▸ List.mem_cons_self)
  unfold message
  simp only [String.toList_append, Nat.toList_repr, hdigits, List.cons_append, List.head?_cons,
    Option.map_some, hc]

/-- The number of arguments is all the digits that the message begins with. -/
theorem takeWhile_arity (name : String) (n : Nat) :
    (arity name n).message.toList.takeWhile Char.isDigit = Nat.toDigits 10 n := by
  have hdigits : ∀ words : String, words.toList.head? = some ' ' →
      (n.repr ++ words).toList.takeWhile Char.isDigit = Nat.toDigits 10 n := by
    intro words hwords
    rw [String.toList_append, Nat.toList_repr]
    refine (Decimal.digits_append (Decimal.isDigit_toDigits n) ?_).1
    intro c hc
    rw [hwords] at hc
    cases hc
    decide
  unfold message
  simp only [String.append_assoc]
  exact hdigits _ (by simp)

theorem isDigit_head_name (h : IsIdent name.toList) (text : String) :
    (name ++ text).toList.head?.map Char.isDigit = some false := by
  obtain ⟨c, cs, hname, hc⟩ := h.head
  rw [String.toList_append, hname, List.cons_append, List.head?_cons, Option.map_some,
    Token.isDigit_of_startsIdent hc]

/-! ### One cause to a message -/

/-- Only of a function with errors it is said that it has errors. -/
theorem eq_of_message_calleeHasErrors (hlegible : cause.Legible)
    (h : cause.message = "Function " ++ name ++ "() has errors.") :
    cause = .calleeHasErrors name := by
  cases cause with
  | calleeHasErrors n =>
      unfold message at h
      simpa only [String.append_left_inj, String.append_right_inj, calleeHasErrors.injEq] using h
  | alreadyDefined n =>
      unfold message at h
      have hback :=
        congrArg (fun s => ((s.toList.reverse.drop 1).dropWhile continuesIdent).take 2) h
      dsimp only at hback
      rw [dropWhile_name_stop (hlegible n rfl)] at hback
      simp [continuesIdent] at hback
  | functionNameExpected | nameOfIntrinsic | nameOfConstant =>
      unfold message at h
      have hlast := congrArg (·.toList.reverse.take 2) h
      simp at hlast
  | arity n k =>
      have hfirst := congrArg (·.toList.head?.map Char.isDigit) h
      rw [isDigit_head_arity] at hfirst
      simp at hfirst
  | lexical e =>
      unfold message at h
      have hfirst := congrArg (·.toList.head?) h
      cases e <;> simp [LexicalError.message] at hfirst
  | _ =>
      unfold message at h
      have hfirst := congrArg (·.toList.head?) h
      simp at hfirst

/-- Only of a call that goes round it is said that it does. -/
theorem eq_of_message_recursive (hlegible : cause.Legible)
    (h : cause.message = "Recursive reference to function: " ++ name ++ ".") :
    cause = .recursive name := by
  cases cause with
  | recursive n =>
      unfold message at h
      simpa only [String.append_left_inj, String.append_right_inj, recursive.injEq] using h
  | nameOfIntrinsic n | nameOfConstant n =>
      unfold message at h
      have hfront := congrArg (fun s => (s.toList.dropWhile continuesIdent).take 2) h
      dsimp only at hfront
      rw [dropWhile_name (hlegible n rfl)] at hfront
      simp [continuesIdent] at hfront
  | arity n k =>
      have hfirst := congrArg (·.toList.head?.map Char.isDigit) h
      rw [isDigit_head_arity] at hfirst
      simp at hfirst
  | lexical e =>
      unfold message at h
      have hfirst := congrArg (·.toList.head?) h
      cases e <;> simp [LexicalError.message] at hfirst
  | _ =>
      unfold message at h
      have hfirst := congrArg (·.toList.head?) h
      simp at hfirst

/-- No other message begins with a number than the one on the number of arguments. -/
theorem eq_of_message_arity {n : Nat} (hlegible : cause.Legible)
    (h : cause.message = (arity name n).message) : cause = .arity name n := by
  have hdigit : cause.message.toList.head?.map Char.isDigit = some true := by
    rw [h, isDigit_head_arity]
  cases cause with
  | arity name' n' =>
      have hdigits := congrArg (fun s => Decimal.digitsValue (s.toList.takeWhile Char.isDigit)) h
      simp only [takeWhile_arity, Decimal.digitsValue_toDigits] at hdigits
      subst hdigits
      unfold message at h
      simpa only [String.append_left_inj, String.append_right_inj, arity.injEq, and_true] using h
  | nameOfIntrinsic name' | nameOfConstant name' =>
      unfold message at hdigit
      rw [isDigit_head_name (hlegible name' rfl)] at hdigit
      cases hdigit
  | lexical e =>
      unfold message at hdigit
      cases e <;> simp [LexicalError.message] at hdigit
  | _ =>
      unfold message at hdigit
      simp at hdigit

end Cause

end FormulaPlot
