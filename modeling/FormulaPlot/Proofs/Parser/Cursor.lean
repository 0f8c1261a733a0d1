/-
The tokens around a cursor.

A cursor cuts its tokens off the text one at a time, and a reader is given all of them at once.
Looking at the next token, and at what is behind it, is the same for both.

A walk changes its cursor in two ways.  It takes a token that is not the last, and it sets the
number of open levels to one that is allowed.  So whatever a walk does, the tokens that it took
and those from its cursor on are still the tokens of the text, and there never were more levels
than are allowed.
-/
import Mathlib.Logic.Relation
import FormulaPlot.Parser.Cursor
import FormulaPlot.Proofs.Parser.Header

namespace FormulaPlot.Parser

variable {start column : Nat} {text : List Char} {c c' : Cursor}

/-! ### The tokens from a cursor on -/

/-- The tokens from the one on that comes next. -/
def Cursor.ahead (c : Cursor) : List Token :=
  if c.token.isLast = true then [c.token]
  else c.token :: Token.tokenizeFrom (c.token.start + c.token.size)
    (c.token.column + c.token.lexeme.length) c.text

theorem ahead_ofText (start column : Nat) (text : List Char) :
    (Cursor.ofText start column text).ahead = Token.tokenizeFrom start column text := by
  rw [Token.tokenizeFrom]
  cases text with
  | nil => rfl
  | cons char text =>
      simp only [Cursor.ahead, Cursor.ofText, reduceCtorEq, or_false, dite_eq_ite]
      exact if_congr Iff.rfl rfl rfl

theorem ahead_next (h : c.token.isLast = false) : c.ahead = c.token :: c.next.ahead := by
  rw [Cursor.ahead, if_neg (by simp [h]), ← ahead_ofText]
  rfl

theorem exists_ahead (c : Cursor) : ∃ later, c.ahead = c.token :: later := by
  unfold Cursor.ahead
  split
  · exact ⟨[], rfl⟩
  · exact ⟨_, rfl⟩

@[simp] theorem column_ahead (c : Cursor) : Parser.column c.ahead = c.token.column := by
  obtain ⟨later, h⟩ := exists_ahead c
  rw [h, Parser.column]

/-- A step that looks at the kind of the next token takes the token that the cursor is at. -/
theorem ByKind.ahead {β : Type} {step : List Token → Option (β × List Token)}
    {meaning : Token.Kind → Option β} (h : ByKind step meaning)
    (hgoing : ∀ b, meaning c.token.kind = some b → c.token.isLast = false) :
    step c.ahead = (meaning c.token.kind).map fun b => (b, c.next.ahead) := by
  cases hmeaning : meaning c.token.kind with
  | none =>
      obtain ⟨later, hlater⟩ := exists_ahead c
      rw [hlater, h.cons_eq_none hmeaning, Option.map_none]
  | some b =>
      rw [ahead_next (hgoing b hmeaning)]
      exact h.eq_some.mpr ⟨_, rfl, hmeaning⟩

theorem isLast_of_symbol? {sym : Symbol} (h : c.symbol? = some sym) : c.token.isLast = false := by
  unfold Cursor.symbol? at h
  split at h
  · rename_i s hs
    exact isLast_of_symbol hs
  · cases h

theorem isLast_of_name? {name : String} (h : c.name? = some name) : c.token.isLast = false := by
  unfold Cursor.name? at h
  split at h
  · rename_i s hs
    exact isLast_of_kind hs
  · cases h

theorem symbol?_kind (c : Cursor) : symbol? c.token.kind = c.symbol? := by
  unfold symbol? Cursor.symbol?
  cases c.token.kind <;> rfl

theorem name?_kind (c : Cursor) : name? c.token.kind = c.name? := by
  unfold name? Cursor.name?
  cases c.token.kind <;> rfl

theorem binaryOp?_ahead (c : Cursor) :
    binaryOp? c.ahead = (c.symbol?.bind BinaryOp.ofSymbol?).map fun op => (op, c.next.ahead) := by
  rw [byKind_binaryOp?.ahead, symbol?_kind]
  intro op h
  obtain ⟨sym, hsym, -⟩ := Option.bind_eq_some_iff.mp h
  exact isLast_of_symbol? (symbol?_kind c ▸ hsym)

theorem unaryOp?_ahead (c : Cursor) :
    unaryOp? c.ahead = (c.symbol?.bind UnaryOp.ofSymbol?).map fun op => (op, c.next.ahead) := by
  rw [byKind_unaryOp?.ahead, symbol?_kind]
  intro op h
  obtain ⟨sym, hsym, -⟩ := Option.bind_eq_some_iff.mp h
  exact isLast_of_symbol? (symbol?_kind c ▸ hsym)

theorem ident?_ahead (c : Cursor) :
    ident? c.ahead = c.name?.map fun name => (name, c.next.ahead) := by
  rw [byKind_ident?.ahead, name?_kind]
  exact fun name h => isLast_of_name? (name?_kind c ▸ h)

theorem after?_ahead (sym : Symbol) (c : Cursor) :
    after? sym c.ahead = if c.symbol? = some sym then some c.next.ahead else none := by
  split
  next h =>
    rw [ahead_next (isLast_of_symbol? h)]
    exact after?_eq_some.mpr ⟨_, rfl, symbol?_eq_some.mp (symbol?_kind c ▸ h)⟩
  next h =>
    obtain ⟨later, hlater⟩ := exists_ahead c
    rw [hlater]
    exact after?_cons_of_ne fun hkind => h (symbol?_kind c ▸ symbol?_eq_some.mpr hkind)

theorem atFinish_ahead (c : Cursor) : Parser.atFinish c.ahead = c.atFinish := by
  obtain ⟨later, hlater⟩ := exists_ahead c
  rw [hlater]
  unfold Parser.atFinish Cursor.atFinish
  cases c.token with
  | mk kind => cases kind <;> rfl

theorem error?_ahead (c : Cursor) : c.ahead.head?.bind Token.error? = c.token.error? := by
  obtain ⟨later, hlater⟩ := exists_ahead c
  rw [hlater]
  rfl

/-! ### What a walk does to its cursor -/

/-- A token that is not the last is taken, or another number of levels is open. -/
inductive Step (c : Cursor) : Cursor → Prop
  | next (h : c.token.isLast = false) : Step c c.next
  | atDepth {depth : Nat} (h : depth ≤ maxDepth) : Step c (c.atDepth depth)

/-- The cursor comes to another one step by step. -/
abbrev Passes : Cursor → Cursor → Prop := Relation.ReflTransGen Step

theorem Step.depth_le (h : Step c c') (hc : c.depth ≤ maxDepth) : c'.depth ≤ maxDepth := by
  cases h with
  | next => exact hc
  | atDepth h => exact h

theorem Step.deepest_le (h : Step c c') : c'.deepest ≤ max c.deepest maxDepth := by
  cases h with
  | next => exact Nat.le_max_left _ _
  | atDepth h => exact max_le_max_left c.deepest h

theorem Step.tokens (h : Step c c') : ∃ used, c'.taken = c.taken ++ used ∧
    c.ahead = used ++ c'.ahead ∧ ∀ t ∈ used, t.isLast = false := by
  cases h with
  | next h => exact ⟨[c.token], rfl, ahead_next h, by simpa using h⟩
  | atDepth => exact ⟨[], by simp [Cursor.atDepth], rfl, by simp⟩

theorem Passes.depth_le (h : Passes c c') (hc : c.depth ≤ maxDepth) : c'.depth ≤ maxDepth := by
  induction h with
  | refl => exact hc
  | tail _ hstep ih => exact hstep.depth_le ih

/-- There never are more levels open than are allowed. -/
theorem Passes.deepest_le (h : Passes c c') : c'.deepest ≤ max c.deepest maxDepth := by
  induction h with
  | refl => exact Nat.le_max_left _ _
  | tail _ hstep ih =>
      have := hstep.deepest_le
      omega

/-- What has been taken was ahead, and it was not the last. -/
theorem Passes.tokens (h : Passes c c') : ∃ used, c'.taken = c.taken ++ used ∧
    c.ahead = used ++ c'.ahead ∧ ∀ t ∈ used, t.isLast = false := by
  induction h with
  | refl => exact ⟨[], by simp⟩
  | tail _ hstep ih =>
      obtain ⟨used, htaken, hahead, hused⟩ := ih
      obtain ⟨used', htaken', hahead', hused'⟩ := hstep.tokens
      refine ⟨used ++ used', ?_, ?_, ?_⟩
      · rw [htaken', htaken, List.append_assoc]
      · rw [hahead, hahead', List.append_assoc]
      · simpa [or_imp, forall_and] using ⟨hused, hused'⟩

theorem Passes.length_le (h : Passes c c') : c'.ahead.length ≤ c.ahead.length := by
  obtain ⟨used, -, hahead, -⟩ := h.tokens
  rw [hahead, List.length_append]
  exact Nat.le_add_left _ _

/-- A cursor that can be come to in a text: by taking tokens that are not the last, with any
number of levels open and any on record as the most there were. -/
inductive Reachable (start column : Nat) (text : List Char) : Cursor → Prop
  | start : Reachable start column text (.ofText start column text)
  | next {c : Cursor} (h : Reachable start column text c) (hgoing : c.token.isLast = false) :
      Reachable start column text c.next
  | atDepth {c : Cursor} (h : Reachable start column text c) (depth deepest : Nat) :
      Reachable start column text { c with depth, deepest }

theorem Reachable.passes (h : Reachable start column text c) (hpass : Passes c c') :
    Reachable start column text c' := by
  induction hpass with
  | refl => exact h
  | tail _ hstep ih =>
      cases hstep with
      | next hgoing => exact ih.next hgoing
      | atDepth => exact ih.atDepth _ _

/-- The tokens of the text are those that were taken and those that are left, and none that was
taken is the last. -/
theorem Reachable.tokens (h : Reachable start column text c) :
    Token.tokenizeFrom start column text = c.taken ++ c.ahead ∧
      ∀ t ∈ c.taken, t.isLast = false := by
  induction h with
  | start => exact ⟨(ahead_ofText start column text).symm, fun _ h => nomatch h⟩
  | @next c _ hgoing ih =>
      obtain ⟨htokens, htaken⟩ := ih
      refine ⟨?_, ?_⟩
      · rw [htokens, ahead_next hgoing, List.append_cons]
        rfl
      · show ∀ t ∈ c.taken ++ [c.token], t.isLast = false
        simpa [or_imp, forall_and] using ⟨htaken, hgoing⟩
  | atDepth _ _ _ ih => exact ih

end FormulaPlot.Parser
