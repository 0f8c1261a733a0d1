/-
Where a walk through an expression leads.

A walk goes along with the reader that is given the same tokens.  With as many levels left as
the cursor can still open, the two look at the same token, ask the same questions and fail at
the same places.

Nor does a walk run out of fuel if there is enough of it for the tokens ahead.  A ternary, its
operators, an operand with prefix operators and an atom are a call each, and these four may begin
at the same token; what an atom calls begins behind it.  The operands of a function are one call
more, but only two begin at the parenthesis in front of them.  So four calls for each token ahead
suffice, and three more for a walk that begins with a ternary.

What a reader has by itself, a walk has to keep.  Where the reader gives back the tokens that it
did not use, as many levels are open as there were in front of the first of them: a level that
is opened is closed by the same walk, and what the folds of an operator leave open is taken back
behind the last operand.
-/
import FormulaPlot.Proofs.Parser.Cursor
import FormulaPlot.Proofs.Parser.Fuel

namespace FormulaPlot.Parser

open Inquiry (fail)

variable {c c' c'' : Cursor}

/-! ### A walk beside a reading -/

section

variable {σ α β γ δ : Type} {answer : String → σ → Answer × σ}

/-- A walk and a reading came to the same end: both failed with one fault, or the values of both
are related where the walk is now.  The cursor came there step by step. -/
inductive Meets (c : Cursor) (Q : α → Cursor → β → Prop) :
    Option (Except Fault α × Cursor × σ) → Except Fault β × σ → Prop
  | ok {a : α} {b : β} {c' : Cursor} {s : σ} (hpass : Passes c c') (h : Q a c' b) :
      Meets c Q (some (.ok a, c', s)) (.ok b, s)
  | error {fault : Fault} {c' : Cursor} {s : σ} (hpass : Passes c c') :
      Meets c Q (some (.error fault, c', s)) (.error fault, s)

/-- From the cursor the walk comes to the end that the reading comes to. -/
def Tracks (answer : String → σ → Answer × σ) (walk : Walk σ α) (reading : Inquiry β)
    (c : Cursor) (Q : α → Cursor → β → Prop) : Prop :=
  ∀ s, Meets c Q (walk (c, s)) (reading.run answer s)

variable {walk : Walk σ α} {reading : Inquiry β} {f : α → Walk σ γ} {g : β → Inquiry δ}
  {P : α → Cursor → β → Prop} {Q : γ → Cursor → δ → Prop}

/-- An end that is met from a cursor further on is met from here. -/
theorem Meets.before {outcome : Option (Except Fault α × Cursor × σ)} {result : Except Fault β × σ}
    (h : Meets c' P outcome result) (hpass : Passes c c') : Meets c P outcome result := by
  cases h with
  | ok hpass' h => exact .ok (hpass.trans hpass') h
  | error hpass' => exact .error (hpass.trans hpass')

theorem Meets.imp {Q : α → Cursor → β → Prop} {outcome : Option (Except Fault α × Cursor × σ)}
    {result : Except Fault β × σ} (h : Meets c P outcome result)
    (hPQ : ∀ a c' b, P a c' b → Q a c' b) : Meets c Q outcome result := by
  cases h with
  | ok hpass h => exact .ok hpass (hPQ _ _ _ h)
  | error hpass => exact .error hpass

theorem Tracks.imp {Q : α → Cursor → β → Prop} (h : Tracks answer walk reading c P)
    (hPQ : ∀ a c' b, P a c' b → Q a c' b) : Tracks answer walk reading c Q :=
  fun s => (h s).imp hPQ

/-- Two walks track two readings if the first tracks the first, and from where it leads the
second tracks the second. -/
theorem Tracks.bind (h : Tracks answer walk reading c P)
    (hnext : ∀ a c' b, Passes c c' → P a c' b → Tracks answer (f a) (g b) c' Q) :
    Tracks answer (walk >>= f) (reading >>= g) c Q := by
  intro s
  rw [Walk.run_bind, Inquiry.run_bind]
  have hfirst := h s
  revert hfirst
  generalize walk (c, s) = outcome, reading.run answer s = result
  intro hfirst
  cases hfirst with
  | ok hpass hP => exact (hnext _ _ _ hpass hP _).before hpass
  | error hpass => exact .error hpass

/-- A walk that fails fails whatever would have come after it. -/
theorem Tracks.fails {fault : Fault}
    (h : Tracks answer walk (fail fault : Inquiry Unit) c fun _ _ _ => True) :
    Tracks answer (walk >>= f) (fail fault : Inquiry δ) c Q := by
  intro s
  rw [Walk.run_bind]
  have hfirst : Meets c _ (walk (c, s)) (.error fault, s) := h s
  revert hfirst
  generalize walk (c, s) = outcome
  intro hfirst
  cases hfirst with
  | error hpass => exact .error hpass

theorem tracks_pure {a : α} {b : β} (h : P a c b) :
    Tracks answer (pure a) (pure b) c P := fun _ => .ok .refl h

theorem tracks_fail {fault : Fault} : Tracks answer (throw fault) (fail fault) c P :=
  fun _ => .error .refl

theorem tracks_refuse {cause : Cause} :
    Tracks answer (Walk.refuse cause) (failAt c.ahead cause) c P := by
  intro s
  rw [failAt, column_ahead]
  exact .error .refl

/-- Looking at the cursor changes nothing. -/
theorem Tracks.cursor {f : Cursor → Walk σ α} (h : Tracks answer (f c) reading c P) :
    Tracks answer (Walk.cursor >>= f) reading c P :=
  h

/-- Going on from a cursor that is one step ahead. -/
theorem Tracks.goTo {f : Unit → Walk σ α} (hstep : Step c c')
    (h : Tracks answer (f ()) reading c' P) : Tracks answer (Walk.goTo c' >>= f) reading c P :=
  fun s => (h s).before (.single hstep)

end

/-- Fewer tokens are ahead, and as many levels are open as there were. -/
structure Balanced (c c' : Cursor) : Prop where
  clear : c'.token.error? = none
  depth : c'.depth = c.depth
  progress : c'.ahead.length < c.ahead.length

theorem Balanced.trans (h : Balanced c c') (h' : Balanced c' c'') : Balanced c c'' :=
  ⟨h'.clear, h'.depth.trans h.depth, h'.progress.trans h.progress⟩

/-- The walk moved on to the tokens that were given back. -/
def MovesTo (c : Cursor) (_ : Unit) (c' : Cursor) (ts : List Token) : Prop :=
  ts = c'.ahead ∧ Balanced c c'

/-- The walk has the value that was read, and moved on to the tokens that were not used. -/
def Lands {α : Type} (c : Cursor) (a : α) (c' : Cursor) (out : α × List Token) : Prop :=
  out = (a, c'.ahead) ∧ Balanced c c'

section

variable {σ α β γ δ : Type} {answer : String → σ → Answer × σ}

theorem Tracks.step {walk : Walk σ Unit} {reading : Inquiry (List Token)} {f : Unit → Walk σ γ}
    {g : List Token → Inquiry δ} {Q : γ → Cursor → δ → Prop}
    (h : Tracks answer walk reading c (MovesTo c))
    (hnext : ∀ c', Passes c c' → Balanced c c' → Tracks answer (f ()) (g c'.ahead) c' Q) :
    Tracks answer (walk >>= f) (reading >>= g) c Q := by
  refine h.bind ?_
  rintro ⟨⟩ c' _ hpass ⟨rfl, hbalanced⟩
  exact hnext c' hpass hbalanced

theorem Tracks.read {walk : Walk σ α} {reading : Inquiry (α × List Token)} {f : α → Walk σ γ}
    {g : α × List Token → Inquiry δ} {Q : γ → Cursor → δ → Prop}
    (h : Tracks answer walk reading c (Lands c))
    (hnext : ∀ a c', Passes c c' → Balanced c c' → Tracks answer (f a) (g (a, c'.ahead)) c' Q) :
    Tracks answer (walk >>= f) (reading >>= g) c Q := by
  refine h.bind ?_
  rintro a c' _ hpass ⟨rfl, hbalanced⟩
  exact hnext a c' hpass hbalanced

theorem tracks_check : Tracks answer Walk.check (moveTo c.ahead) c
    fun _ c' ts => c' = c ∧ ts = c.ahead ∧ c.token.error? = none := by
  refine Tracks.cursor ?_
  unfold moveTo
  rw [error?_ahead]
  cases h : c.token.error? with
  | some e => exact tracks_refuse
  | none => exact tracks_pure ⟨rfl, rfl, rfl⟩

/-- A token that is not the last can be taken. -/
theorem tracks_advance (h : c.token.isLast = false) :
    Tracks answer Walk.advance (moveTo c.next.ahead) c (MovesTo c) := by
  intro s
  have hcheck : Meets c.next _ (Walk.advance (c, s)) ((moveTo c.next.ahead).run answer s) :=
    tracks_check s
  refine (hcheck.imp ?_).before (.single (.next h))
  rintro _ _ _ ⟨rfl, rfl, hclear⟩
  exact ⟨rfl, hclear, rfl, by simp [ahead_next h]⟩

theorem tracks_expect (sym : Symbol) :
    Tracks answer (Walk.expect sym) (expect sym c.ahead) c (MovesTo c) := by
  refine Tracks.cursor ?_
  unfold expect
  rw [after?_ahead]
  by_cases h : c.symbol? = some sym
  · rw [if_pos h, if_pos h]
    exact tracks_advance (isLast_of_symbol? h)
  · rw [if_neg h, if_neg h]
    exact tracks_refuse

theorem tracks_inquire (inquiry : Inquiry α) : Tracks answer (Walk.inquire answer inquiry) inquiry c
    fun a c' b => c' = c ∧ b = a := by
  intro s
  show Meets c _ (some ((inquiry.run answer s).1, c, (inquiry.run answer s).2)) _
  cases inquiry.run answer s with
  | mk outcome s =>
      cases outcome with
      | ok a => exact .ok .refl ⟨rfl, rfl⟩
      | error fault => exact .error .refl

/-! ### Levels -/

/-- With a level left the walk goes on one level deeper. -/
theorem Tracks.enter {f : Unit → Walk σ α} {reading : Inquiry β} {Q : α → Cursor → β → Prop}
    (hdepth : c.depth < maxDepth)
    (h : Tracks answer (f ()) reading (c.atDepth (c.depth + 1)) Q) :
    Tracks answer (Walk.enter >>= f) reading c Q := by
  intro s
  rw [Walk.run_bind, Walk.run_enter, if_pos hdepth]
  exact (h s).before (.single (.atDepth hdepth))

/-- Without a level left nothing is read. -/
theorem tracks_enter_full {Q : Unit → Cursor → β → Prop} (hdepth : c.depth = maxDepth) :
    Tracks answer Walk.enter (failAt c.ahead .tooDeep) c Q := by
  intro s
  rw [Walk.run_enter, if_neg (by omega), failAt, column_ahead]
  exact .error .refl

theorem tracks_nested_full {walk : Walk σ α} {Q : α → Cursor → β → Prop}
    (hdepth : c.depth = maxDepth) :
    Tracks answer (Walk.nested walk) (failAt c.ahead .tooDeep) c Q := by
  intro s
  rw [Walk.run_nested, if_neg (by omega), failAt, column_ahead]
  exact .error .refl

/-- A level that was opened is closed again. -/
theorem Tracks.nested {walk : Walk σ α} {reading : Inquiry (α × List Token)}
    (hdepth : c.depth < maxDepth)
    (h : Tracks answer walk reading (c.atDepth (c.depth + 1)) (Lands (c.atDepth (c.depth + 1)))) :
    Tracks answer (Walk.nested walk) reading c (Lands c) := by
  have hopen : Passes c (c.atDepth (c.depth + 1)) := .single (.atDepth hdepth)
  have hclose : ∀ c', Passes (c.atDepth (c.depth + 1)) c' → Step c' (c'.atDepth (c'.depth - 1)) :=
    fun c' hpass => .atDepth (Nat.sub_le_of_le_add (Nat.le_succ_of_le (hpass.depth_le hdepth)))
  intro s
  rw [Walk.run_nested, if_pos hdepth]
  have hinner := h s
  revert hinner
  generalize walk (c.atDepth (c.depth + 1), s) = outcome, reading.run answer s = result
  intro hinner
  cases hinner with
  | ok hpass hlands =>
      obtain ⟨rfl, hclear, hbalanced, hprogress⟩ := hlands
      refine .ok ((hopen.trans hpass).tail (hclose _ hpass)) ⟨rfl, hclear, ?_, hprogress⟩
      exact congrArg (· - 1) hbalanced
  | error hpass => exact .error ((hopen.trans hpass).tail (hclose _ hpass))

end

/-! ### Calls -/

section

variable {σ : Type} (answer : String → σ → Answer × σ) {names : List String} {d : Nat}
  {t : Token} {us : List Token}

/-- With as many levels left as the cursor can still open, the reader is tracked by the walk.  Four
calls for each token ahead and a few more are enough. -/
def Mirrors (walk : Nat → Walk σ Expr) (more : Nat) (reader : Reader Expr) (d : Nat) : Prop :=
  ∀ c fuel, c.depth + d = maxDepth → 4 * c.ahead.length + more ≤ fuel →
    Tracks answer (walk fuel) (reader c.ahead) c (Lands c)

variable {answer}

/-- Some token always is ahead, so there is fuel for a call. -/
theorem exists_fuel {fuel more : Nat} (h : 4 * c.ahead.length + more ≤ fuel) :
    ∃ less, fuel = less + 1 := by
  obtain ⟨later, hahead⟩ := exists_ahead c
  rw [hahead, List.length_cons] at h
  exact ⟨fuel - 1, by omega⟩

theorem tracks_operands
    (hternary : Mirrors answer (Walk.ternary answer names) 3 (ternary names d) d) (bound : Nat) :
    ∀ (c : Cursor) (fuel : Nat), c.depth + d = maxDepth → 4 * c.ahead.length + 4 ≤ fuel →
      c.ahead.length ≤ bound →
      Tracks answer (Walk.operands answer names fuel) (operands (ternary names d) bound c.ahead) c
        (Lands c) := by
  induction bound with
  | zero =>
      intro c _ _ _ hbound
      obtain ⟨later, hahead⟩ := exists_ahead c
      rw [hahead] at hbound
      cases hbound
  | succ bound ih =>
      intro c fuel hdepth hfuel hbound
      obtain ⟨fuel, rfl⟩ := exists_fuel hfuel
      rw [Walk.operands, operands]
      refine (hternary c fuel hdepth (by omega)).read fun first c₁ _ hfirst => .cursor ?_
      dsimp only
      rw [after?_ahead]
      by_cases hcomma : c₁.symbol? = some .comma
      · rw [if_pos hcomma, if_pos hcomma]
        refine (tracks_advance (isLast_of_symbol? hcomma)).step fun c₂ _ hadvance => ?_
        have h₂ := hfirst.trans hadvance
        have hless := h₂.progress
        refine (ih c₂ fuel (by rw [h₂.depth, hdepth]) (by omega) (by omega)).read
          fun others c₃ _ hothers => ?_
        exact tracks_pure ⟨rfl, h₂.trans hothers⟩
      · rw [if_neg hcomma, if_neg hcomma]
        exact tracks_pure ⟨rfl, hfirst⟩

theorem tracks_call (hternary : Mirrors answer (Walk.ternary answer names) 3 (ternary names d) d)
    (name : String) (column : Nat) (hdepth : c.depth + d = maxDepth) {fuel : Nat}
    (hfuel : 4 * c.ahead.length + 1 ≤ fuel) :
    Tracks answer (Walk.call answer names fuel name column)
      (call (ternary names d) name column c.ahead) c (Lands c) := by
  obtain ⟨fuel, rfl⟩ := exists_fuel hfuel
  rw [Walk.call, call]
  refine (tracks_inquire (callee name column)).bind ?_
  rintro f _ _ _ ⟨rfl, rfl⟩
  refine (tracks_expect .openParen).step fun c₁ _ hopen => ?_
  have hdepth₁ : c₁.depth + d = maxDepth := by rw [hopen.depth, hdepth]
  have hless := hopen.progress
  refine (tracks_operands hternary _ c₁ fuel hdepth₁ (by omega) (Nat.le_refl _)).read
    fun args c₂ _ hargs => ?_
  refine (tracks_expect .closeParen).step fun c₃ _ hclose => ?_
  split
  · exact tracks_pure ⟨rfl, (hopen.trans hargs).trans hclose⟩
  · exact tracks_fail

/-- What belongs to a name is read from the token behind the name. -/
theorem tracks_resolve (hternary : Mirrors answer (Walk.ternary answer names) 3 (ternary names d) d)
    (name : String) (column : Nat) (hname : Balanced c c') (hdepth : c'.depth + d = maxDepth)
    {fuel : Nat} (hfuel : 4 * c'.ahead.length + 2 ≤ fuel) :
    Tracks answer (Walk.resolve answer names fuel name column)
      (resolve (ternary names d) names name column c'.ahead) c' (Lands c) := by
  obtain ⟨fuel, rfl⟩ := exists_fuel hfuel
  rw [Walk.resolve, resolve]
  cases names.idxOf? name with
  | some index => exact tracks_pure ⟨rfl, hname⟩
  | none =>
      cases Constant.value? name with
      | some value => exact tracks_pure ⟨rfl, hname⟩
      | none =>
          refine .cursor ?_
          dsimp only
          rw [after?_ahead]
          by_cases hopen : c'.symbol? = some .openParen
          · rw [if_pos hopen, if_pos hopen, if_pos Option.isSome_some]
            refine (tracks_call hternary name column hdepth (by omega)).imp ?_
            rintro e c'' _ ⟨rfl, hcall⟩
            exact ⟨rfl, hname.trans hcall⟩
          · rw [if_neg hopen, if_neg hopen, if_neg (by simp)]
            exact tracks_fail

/-! ### One walk after the other -/

/-- Nothing else begins an operand without operators. -/
theorem atom_refused (hnumber : ∀ value, t.kind ≠ .number value)
    (hident : ∀ name, t.kind ≠ .ident name) (hopen : t.kind ≠ .symbol .openParen) :
    atom names d (t :: us) = failAt (t :: us) .expressionExpected := by
  rw [atom, after?_cons_of_ne hopen]
  · rintro value lexeme start column rest ⟨⟩
    exact hnumber value rfl
  · rintro name lexeme start column rest ⟨⟩
    exact hident name rfl

theorem mirrors_atom
    (hternary : Mirrors answer (Walk.ternary answer names) 3 (ternary names d) d) :
    Mirrors answer (Walk.atom answer names) 0 (atom names d) d := by
  intro c fuel hdepth hfuel
  obtain ⟨fuel, rfl⟩ := exists_fuel hfuel
  rw [Walk.atom]
  refine .cursor ?_
  dsimp only
  split
  next value hkind =>
    have hgoing : c.token.isLast = false := by rw [Token.isLast_eq, hkind]; rfl
    rw [ahead_next hgoing, atom_number hkind]
    refine (tracks_advance hgoing).step fun c₁ _ hadvance => ?_
    exact tracks_pure ⟨rfl, hadvance⟩
  next name hkind =>
    have hgoing : c.token.isLast = false := isLast_of_kind hkind
    rw [ahead_next hgoing, atom_ident hkind]
    refine (tracks_advance hgoing).step fun c₁ _ hadvance => ?_
    have hdepth₁ : c₁.depth + d = maxDepth := by rw [hadvance.depth, hdepth]
    have hless := hadvance.progress
    exact tracks_resolve hternary name c.token.column hadvance hdepth₁ (by omega)
  next hkind =>
    have hgoing : c.token.isLast = false := isLast_of_symbol hkind
    rw [ahead_next hgoing, atom_openParen hkind]
    refine (tracks_advance hgoing).step fun c₁ _ hadvance => ?_
    have hdepth₁ : c₁.depth + d = maxDepth := by rw [hadvance.depth, hdepth]
    have hless := hadvance.progress
    refine (hternary c₁ fuel hdepth₁ (by omega)).read fun inner c₂ _ hinner => ?_
    refine (tracks_expect .closeParen).step fun c₃ _ hclose => ?_
    exact tracks_pure ⟨rfl, (hadvance.trans hinner).trans hclose⟩
  next hnumber hident hopen =>
    obtain ⟨later, hahead⟩ := exists_ahead c
    rw [hahead, atom_refused hnumber hident hopen, ← hahead]
    exact tracks_refuse

theorem mirrors_unary (hatom : Mirrors answer (Walk.atom answer names) 0 (atom names d) d)
    (hunary : ∀ less, d = less + 1 →
      Mirrors answer (Walk.unary answer names) 1 (unary names less) less) :
    Mirrors answer (Walk.unary answer names) 1 (unary names d) d := by
  intro c fuel hdepth hfuel
  obtain ⟨fuel, rfl⟩ := exists_fuel hfuel
  rw [Walk.unary, unary]
  refine .cursor ?_
  rw [unaryOp?_ahead]
  cases hop : c.symbol?.bind UnaryOp.ofSymbol? with
  | none => exact hatom c fuel hdepth (by omega)
  | some op =>
      obtain ⟨sym, hsym, -⟩ := Option.bind_eq_some_iff.mp hop
      refine (tracks_advance (isLast_of_symbol? hsym)).step fun c₁ _ hadvance => ?_
      have hdepth₁ := hadvance.depth
      have hless := hadvance.progress
      cases d with
      | zero =>
          exact (tracks_nested_full (by omega)).fails
      | succ less =>
          have hlevel : (c₁.atDepth (c₁.depth + 1)).depth + less = maxDepth := by
            show c₁.depth + 1 + less = maxDepth
            omega
          have hinner := (hunary less rfl _ fuel hlevel
            (show 4 * c₁.ahead.length + 1 ≤ fuel by omega)).nested (by omega)
          refine hinner.read fun operand c₂ _ hoperand => ?_
          exact tracks_pure ⟨rfl, hadvance.trans hoperand⟩

/-- The loop over operators, from any value. -/
def MirrorsLoop (answer : String → σ → Answer × σ) (names : List String) (d : Nat) : Prop :=
  ∀ min left c fuel, c.token.error? = none → c.depth + d = maxDepth →
    4 * c.ahead.length ≤ fuel →
    Tracks answer (Walk.folds answer names fuel min left) (folds names d min left c.ahead) c
      fun e c' out => out = (e, c'.ahead) ∧ c'.token.error? = none

theorem mirrors_folds
    (hless : ∀ less, d = less + 1 →
      (∀ min, Mirrors answer (Walk.binary answer names · min) 2 (binary names less min) less) ∧
        MirrorsLoop answer names less) :
    MirrorsLoop answer names d := by
  intro min left c fuel hclear hdepth hfuel
  obtain ⟨fuel, rfl⟩ := @exists_fuel c fuel 0 hfuel
  rw [Walk.folds, folds]
  refine .cursor ?_
  rw [binaryOp?_ahead]
  cases hop : c.symbol?.bind BinaryOp.ofSymbol? with
  | none => exact tracks_pure ⟨rfl, hclear⟩
  | some op =>
      obtain ⟨sym, hsym, -⟩ := Option.bind_eq_some_iff.mp hop
      simp only [Option.map_some]
      split
      · exact tracks_pure ⟨rfl, hclear⟩
      · refine (tracks_advance (isLast_of_symbol? hsym)).step fun c₁ _ hadvance => ?_
        have hdepth₁ := hadvance.depth
        have hshort := hadvance.progress
        cases d with
        | zero => exact (tracks_enter_full (by omega)).fails
        | succ less =>
            obtain ⟨hbinary, hfolds⟩ := hless less rfl
            have hlevel : (c₁.atDepth (c₁.depth + 1)).depth + less = maxDepth := by
              show c₁.depth + 1 + less = maxDepth
              omega
            refine .enter (by omega) ?_
            refine (hbinary op.rightMin _ fuel hlevel
              (show 4 * c₁.ahead.length + 2 ≤ fuel by omega)).read fun right c₂ _ hright => ?_
            have hshort₂ : c₂.ahead.length < c₁.ahead.length := hright.progress
            exact hfolds min _ c₂ fuel hright.clear (by rw [hright.depth, hlevel]) (by omega)

/-- Whatever the loop leaves open, the walk goes back to the levels that were open before. -/
theorem mirrors_binary (hunary : Mirrors answer (Walk.unary answer names) 1 (unary names d) d)
    (hfolds : MirrorsLoop answer names d) (min : Precedence) :
    Mirrors answer (Walk.binary answer names · min) 2 (binary names d min) d := by
  intro c fuel hdepth hfuel
  obtain ⟨fuel, rfl⟩ := exists_fuel hfuel
  dsimp only
  rw [Walk.binary, binary]
  refine .cursor ?_
  refine (hunary c fuel hdepth (by omega)).read fun left c₁ _ hleft => ?_
  have hless := hleft.progress
  have hloop := hfolds min left c₁ fuel hleft.clear (by rw [hleft.depth, hdepth]) (by omega)
  dsimp only
  rw [← bind_pure (folds names d min left c₁.ahead)]
  refine hloop.bind ?_
  rintro e c₂ _ hpass ⟨rfl, hclear⟩
  refine .cursor (.goTo (.atDepth (by omega)) (tracks_pure ⟨rfl, hclear, rfl, ?_⟩))
  exact Nat.lt_of_le_of_lt hpass.length_le hleft.progress

theorem mirrors_ternary_zero :
    Mirrors answer (Walk.ternary answer names) 3 (ternary names 0) 0 := by
  intro c fuel hdepth hfuel
  obtain ⟨fuel, rfl⟩ := exists_fuel hfuel
  rw [Walk.ternary, ternary]
  exact tracks_nested_full hdepth

theorem mirrors_ternary_succ
    (hbinary : ∀ min, Mirrors answer (Walk.binary answer names · min) 2 (binary names d min) d)
    (hternary : Mirrors answer (Walk.ternary answer names) 3 (ternary names d) d) :
    Mirrors answer (Walk.ternary answer names) 3 (ternary names (d + 1)) (d + 1) := by
  intro c fuel hdepth hfuel
  obtain ⟨fuel, rfl⟩ := exists_fuel hfuel
  rw [Walk.ternary, ternary]
  refine .nested (by omega) ?_
  have hlevel : (c.atDepth (c.depth + 1)).depth + d = maxDepth := by
    show c.depth + 1 + d = maxDepth
    omega
  have henough : 4 * (c.atDepth (c.depth + 1)).ahead.length + 2 ≤ fuel := by
    show 4 * c.ahead.length + 2 ≤ fuel
    omega
  refine (hbinary .disjunction _ fuel hlevel henough).read fun cond c₁ _ hcond => .cursor ?_
  dsimp only
  rw [after?_ahead]
  by_cases hquestion : c₁.symbol? = some .question
  · rw [if_pos hquestion, if_pos hquestion]
    refine (tracks_advance (isLast_of_symbol? hquestion)).step fun c₂ _ hadvance => ?_
    have h₂ := hcond.trans hadvance
    have hless₂ := h₂.progress
    refine (hbinary .disjunction c₂ fuel (by rw [h₂.depth, hlevel]) (by omega)).read
      fun yes c₃ _ hyes => ?_
    refine (tracks_expect .colon).step fun c₄ _ hcolon => ?_
    have h₄ := (h₂.trans hyes).trans hcolon
    have hless₄ := h₄.progress
    refine (hternary c₄ fuel (by rw [h₄.depth, hlevel]) (by omega)).read fun no c₅ _ hno => ?_
    exact tracks_pure ⟨rfl, h₄.trans hno⟩
  · rw [if_neg hquestion, if_neg hquestion]
    exact tracks_pure ⟨rfl, hcond⟩

/-- Every walk goes along with the reader of its name. -/
theorem mirrors (answer : String → σ → Answer × σ) (names : List String) (d : Nat) :
    Mirrors answer (Walk.ternary answer names) 3 (ternary names d) d ∧
      Mirrors answer (Walk.atom answer names) 0 (atom names d) d ∧
      Mirrors answer (Walk.unary answer names) 1 (unary names d) d ∧
      MirrorsLoop answer names d ∧
      ∀ min, Mirrors answer (Walk.binary answer names · min) 2 (binary names d min) d := by
  refine levels_induction
    (T := fun d => Mirrors answer (Walk.ternary answer names) 3 (ternary names d) d)
    (A := fun d => Mirrors answer (Walk.atom answer names) 0 (atom names d) d)
    (U := fun d => Mirrors answer (Walk.unary answer names) 1 (unary names d) d)
    (F := MirrorsLoop answer names)
    (B := fun d => ∀ min, Mirrors answer (Walk.binary answer names · min) 2 (binary names d min) d)
    ?_ ?_ ?_ ?_ ?_ ?_ ?_ ?_ d
  · exact mirrors_ternary_zero
  · exact fun d => mirrors_atom
  · exact fun hatom => mirrors_unary hatom (by simp)
  · exact mirrors_folds (by simp)
  · exact fun d => mirrors_binary
  · exact fun d => mirrors_ternary_succ
  · exact fun d hunary hatom => mirrors_unary hatom fun less h => by cases h; exact hunary
  · exact fun d hbinary hfolds => mirrors_folds fun less h => by cases h; exact ⟨hbinary, hfolds⟩

/-- A whole formula has been read if nothing is left in front of the end. -/
theorem tracks_finish (e : Expr) :
    Tracks answer
      (do if (← Walk.cursor).atFinish then return e else Walk.refuse .unexpectedToken)
      (if atFinish c.ahead then pure e else failAt c.ahead .unexpectedToken) c
      fun e _ e' => e' = e := by
  refine .cursor ?_
  rw [atFinish_ahead]
  split
  · exact tracks_pure rfl
  · exact tracks_refuse

theorem tracks_topLevel (names : List String) (hdepth : c.depth = 0) {fuel : Nat}
    (hfuel : 4 * c.ahead.length + 3 ≤ fuel) :
    Tracks answer (Walk.topLevel answer names fuel) (topLevel names c.ahead) c
      fun e _ e' => e' = e := by
  obtain ⟨hternary, -⟩ := mirrors answer names maxDepth
  unfold Walk.topLevel topLevel
  refine tracks_check.bind ?_
  rintro ⟨⟩ c _ _ ⟨rfl, rfl, -⟩
  refine (hternary c fuel (by omega) hfuel).read fun inner c₁ _ hinner => .cursor ?_
  dsimp only
  rw [after?_ahead]
  by_cases hcomma : c₁.symbol? = some .comma
  · rw [if_pos hcomma, if_pos hcomma]
    refine (tracks_advance (isLast_of_symbol? hcomma)).step fun c₂ _ hadvance => .cursor ?_
    rw [ident?_ahead]
    by_cases hwhere : c₂.name? = some "where"
    · rw [if_pos hwhere, hwhere]
      refine (tracks_advance (isLast_of_name? hwhere)).step fun c₃ _ hadvance' => ?_
      have h₃ := (hinner.trans hadvance).trans hadvance'
      have hdepth₃ : c₃.depth + maxDepth = maxDepth := by rw [h₃.depth, hdepth, Nat.zero_add]
      have hless := h₃.progress
      refine (hternary c₃ fuel hdepth₃ (by omega)).read fun cond c₄ _ _ => ?_
      simp only [pure_bind]
      exact tracks_finish _
    · rw [if_neg hwhere]
      split
      next rest hident =>
        obtain ⟨name, hname, heq⟩ := Option.map_eq_some_iff.mp hident
        obtain ⟨rfl, -⟩ := Prod.mk.inj heq
        exact absurd hname hwhere
      next => exact tracks_refuse.fails
  · rw [if_neg hcomma, if_neg hcomma]
    simp only [pure_bind]
    exact tracks_finish _

end

/-! ### Whole walks -/

section

variable {σ α β : Type} (answer : String → σ → Answer × σ) (names : List String)

/-- The reader of a routine. -/
def Routine.reader (depth : Nat) : Routine → Reader Expr
  | ternary => Parser.ternary names depth
  | binary min => Parser.binary names depth min
  | unary => Parser.unary names depth
  | atom => Parser.atom names depth

/-- The text between the two cursors has been walked through. -/
structure Completed (start column : Nat) (text : List Char) (c c' : Cursor) : Prop where
  /-- As many levels are open as there were. -/
  depth : c'.depth = c.depth
  /-- At least one token has been taken. -/
  taken : ∃ used, used ≠ [] ∧ c'.taken = c.taken ++ used
  /-- The token that comes next is the one of the text behind those that were taken. -/
  next : ∃ later, Token.tokenizeFrom start column text = c'.taken ++ c'.token :: later
  clear : c'.token.error? = none

theorem mirrors_routine (d : Nat) (routine : Routine) :
    Mirrors answer (routine.walk answer names) 3 (routine.reader names d) d := by
  obtain ⟨hternary, hatom, hunary, -, hbinary⟩ := mirrors answer names d
  intro c fuel hdepth hfuel
  cases routine with
  | ternary => exact hternary c fuel hdepth hfuel
  | binary min => exact hbinary min c fuel hdepth (by omega)
  | unary => exact hunary c fuel hdepth (by omega)
  | atom => exact hatom c fuel hdepth (by omega)

variable {answer} in
/-- A walk beside a reading ends. -/
theorem Tracks.exists_outcome {walk : Walk σ α} {reading : Inquiry β} {P : α → Cursor → β → Prop}
    (h : Tracks answer walk reading c P) (s : σ) :
    ∃ c', Passes c c' ∧
      ((∃ a b s', walk (c, s) = some (.ok a, c', s') ∧ reading.run answer s = (.ok b, s') ∧
        P a c' b) ∨
      ∃ fault s', walk (c, s) = some (.error fault, c', s') ∧
        reading.run answer s = (.error fault, s')) := by
  have hmeets := h s
  generalize walk (c, s) = outcome, reading.run answer s = result at hmeets
  cases hmeets with
  | ok hpass h => exact ⟨_, hpass, .inl ⟨_, _, _, rfl, rfl, h⟩⟩
  | error hpass => exact ⟨_, hpass, .inr ⟨_, _, rfl, rfl⟩⟩

theorem Balanced.completed {start column : Nat} {text : List Char}
    (h : Balanced c c') (hpass : Passes c c') (hc' : Reachable start column text c') :
    Completed start column text c c' := by
  obtain ⟨used, htaken, hused, -⟩ := hpass.tokens
  obtain ⟨htokens, -⟩ := hc'.tokens
  obtain ⟨later, hahead⟩ := exists_ahead c'
  refine ⟨h.depth, ⟨used, ?_, htaken⟩, ⟨later, hahead ▸ htokens⟩, h.clear⟩
  rintro rfl
  have hprogress := h.progress
  rw [hused, List.nil_append] at hprogress
  exact Nat.lt_irrefl _ hprogress

/-- **Walks end, and are balanced.**  From a cursor of a text that has no more levels open than are
allowed, every walk ends, and with what the reader of its name makes of the tokens ahead.  It never
takes more than four calls inside of one another for each of those tokens, and three more.  On its
way there never are more levels open than are allowed, and no last token is taken, which is the
end of the line or an error.  If the walk succeeds, it has taken a token and left as many levels
open as there were, and what comes next is the next token of the text and not an error.  So the
walk through a whole formula ends as well, whatever the text is. -/
theorem walks_balanced (start column : Nat) (text : List Char) :
    (∀ c, Reachable start column text c → c.depth ≤ maxDepth → ∀ (routine : Routine) (s : σ),
      ∃ outcome c' s',
        (∀ fuel, 4 * c.ahead.length + 3 ≤ fuel →
          routine.walk answer names fuel (c, s) = some (outcome, c', s')) ∧
        (routine.reader names (maxDepth - c.depth) c.ahead).run answer s =
          (outcome.map (·, c'.ahead), s') ∧
        Reachable start column text c' ∧ c'.deepest ≤ max c.deepest maxDepth ∧
        (∀ t ∈ c'.taken, t.isLast = false) ∧
        ∀ e, outcome = .ok e → Completed start column text c c') ∧
    ∀ s : σ, ∃ outcome c' s',
      (∀ fuel, 4 * (Token.tokenizeFrom start column text).length + 3 ≤ fuel →
        Walk.topLevel answer names fuel (.ofText start column text, s) =
          some (outcome, c', s')) ∧
        (topLevel names (Token.tokenizeFrom start column text)).run answer s = (outcome, s') ∧
        Reachable start column text c' ∧ c'.deepest ≤ maxDepth ∧
        ∀ t ∈ c'.taken, t.isLast = false := by
  refine ⟨fun c hc hdepth routine s => ?_, fun s => ?_⟩
  · have htracks := mirrors_routine answer names (maxDepth - c.depth) routine c _ (by omega) le_rfl
    obtain ⟨c', hpass, hend⟩ := htracks.exists_outcome s
    have hc' := hc.passes hpass
    rcases hend with ⟨e, _, s', hwalk, hread, rfl, hbalanced⟩ | ⟨fault, s', hwalk, hread⟩
    · exact ⟨.ok e, c', s', fun fuel hle => routine.walk_under answer names hle _ _ hwalk, hread,
        hc', hpass.deepest_le, hc'.tokens.2, fun _ _ => hbalanced.completed hpass hc'⟩
    · exact ⟨.error fault, c', s', fun fuel hle => routine.walk_under answer names hle _ _ hwalk,
        hread, hc', hpass.deepest_le, hc'.tokens.2, fun _ h => nomatch h⟩
  · have htracks : Tracks answer (Walk.topLevel answer names _)
        (topLevel names (Cursor.ofText start column text).ahead) (.ofText start column text)
        fun e _ e' => e' = e :=
      tracks_topLevel names rfl le_rfl
    obtain ⟨c', hpass, hend⟩ := htracks.exists_outcome s
    have hc' := Reachable.start.passes hpass
    rw [ahead_ofText] at hend
    have hdeepest : c'.deepest ≤ maxDepth := hpass.deepest_le
    rcases hend with ⟨_, _, s', hwalk, hread, rfl⟩ | ⟨fault, s', hwalk, hread⟩
    · exact ⟨.ok _, c', s', fun fuel hle => topLevel_under answer names hle _ _ hwalk, hread,
        hc', hdeepest, hc'.tokens.2⟩
    · exact ⟨.error fault, c', s', fun fuel hle => topLevel_under answer names hle _ _ hwalk,
        hread, hc', hdeepest, hc'.tokens.2⟩

/-- The operand behind a sign of multiplication, walked through with three levels open. -/
theorem walks_balanced_operand :
    let answer : String → Unit → Answer × Unit := fun _ s => (.missing, s)
    let text := "a*-(b+a)".toList
    let c := (Cursor.ofText 0 1 text).next.next.atDepth 3
    Reachable 0 1 text c ∧ c.depth ≤ maxDepth ∧
      ∃ e c', Walk.unary answer ["a", "b"] 31 (c, ()) = some (.ok e, c', ()) ∧
        Completed 0 1 text c c' ∧ c'.deepest ≤ max c.deepest maxDepth ∧
        ∀ t ∈ c'.taken, t.isLast = false := by
  intro answer text c
  have hc : Reachable 0 1 text c :=
    ((Reachable.start.next (by decide)).next (by decide)).atDepth 3 _
  have hdepth : c.depth ≤ maxDepth := by decide
  have hfuel : 4 * c.ahead.length + 3 ≤ 31 := by decide +kernel
  have hread : ((Routine.reader ["a", "b"] (maxDepth - c.depth) .unary c.ahead).run
      answer ()).1.isOk = true := by
    decide +kernel
  obtain ⟨outcome, c', s', hwalk, hreader, -, hdeepest, htaken, hcompleted⟩ :=
    (walks_balanced answer ["a", "b"] 0 1 text).1 c hc hdepth .unary ()
  cases outcome with
  | ok e => exact ⟨hc, hdepth, e, c', hwalk 31 hfuel, hcompleted e rfl, hdeepest, htaken⟩
  | error fault =>
      rw [hreader] at hread
      cases hread

end

end FormulaPlot.Parser
