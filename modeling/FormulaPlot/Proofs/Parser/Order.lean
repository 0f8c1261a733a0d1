/-
The order of the lines of a block.

The lines of a block may stand in any order, provided that no two of them define the same
function.  The same functions come out, the same lines are refused, and but for one thing the
errors are the same, too.  The one thing is where a circle of calls is noticed.

That the functions are the same is shown function by function, in the sequence in which one
of the two orders reads them.  Each was read against those before it.  If the other registry
has these, then it can read the body as well, so it has this function, too.  The errors follow:
against the same registry every body has the same fault, and what is reported of a fault is
the same but for the word on circles.
-/
import FormulaPlot.Proofs.Parser.Blame

namespace FormulaPlot

/-- Of registries with the same functions, a reading gets the same. -/
theorem Inquiry.against_congr {α : Type} {r r' : Registry}
    (h : ∀ name, r.get? name = r'.get? name) (m : Inquiry α) : m.against r = m.against r' := by
  induction m with
  | done result => rfl
  | ask name next ih =>
      unfold against
      rw [h name]
      cases r'.get? name with
      | some f => exact ih _
      | none => exact ih _

namespace Parser

/-! ### Lists in another order -/

section Matched

variable {β γ δ : Type} {R : β → γ → Prop}

/-- The elements of two lists are related one to one, in whatever order they stand. -/
def Matched (R : β → γ → Prop) (l : List β) (l' : List γ) : Prop :=
  ∃ m, m.Perm l ∧ List.Forall₂ R m l'

theorem matched_of_forall₂ {l : List β} {l' : List γ} (h : List.Forall₂ R l l') :
    Matched R l l' := ⟨l, .refl l, h⟩

theorem Matched.append {l₁ l₂ : List β} {l₁' l₂' : List γ} (h₁ : Matched R l₁ l₁')
    (h₂ : Matched R l₂ l₂') : Matched R (l₁ ++ l₂) (l₁' ++ l₂') := by
  obtain ⟨m₁, hperm₁, hrel₁⟩ := h₁
  obtain ⟨m₂, hperm₂, hrel₂⟩ := h₂
  exact ⟨m₁ ++ m₂, hperm₁.append hperm₂, List.rel_append hrel₁ hrel₂⟩

/-- Reordering the right list reorders the left one. -/
theorem Matched.perm_right {l : List β} {l₁ l₂ : List γ} (h : Matched R l l₁)
    (hperm : l₁.Perm l₂) : Matched R l l₂ := by
  obtain ⟨m, hm, hrel⟩ := h
  have hcomp : Relation.Comp (List.Forall₂ R) List.Perm m l₂ := ⟨l₁, hrel, hperm⟩
  rw [List.forall₂_comp_perm_eq_perm_comp_forall₂] at hcomp
  obtain ⟨m', hm', hrel'⟩ := hcomp
  exact ⟨m', hm'.symm.trans hm, hrel'⟩

theorem Matched.perm_left {l₁ l₂ : List β} {l' : List γ} (h : Matched R l₁ l')
    (hperm : l₁.Perm l₂) : Matched R l₂ l' := by
  obtain ⟨m, hm, hrel⟩ := h
  exact ⟨m, hm.trans hperm, hrel⟩

theorem Matched.imp {S : β → γ → Prop} {l : List β} {l' : List γ} (h : Matched R l l')
    (hRS : ∀ b ∈ l, ∀ c ∈ l', R b c → S b c) : Matched S l l' := by
  obtain ⟨m, hm, hrel⟩ := h
  have hleft := (List.forall₂_and_left _ _).mpr ⟨fun b hb => hm.mem_iff.mp hb, hrel⟩
  have hright := (List.forall₂_and_left _ _).mpr
    ⟨fun c (hc : c ∈ l') => hc, List.Forall₂.flip (R := flip _) hleft⟩
  exact ⟨m, hm, (hright.imp fun _ _ h => hRS _ h.2.1 _ h.1 h.2.2).flip⟩

theorem forall₂_trans {S : γ → δ → Prop} {l : List β} {m : List γ} {n : List δ}
    (h : List.Forall₂ R l m) (h' : List.Forall₂ S m n) :
    List.Forall₂ (Relation.Comp R S) l n := by
  induction h generalizing n with
  | nil =>
      cases h'
      exact .nil
  | @cons b c l m hb _ ih =>
      cases h' with
      | cons hc hrest => exact .cons ⟨c, hb, hc⟩ (ih hrest)

theorem Matched.trans {S : γ → δ → Prop} {l : List β} {m : List γ} {n : List δ}
    (h : Matched R l m) (h' : Matched S m n) : Matched (Relation.Comp R S) l n := by
  obtain ⟨m', hperm, hrel'⟩ := h'
  obtain ⟨k, hk, hrel⟩ := h.perm_right hperm.symm
  exact ⟨k, hk, forall₂_trans hrel hrel'⟩

theorem Matched.filterMap {β' γ' : Type} {S : β' → γ' → Prop} {f : β → Option β'}
    {g : γ → Option γ'} {l : List β} {l' : List γ} (h : Matched R l l')
    (hRS : ∀ b c, R b c → Option.Rel S (f b) (g c)) :
    Matched S (l.filterMap f) (l'.filterMap g) := by
  obtain ⟨m, hm, hrel⟩ := h
  exact ⟨m.filterMap f, hm.filterMap f, List.rel_filterMap (fun {b c} h => hRS b c h) hrel⟩

/-- Lists with the same keys can be matched by them. -/
theorem matched_of_map {f : β → δ} {g : γ → δ} {l : List β} {l' : List γ}
    (h : (l.map f).Perm (l'.map g)) : Matched (fun b c => f b = g c) l l' := by
  have hkeys : List.Forall₂ (fun b key => f b = key) l (l.map f) := by
    rw [List.forall₂_map_right_iff]
    exact List.forall₂_same.mpr fun _ _ => rfl
  obtain ⟨m, hm, hrel⟩ := (matched_of_forall₂ hkeys).perm_right h
  rw [List.forall₂_map_right_iff] at hrel
  exact ⟨m, hm, hrel⟩

end Matched

/-! ### Headers -/

/-- The name that a line begins with. -/
def leadingName? (text : String) : Option String := (ident? (Token.tokenize text)).map (·.1)

/-- The definition on a numbered line, if no name is taken but those of the functions. -/
def definition? (functions : Registry) (entry : String × Nat) : Option Definition :=
  if Text.isAllBlank entry.1 then none
  else (header functions.contains entry.2 (Token.tokenize entry.1)).toOption

/-- The error in the header of a numbered line, if no name is taken but those of the functions. -/
def refusal? (functions : Registry) (entry : String × Nat) : Option ParseError :=
  if Text.isAllBlank entry.1 then none
  else match header functions.contains entry.2 (Token.tokenize entry.1) with
    | .ok _ => none
    | .error e => some e

/-- The name that a line defines. -/
def declaredName? (text : String) : Option String :=
  (definition? .empty (text, 0)).map Definition.name

variable {taken taken' : String → Bool} {line line' : Nat} {ts : List Token}

/-- A header begins with the name of the function, or there is no function to speak of. -/
theorem header_cases (ts : List Token) :
    (∃ name column us, ident? ts = some (name, us) ∧ ∀ taken line, header taken line ts =
      match (signature taken name column us).against .empty with
      | .ok (params, body) => .ok ⟨name, params, body, line⟩
      | .error fault => .error (.ofFault name line fault)) ∨
    ident? ts = none ∧ ∃ fault : Fault, fault.cause.blamed? = none ∧
      ∀ taken line, header taken line ts = .error (.ofFault "" line fault) := by
  cases ts with
  | nil => exact .inr ⟨rfl, ⟨.functionNameExpected, 1⟩, rfl, fun _ _ => rfl⟩
  | cons t us =>
      obtain ⟨kind, lexeme, start, column⟩ := t
      cases kind with
      | ident name => exact .inl ⟨name, column, us, rfl, fun _ _ => rfl⟩
      | invalid e => exact .inr ⟨rfl, ⟨.lexical e, column⟩, rfl, fun _ _ => rfl⟩
      | _ => exact .inr ⟨rfl, ⟨.functionNameExpected, column⟩, rfl, fun _ _ => rfl⟩

/-- Of the names that are taken, only the one that the line begins with matters. -/
theorem header_congr (h : ∀ name, (ident? ts).map (·.1) = some name → taken name = taken' name)
    (line : Nat) : header taken line ts = header taken' line ts := by
  rcases header_cases ts with ⟨name, column, us, hident, hheader⟩ | ⟨-, fault, -, hheader⟩
  · have hname : checkName taken name column = checkName taken' name column := by
      rw [checkName, checkName, h name (by rw [hident]; rfl)]
    have hsignature : signature taken name column us = signature taken' name column us := by
      unfold signature
      rw [hname]
    rw [hheader, hheader, hsignature]
  · rw [hheader, hheader]

/-- The number of a line is only noted. -/
theorem header_line (taken : String → Bool) (line line' : Nat) (ts : List Token) :
    header taken line' ts = match header taken line ts with
      | .ok d => .ok { d with line := line' }
      | .error e => .error { e with line := line' } := by
  rcases header_cases ts with ⟨name, column, us, -, hheader⟩ | ⟨-, fault, -, hheader⟩
  · rw [hheader, hheader]
    cases (signature taken name column us).against .empty with
    | ok read => rfl
    | error fault => rfl
  · rw [hheader, hheader]
    rfl

theorem ident?_of_header {d : Definition} (h : header taken line ts = .ok d) :
    (ident? ts).map (·.1) = some d.name := by
  rcases header_cases ts with ⟨name, column, us, hident, hheader⟩ | ⟨-, fault, -, hheader⟩
  · rw [hheader] at h
    cases hread : (signature taken name column us).against .empty with
    | ok read =>
        rw [hread] at h
        cases h
        rw [hident]
        rfl
    | error fault =>
        rw [hread] at h
        cases h
  · rw [hheader] at h
    cases h

/-- An error in a header belongs to the function that the line begins with, and puts no blame
on another. -/
theorem header_eq_error {e : ParseError} (h : header taken line ts = .error e) :
    e.line = line ∧ e.function = ((ident? ts).map (·.1)).getD "" ∧ e.cause.blamed? = none := by
  rcases header_cases ts with ⟨name, column, us, hident, hheader⟩ | ⟨hident, fault, hcause, hheader⟩
  · rw [hheader] at h
    cases hread : (signature taken name column us).against .empty with
    | ok read =>
        rw [hread] at h
        cases h
    | error fault =>
        rw [hread] at h
        cases h
        rw [hident]
        exact ⟨rfl, rfl, (honest_signature taken name column us).against hread⟩
  · rw [hheader] at h
    cases h
    rw [hident]
    exact ⟨rfl, rfl, hcause⟩

variable {functions : Registry} {text : String}

theorem definition?_line (functions : Registry) (text : String) (line line' : Nat) :
    definition? functions (text, line') =
      (definition? functions (text, line)).map fun d => { d with line := line' } := by
  unfold definition?
  dsimp only
  by_cases hblank : Text.isAllBlank text = true
  · rw [if_pos hblank, if_pos hblank]
    rfl
  · rw [if_neg hblank, if_neg hblank, header_line _ line line']
    cases header functions.contains line (Token.tokenize text) <;> rfl

theorem refusal?_line (functions : Registry) (text : String) (line line' : Nat) :
    refusal? functions (text, line') =
      (refusal? functions (text, line)).map fun e => { e with line := line' } := by
  unfold refusal?
  dsimp only
  by_cases hblank : Text.isAllBlank text = true
  · rw [if_pos hblank, if_pos hblank]
    rfl
  · rw [if_neg hblank, if_neg hblank, header_line _ line line']
    cases header functions.contains line (Token.tokenize text) <;> rfl

theorem line_of_definition? {d : Definition} (h : definition? functions (text, line) = some d) :
    d.line = line := by
  rw [definition?_line functions text line line] at h
  obtain ⟨_, -, rfl⟩ := Option.map_eq_some_iff.mp h
  rfl

theorem line_of_refusal? {e : ParseError} (h : refusal? functions (text, line) = some e) :
    e.line = line := by
  rw [refusal?_line functions text line line] at h
  obtain ⟨_, -, rfl⟩ := Option.map_eq_some_iff.mp h
  rfl

/-- A header that is accepted is also accepted where other names are taken. -/
theorem header_of_ok {d : Definition} (h : header taken line ts = .ok d)
    (htaken : taken' d.name = false) : header taken' line ts = .ok d := by
  rw [← h]
  refine header_congr (fun name hname => ?_) line
  obtain rfl : d.name = name := Option.some.inj ((ident?_of_header h).symm.trans hname)
  rw [htaken, (header_eq_ok h).2.1]

theorem declaredName?_of_header {d : Definition} (hblank : Text.isAllBlank text = false)
    (h : header taken line (Token.tokenize text) = .ok d) : declaredName? text = some d.name := by
  have hheader : header Registry.empty.contains line (Token.tokenize text) = .ok d :=
    header_of_ok h rfl
  rw [declaredName?, definition?_line .empty text line 0, definition?, hblank, hheader]
  rfl

/-- The error in a header, with other names taken, is on the same line and belongs to the same
function.  It is the same error if no other line begins with the name. -/
structure SameRefusal (distinct : Prop) (e e' : ParseError) : Prop where
  line : e.line = e'.line
  function : e.function = e'.function
  plain : e.cause.blamed? = none
  same : distinct → e = e'

theorem SameRefusal.mono {P Q : Prop} {e e' : ParseError} (h : SameRefusal Q e e')
    (hPQ : P → Q) : SameRefusal P e e' :=
  ⟨h.line, h.function, h.plain, fun hP => h.same (hPQ hP)⟩

variable {before : List Definition}

/-- No name is lost by leaving out a line. -/
theorem nodup_skip {names : List String} {name? : String × Nat → Option String}
    (entry : String × Nat) {lines : List (String × Nat)}
    (h : (names ++ (entry :: lines).filterMap name?).Nodup) :
    (names ++ lines.filterMap name?).Nodup :=
  h.sublist (((List.sublist_cons_self entry lines).filterMap name?).append_left names)

/-- A name that a line has is not one of those before. -/
theorem any_eq_false_of_nodup {name? : String × Nat → Option String} {entry : String × Nat}
    {lines : List (String × Nat)} {name : String}
    (h : (before.map Definition.name ++ (entry :: lines).filterMap name?).Nodup)
    (hname : name? entry = some name) : before.any (·.name == name) = false := by
  rw [List.filterMap_cons_some hname] at h
  rw [List.any_eq_false]
  intro d hd heq
  refine (List.nodup_append.mp h).2.2 d.name (List.mem_map_of_mem hd) name List.mem_cons_self ?_
  simpa using heq

/-- Where the header of a line is refused, it is also refused if only the names of functions
are taken. -/
theorem sameRefusal_of_error {lines : List (String × Nat)} {e : ParseError}
    (hblank : Text.isAllBlank text = false)
    (hnames : (before.map Definition.name ++
      ((text, line) :: lines).filterMap (declaredName? ·.1)).Nodup)
    (h : header (fun name => functions.contains name || before.any (·.name == name)) line
      (Token.tokenize text) = .error e) :
    ∃ e', header functions.contains line (Token.tokenize text) = .error e' ∧
      SameRefusal (before.map Definition.name ++
        ((text, line) :: lines).filterMap (leadingName? ·.1)).Nodup e e' := by
  cases h' : header functions.contains line (Token.tokenize text) with
  | ok d =>
      -- The name would have to be taken by a definition before, but it is declared here.
      have hname : declaredName? text = some d.name := declaredName?_of_header hblank h'
      have htaken : (functions.contains d.name || before.any (·.name == d.name)) = false := by
        rw [(header_eq_ok h').2.1, any_eq_false_of_nodup hnames hname]
        rfl
      have hok : header (fun name => functions.contains name || before.any (·.name == name)) line
          (Token.tokenize text) = .ok d := header_of_ok h' htaken
      cases hok.symm.trans h
  | error e' =>
      obtain ⟨hline, hfunction, hplain⟩ := header_eq_error h
      obtain ⟨hline', hfunction', -⟩ := header_eq_error h'
      refine ⟨e', rfl, hline.trans hline'.symm, hfunction.trans hfunction'.symm, hplain, ?_⟩
      intro hdistinct
      have hcongr : header (fun name => functions.contains name || before.any (·.name == name))
          line (Token.tokenize text) = header functions.contains line (Token.tokenize text) := by
        refine header_congr (fun name hname => ?_) line
        rw [any_eq_false_of_nodup hdistinct hname, Bool.or_false]
      exact Except.error.inj (h.symm.trans (hcongr.trans h'))

/-- If no name is defined twice, then a name is only taken if a function has it, whatever
lines come before. -/
theorem headers_of_distinct (functions : Registry) (lines : List (String × Nat))
    (before : List Definition)
    (hnames : (before.map Definition.name ++ lines.filterMap (declaredName? ·.1)).Nodup) :
    (headers functions before lines).1 = before ++ lines.filterMap (definition? functions) ∧
      List.Forall₂
        (SameRefusal (before.map Definition.name ++ lines.filterMap (leadingName? ·.1)).Nodup)
        (headers functions before lines).2 (lines.filterMap (refusal? functions)) := by
  induction lines generalizing before with
  | nil => exact ⟨(List.append_nil _).symm, .nil⟩
  | cons entry lines ih =>
      obtain ⟨text, line⟩ := entry
      obtain ⟨hdefinitions, herrors⟩ := ih before (nodup_skip _ hnames)
      have hskipped := herrors.imp fun _ _ h => h.mono (nodup_skip (text, line))
      rw [headers]
      by_cases hblank : Text.isAllBlank text = true
      · have hdefinition : definition? functions (text, line) = none := if_pos hblank
        have hrefusal : refusal? functions (text, line) = none := if_pos hblank
        rw [if_pos hblank, List.filterMap_cons_none hdefinition, List.filterMap_cons_none hrefusal]
        exact ⟨hdefinitions, hskipped⟩
      · have hshown : Text.isAllBlank text = false := by simpa using hblank
        rw [if_neg hblank]
        dsimp only
        cases hheader : header (fun name => functions.contains name ||
            before.any (·.name == name)) line (Token.tokenize text) with
        | error e =>
            obtain ⟨e', hheader', hsame⟩ := sameRefusal_of_error hshown hnames hheader
            have hdefinition : definition? functions (text, line) = none := by
              rw [definition?, if_neg hblank, hheader']
              rfl
            have hrefusal : refusal? functions (text, line) = some e' := by
              rw [refusal?, if_neg hblank, hheader']
            rw [List.filterMap_cons_none hdefinition, List.filterMap_cons_some hrefusal]
            exact ⟨hdefinitions, .cons hsame hskipped⟩
        | ok d =>
            have hfree := (Bool.or_eq_false_iff.mp (header_eq_ok hheader).2.1).1
            have hheader' := header_of_ok hheader hfree
            have hdefinition : definition? functions (text, line) = some d := by
              rw [definition?, if_neg hblank, hheader']
              rfl
            have hrefusal : refusal? functions (text, line) = none := by
              rw [refusal?, if_neg hblank, hheader']
            have happend : ∀ name? : String × Nat → Option String,
                name? (text, line) = some d.name →
                before.map Definition.name ++ ((text, line) :: lines).filterMap name? =
                  (before ++ [d]).map Definition.name ++ lines.filterMap name? := by
              intro name? hname
              rw [List.filterMap_cons_some hname, List.map_append, List.append_assoc]
              rfl
            rw [happend _ (declaredName?_of_header hshown hheader)] at hnames
            obtain ⟨hdefinitions', herrors'⟩ := ih (before ++ [d]) hnames
            rw [List.filterMap_cons_some hdefinition, List.filterMap_cons_none hrefusal,
              happend (leadingName? ·.1) (ident?_of_header hheader)]
            refine ⟨?_, herrors'⟩
            rw [hdefinitions', List.append_assoc]
            rfl

/-! ### The same functions -/

/-- The numbers are those of a line in one numbering and in another. -/
def SameLine (lines lines' : List (String × Nat)) (line line' : Nat) : Prop :=
  ∃ text, (text, line) ∈ lines ∧ (text, line') ∈ lines'

/-- The definitions are the same but for the numbers of their lines. -/
structure Counterpart (lines lines' : List (String × Nat)) (d d' : Definition) : Prop where
  name : d.name = d'.name
  params : d.params = d'.params
  body : d.body = d'.body
  line : SameLine lines lines' d.line d'.line

/-- Every definition of one block is also one of the other. -/
def Covers (lines lines' : List (String × Nat)) (definitions definitions' : List Definition) :
    Prop :=
  ∀ d ∈ definitions, ∃ d' ∈ definitions', Counterpart lines lines' d d'

theorem covers_of_perm (functions : Registry) {lines lines' : List (String × Nat)}
    (h : (lines.map Prod.fst).Perm (lines'.map Prod.fst)) :
    Covers lines lines' (lines.filterMap (definition? functions))
      (lines'.filterMap (definition? functions)) := by
  intro d hd
  obtain ⟨⟨text, line⟩, hentry, hdefinition⟩ := List.mem_filterMap.mp hd
  obtain ⟨⟨text', line'⟩, hentry', htext⟩ :=
    List.mem_map.mp (h.mem_iff.mp (List.mem_map_of_mem hentry))
  obtain rfl : text' = text := htext
  obtain rfl : d.line = line := line_of_definition? hdefinition
  refine ⟨{ d with line := line' }, List.mem_filterMap.mpr ⟨_, hentry', ?_⟩, rfl, rfl, rfl,
    text', hentry, hentry'⟩
  rw [definition?_line functions text' d.line line', hdefinition]
  rfl

variable {finish : Expr → Expr} {lines lines' : List (String × Nat)}
  {definitions definitions' : List Definition} {errors errors' told told' : List ParseError}
  {p p' : Progress}

theorem Covers.names (h : Covers lines lines' definitions definitions') {name : String}
    (hname : name ∈ definitions.map Definition.name) :
    name ∈ definitions'.map Definition.name := by
  obtain ⟨d, hd, rfl⟩ := List.mem_map.mp hname
  obtain ⟨d', hd', hsame⟩ := h d hd
  rw [hsame.name]
  exact List.mem_map_of_mem hd'

/-- What was defined in one order is defined in the other. -/
theorem Ended.le (h : Ended definitions finish functions errors told p)
    (h' : Ended definitions' finish functions errors' told' p')
    (hcovers : Covers lines lines' definitions definitions') :
    ∀ name f, p.registry.get? name = some f → p'.registry.get? name = some f := by
  have hgrown := h.recorded.grown
  generalize p.registry = r at hgrown
  induction hgrown with
  | start => exact h'.keeps
  | @define r d body _ hd hread ih =>
      intro name f hf
      rw [Registry.get?_insert] at hf
      by_cases hname : d.name = name
      · rw [if_pos hname] at hf
        cases hf
        have hread' : (topLevel d.params d.body).against p'.registry = .ok body :=
          (related_of_honest (honest_topLevel d.params d.body)).against_mono moved_refl ih hread
        obtain ⟨d', hd', hsame⟩ := hcovers d hd
        rw [hsame.params, hsame.body] at hread'
        rw [← hname, hsame.name, hsame.params]
        exact h'.defined d' hd' body hread'
      · rw [if_neg hname] at hf
        exact ih name f hf

/-- In both orders there are the same functions. -/
theorem Ended.get?_eq (h : Ended definitions finish functions errors told p)
    (h' : Ended definitions' finish functions errors' told' p')
    (hcovers : Covers lines lines' definitions definitions')
    (hcovers' : Covers lines' lines definitions' definitions) (name : String) :
    p.registry.get? name = p'.registry.get? name :=
  Option.ext fun f => ⟨h.le h' hcovers name f, h'.le h hcovers' name f⟩

/-! ### The same errors -/

/-- The causes are the same, or both put the blame on the same function. -/
def SameReason (cause cause' : Cause) : Prop :=
  cause = cause' ∨ ∃ name, cause.blamed? = some name ∧ cause'.blamed? = some name

theorem Stated.same {own cause cause' : Cause}
    (hnames : ∀ name, name ∈ definitions.map Definition.name ↔
      name ∈ definitions'.map Definition.name)
    (h : Stated definitions own cause) (h' : Stated definitions' own cause') :
    SameReason cause cause' := by
  cases h with
  | own hown =>
      cases h' with
      | own => exact .inl rfl
      | missing | invalid | recursive => cases hown
  | missing hname =>
      cases h' with
      | own hown => cases hown
      | missing => exact .inl rfl
      | invalid hname' | recursive hname' => exact absurd ((hnames _).mpr hname') hname
  | @invalid name hname | @recursive name hname =>
      cases h' with
      | own hown => cases hown
      | missing hname' => exact absurd ((hnames _).mp hname) hname'
      | invalid | recursive => exact .inr ⟨name, rfl, rfl⟩

/-- The errors are about the same line and the same function.  They say the same about it,
except that one may say that a function has errors and the other that the call of it goes
round in a circle.  Of headers this holds if the line is the only one to begin with its name. -/
structure SameError (lines lines' : List (String × Nat)) (distinct : Prop) (e e' : ParseError) :
    Prop where
  line : SameLine lines lines' e.line e'.line
  function : e.function = e'.function
  message : distinct → e.column = e'.column ∧ SameReason e.cause e'.cause

theorem Ended.failed_subset (h : Ended definitions finish functions errors told p)
    (h' : Ended definitions' finish functions errors' told' p')
    (hcovers : Covers lines lines' definitions definitions')
    (hget : ∀ name, p.registry.get? name = p'.registry.get? name) {name : String}
    (hname : name ∈ p.failed) : name ∈ p'.failed := by
  obtain ⟨e, he, rfl⟩ := List.mem_map.mp (h.recorded.failed ▸ hname)
  obtain ⟨d, hd, hfunction, -⟩ := h.recorded.explained e he
  obtain ⟨d', hd', hsame⟩ := hcovers d hd
  rw [hfunction] at hname ⊢
  rw [hsame.name]
  refine (h'.failed d' hd').mpr ?_
  rw [← hsame.name, ← hget]
  exact (h.failed d hd).mp hname

/-- The same bodies are refused, for the same reasons. -/
theorem Ended.matched (h : Ended definitions finish functions errors told p)
    (h' : Ended definitions' finish functions errors' told' p')
    (hnames' : (definitions'.map Definition.name).Nodup)
    (hcovers : Covers lines lines' definitions definitions')
    (hcovers' : Covers lines' lines definitions' definitions) (distinct : Prop) :
    Matched (SameError lines lines' distinct) told told' := by
  have hget := h.get?_eq h' hcovers hcovers'
  have hperm : p.failed.Perm p'.failed :=
    (List.perm_ext_iff_of_nodup h.recorded.distinct h'.recorded.distinct).mpr fun name =>
      ⟨h.failed_subset h' hcovers hget, h'.failed_subset h hcovers' fun name => (hget name).symm⟩
  rw [h.recorded.failed, h'.recorded.failed] at hperm
  refine (matched_of_map hperm).imp fun e he e' he' hfunction => ?_
  obtain ⟨d, hd, hname, hline, hexplained⟩ := h.recorded.explained e he
  obtain ⟨d', hd', hname', hline', hexplained'⟩ := h'.recorded.explained e' he'
  obtain ⟨d'', hd'', hsame⟩ := hcovers d hd
  obtain rfl : d'' = d' := by
    refine List.inj_on_of_nodup_map hnames' hd'' hd' ?_
    rw [← hsame.name, ← hname, ← hname', hfunction]
  obtain ⟨own, hown, hcolumn, hstated⟩ := hexplained _ h.allows
  obtain ⟨own', hown', hcolumn', hstated'⟩ := hexplained' _ h'.allows
  rw [hsame.params, hsame.body, Inquiry.against_congr hget] at hown
  obtain rfl : own = own' := Except.error.inj (hown.symm.trans hown')
  refine ⟨?_, hfunction, fun _ => ⟨hcolumn.symm.trans hcolumn', ?_⟩⟩
  · rw [hline, hline']
    exact hsame.line
  · exact hstated.same (fun name => ⟨hcovers.names, hcovers'.names⟩) hstated'

/-- The same headers are refused. -/
theorem matched_refusals {distinct : Prop}
    (h : (lines.map Prod.fst).Perm (lines'.map Prod.fst))
    (herrors : List.Forall₂ (SameRefusal distinct) errors
      (lines.filterMap (refusal? functions)))
    (herrors' : List.Forall₂ (SameRefusal distinct) errors'
      (lines'.filterMap (refusal? functions))) :
    Matched (SameError lines lines' distinct) errors errors' := by
  have hrefusals : Matched (fun e e' : ParseError => SameLine lines lines' e.line e'.line ∧
      e.function = e'.function ∧ e.column = e'.column ∧ e.cause = e'.cause)
      (lines.filterMap (refusal? functions)) (lines'.filterMap (refusal? functions)) := by
    refine ((matched_of_map h).imp fun x hx y hy hxy =>
      (⟨hx, hy, hxy⟩ : x ∈ lines ∧ y ∈ lines' ∧ x.1 = y.1)).filterMap ?_
    rintro ⟨text, line⟩ ⟨_, line'⟩ ⟨hmem, hmem', rfl⟩
    rw [refusal?_line functions text line line']
    cases hrefusal : refusal? functions (text, line) with
    | none => exact .none
    | some e =>
        obtain rfl : e.line = line := line_of_refusal? hrefusal
        exact .some ⟨⟨text, hmem, hmem'⟩, rfl, rfl, rfl⟩
  have hback := (matched_of_forall₂ herrors).trans
    (hrefusals.trans (matched_of_forall₂ herrors'.flip))
  refine hback.imp fun e _ e' _ hcomp => ?_
  obtain ⟨x, hx, y, ⟨hline, hfunction, hcolumn, hcause⟩, hy⟩ := hcomp
  refine ⟨?_, ?_, fun hdistinct => ?_⟩
  · rw [hx.line, hy.line]
    exact hline
  · rw [hx.function, hy.function, hfunction]
  · rw [hx.same hdistinct, hy.same hdistinct]
    exact ⟨hcolumn, .inl hcause⟩

/-! ### Blocks -/

/-- The lines of a block with their numbers. -/
def numbered (block : String) : List (String × Nat) := (Text.lines block).zipIdx 1

theorem numbered_map_fst (block : String) : (numbered block).map Prod.fst = Text.lines block :=
  List.zipIdx_map_fst ..

theorem filterMap_numbered {β : Type} (name? : String → Option β) (block : String) :
    (numbered block).filterMap (name? ·.1) = (Text.lines block).filterMap name? := by
  rw [← numbered_map_fst block, List.filterMap_map]
  rfl

/-- There is one line of each number. -/
theorem numbered_unique {block text text' : String} {line : Nat}
    (h : (text, line) ∈ numbered block) (h' : (text', line) ∈ numbered block) : text = text' := by
  rw [numbered, List.mk_mem_zipIdx_iff_le_and_getElem?_sub] at h h'
  exact Option.some.inj (h.2.symm.trans h'.2)

/-- What is known of a block that has been read, if no name is defined twice in it. -/
structure BlockRead (block : String) (functions : Registry) (before told : List ParseError)
    (p : Progress) : Prop where
  names : NewNames functions ((numbered block).filterMap (definition? functions))
  ended : Ended ((numbered block).filterMap (definition? functions)) Expr.simplify functions
    before told p
  refusals : List.Forall₂ (SameRefusal ((Text.lines block).filterMap leadingName?).Nodup) before
    ((numbered block).filterMap (refusal? functions))
  registry : (parseBlock block functions).1 = p.registry
  errors : (parseBlock block functions).2.Perm (told ++ before)

theorem parseBlock_read {block : String} (functions : Registry)
    (hnames : ((Text.lines block).filterMap declaredName?).Nodup) :
    ∃ before told p, BlockRead block functions before told p := by
  have hdistinct : ∀ name? : String → Option String,
      ([].map Definition.name ++ (numbered block).filterMap (name? ·.1)) =
        (Text.lines block).filterMap name? := fun name? => filterMap_numbered name? block
  obtain ⟨hdefinitions, hrefusals⟩ := headers_of_distinct functions (numbered block) []
    (by rw [hdistinct]; exact hnames)
  obtain ⟨hnew, -⟩ := headers_spec functions (numbered block) [] ⟨List.nodup_nil, by simp⟩
  rw [hdistinct] at hrefusals
  rw [hdefinitions, List.nil_append] at hnew
  obtain ⟨told, hended⟩ := defineAll_ended Expr.simplify hnew
    (headers functions [] (numbered block)).2
  have hread : parseBlock block functions =
      let p := defineAll Expr.simplify (headers functions [] (numbered block)).1
        ⟨functions, [], [], (headers functions [] (numbered block)).2⟩
      (p.registry, p.errors.mergeSort fun a b => a.line ≤ b.line) := rfl
  rw [hdefinitions, List.nil_append] at hread
  refine ⟨_, told, _, hnew, hended, hrefusals, congrArg Prod.fst hread, ?_⟩
  rw [hread, ← hended.recorded.errors]
  exact List.mergeSort_perm _ _

variable {block block' : String} {before before' : List ParseError}

theorem exists_of_forall₂ {β γ : Type} {R : β → γ → Prop} {l : List β} {l' : List γ}
    (h : List.Forall₂ R l l') {c : γ} (hc : c ∈ l') : ∃ b ∈ l, R b c := by
  induction h with
  | nil => cases hc
  | cons hR _ ih =>
      rcases List.mem_cons.mp hc with rfl | hc
      · exact ⟨_, List.mem_cons_self, hR⟩
      · obtain ⟨b, hb, hR⟩ := ih hc
        exact ⟨b, List.mem_cons_of_mem _ hb, hR⟩

/-- Whether a line is refused depends on what it says and on the functions that there are in
the end, but not on where it stands. -/
theorem BlockRead.refused_iff (h : BlockRead block functions before told p) {text : String}
    {line : Nat} (hline : (text, line) ∈ numbered block) :
    (∃ e ∈ (parseBlock block functions).2, e.line = line) ↔
      (∃ e, refusal? functions (text, 0) = some e) ∨
        ∃ d, definition? functions (text, 0) = some d ∧
          (parseBlock block functions).1.get? d.name = none := by
  rw [h.registry]
  constructor
  · rintro ⟨e, he, rfl⟩
    rcases List.mem_append.mp (h.errors.mem_iff.mp he) with he | he
    · obtain ⟨d, hd, hname, hnumber, -⟩ := h.ended.recorded.explained e he
      obtain ⟨⟨text', number⟩, hentry, hdefinition⟩ := List.mem_filterMap.mp hd
      obtain rfl : d.line = number := line_of_definition? hdefinition
      rw [← hnumber] at hentry hdefinition
      obtain rfl := numbered_unique hline hentry
      refine .inr ⟨{ d with line := 0 }, ?_, ?_⟩
      · rw [definition?_line functions text e.line 0, hdefinition]
        rfl
      · refine (h.ended.failed d hd).mp ?_
        rw [h.ended.recorded.failed, ← hname]
        exact List.mem_map_of_mem he
    · obtain ⟨e', he', hsame⟩ := exists_of_forall₂ h.refusals.flip he
      obtain ⟨⟨text', number⟩, hentry, hrefusal⟩ := List.mem_filterMap.mp he'
      obtain rfl : e'.line = number := line_of_refusal? hrefusal
      rw [← hsame.line] at hentry hrefusal
      obtain rfl := numbered_unique hline hentry
      refine .inl ⟨{ e' with line := 0 }, ?_⟩
      rw [refusal?_line functions text e.line 0, hrefusal]
      rfl
  · rintro (⟨e, hrefusal⟩ | ⟨d, hdefinition, hget⟩)
    · have hhere : refusal? functions (text, line) = some { e with line := line } := by
        rw [refusal?_line functions text 0 line, hrefusal]
        rfl
      obtain ⟨e', he', hsame⟩ := exists_of_forall₂ h.refusals
        (List.mem_filterMap.mpr ⟨_, hline, hhere⟩)
      exact ⟨e', h.errors.mem_iff.mpr (List.mem_append_right _ he'), hsame.line⟩
    · have hhere : definition? functions (text, line) = some { d with line := line } := by
        rw [definition?_line functions text 0 line, hdefinition]
        rfl
      have hd := List.mem_filterMap.mpr ⟨_, hline, hhere⟩
      have hfail := (h.ended.failed _ hd).mpr hget
      rw [h.ended.recorded.failed] at hfail
      obtain ⟨e, he, hfunction⟩ := List.mem_map.mp hfail
      obtain ⟨d', hd', hname, hnumber, -⟩ := h.ended.recorded.explained e he
      obtain rfl := List.inj_on_of_nodup_map h.names.distinct hd hd' (hfunction.symm.trans hname)
      exact ⟨e, h.errors.mem_iff.mpr (List.mem_append_left _ he), hnumber⟩

theorem BlockRead.circularOnce (h : BlockRead block functions before told p) :
    CircularOnce (parseBlock block functions).2 := by
  have hplain : ∀ e ∈ before, e.cause.blamed? = none := by
    intro e he
    obtain ⟨_, -, hsame⟩ := exists_of_forall₂ h.refusals.flip he
    exact hsame.plain
  have hdistinct : (told.map (·.function)).Nodup :=
    h.ended.recorded.failed ▸ h.ended.recorded.distinct
  exact Parser.circularOnce h.errors hplain hdistinct h.ended.recorded.grounded h.ended.closed

/-- The lines of a block may stand in any order if no two of them define the same function.
The same functions come out, with the same parameters and the same bodies.  The same lines are
refused.  And the errors are the same one by one, except that where calls go round in a circle
another definition of the circle may be the one that is told so; it is one of them each time. -/
theorem parseBlock_perm (block block' : String) (functions : Registry)
    (hperm : (Text.lines block).Perm (Text.lines block'))
    (hnames : ((Text.lines block).filterMap declaredName?).Nodup) :
    (∀ name, (parseBlock block functions).1.get? name =
        (parseBlock block' functions).1.get? name) ∧
      (∀ text line line', (text, line) ∈ numbered block → (text, line') ∈ numbered block' →
        ((∃ e ∈ (parseBlock block functions).2, e.line = line) ↔
          ∃ e ∈ (parseBlock block' functions).2, e.line = line')) ∧
      Matched (SameError (numbered block) (numbered block')
          ((Text.lines block).filterMap leadingName?).Nodup)
        (parseBlock block functions).2 (parseBlock block' functions).2 ∧
      CircularOnce (parseBlock block functions).2 ∧
      CircularOnce (parseBlock block' functions).2 := by
  have hnames' : ((Text.lines block').filterMap declaredName?).Nodup :=
    (hperm.filterMap declaredName?).nodup_iff.mp hnames
  obtain ⟨before, told, p, h⟩ := parseBlock_read functions hnames
  obtain ⟨before', told', p', h'⟩ := parseBlock_read functions hnames'
  have hlines : ((numbered block).map Prod.fst).Perm ((numbered block').map Prod.fst) := by
    rw [numbered_map_fst, numbered_map_fst]
    exact hperm
  have hcovers := covers_of_perm functions hlines
  have hcovers' := covers_of_perm functions hlines.symm
  have hget : ∀ name, (parseBlock block functions).1.get? name =
      (parseBlock block' functions).1.get? name := by
    rw [h.registry, h'.registry]
    exact h.ended.get?_eq h'.ended hcovers hcovers'
  refine ⟨hget, fun text line line' hline hline' => ?_, ?_, h.circularOnce, h'.circularOnce⟩
  · rw [h.refused_iff hline, h'.refused_iff hline']
    simp only [hget]
  · have hleading : ((Text.lines block').filterMap leadingName?).Nodup ↔
        ((Text.lines block).filterMap leadingName?).Nodup :=
      (hperm.symm.filterMap leadingName?).nodup_iff
    have hrefusals' := h'.refusals.imp fun _ _ h => h.mono hleading.mpr
    have hbodies := h.ended.matched h'.ended h'.names.distinct hcovers hcovers'
      ((Text.lines block).filterMap leadingName?).Nodup
    have hheaders := matched_refusals hlines h.refusals hrefusals'
    exact ((hbodies.append hheaders).perm_left h.errors.symm).perm_right h'.errors.symm

/-- Of a circle, the definition that is read last is told so. -/
theorem parseBlock_perm_circle :
    let block := "f(x) = g(x)\ng(x) = f(x)\nh(x) = x"
    let block' := "g(x) = f(x)\nh(x) = x\nf(x) = g(x)"
    (parseBlock block .empty).2 =
        [⟨.calleeHasErrors "g", "f", 1, 8⟩, ⟨.recursive "f", "g", 2, 8⟩] ∧
      (parseBlock block' .empty).2 =
        [⟨.calleeHasErrors "f", "g", 1, 8⟩, ⟨.recursive "g", "f", 3, 8⟩] ∧
      (parseBlock block .empty).1.get? "h" = (parseBlock block' .empty).1.get? "h" ∧
      Matched (SameError (numbered block) (numbered block')
          ((Text.lines block).filterMap leadingName?).Nodup)
        (parseBlock block .empty).2 (parseBlock block' .empty).2 := by
  intro block block'
  have hperm : (Text.lines block).Perm (Text.lines block') := by decide +kernel
  have hnames : ((Text.lines block).filterMap declaredName?).Nodup := by decide +kernel
  obtain ⟨hget, -, herrors, -, -⟩ := parseBlock_perm block block' .empty hperm hnames
  -- The errors come in the order of their lines already.
  have hread : ∀ (text : String) (errors : List ParseError),
      (defineAll Expr.simplify (headers .empty [] (numbered text)).1
        ⟨.empty, [], [], (headers .empty [] (numbered text)).2⟩).errors = errors →
      errors.Pairwise (fun a b => decide (a.line ≤ b.line) = true) →
      (parseBlock text .empty).2 = errors := by
    rintro text errors rfl hsorted
    exact List.mergeSort_of_pairwise hsorted
  exact ⟨hread block _ (by decide +kernel) (by decide), hread block' _ (by decide +kernel)
    (by decide), hget "h", herrors⟩

end Parser

end FormulaPlot
