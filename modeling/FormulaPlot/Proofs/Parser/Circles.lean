/-
The blame that errors put on functions is deserved.

When an error says that a function has errors, that function has an error in the same list,
and it was found before.  So whoever follows such notes comes to earlier and earlier errors,
and at last to one that says something else.

When an error says that a call goes round, it does.  The notes on the way back from the
function that is named are of definitions that call one another in turn, and the last one is
where the error is.  All of them are refused, each for calling the next.
-/
import FormulaPlot.Proofs.Parser.Position

namespace FormulaPlot.Parser

open Relation (ReflTransGen)

/-! ### Calls in bodies -/

/-- The body of the definition has a call of the function. -/
def Definition.Calls (d : Definition) (name : String) : Prop :=
  ∃ used t rest, d.body = used ++ t :: rest ∧ Calling d.params name t rest

/-- The definition is one of these, and there is an error in it. -/
def Refused (definitions : List Definition) (errors : List ParseError) (d : Definition) : Prop :=
  d ∈ definitions ∧ ∃ e ∈ errors, e.function = d.name ∧ e.line = d.line

/-- Refused definitions that call one another in turn, from the one of this name to the one with
this error, which calls the first again. -/
structure Circle (definitions : List Definition) (errors : List ParseError) (name : String)
    (e : ParseError) (ds : List Definition) : Prop where
  first : ∃ d, ds.head? = some d ∧ d.name = name
  calls : ds.IsChain fun d d' => d.Calls d'.name
  last : ∃ d, ds.getLast? = some d ∧ d.name = e.function ∧ d.line = e.line ∧ d.Calls name
  refused : ∀ d ∈ ds, Refused definitions errors d

/-- The error says of the function of another one that it has errors. -/
def LeadsOn (errors : List ParseError) (e e' : ParseError) : Prop :=
  e ∈ errors ∧ e' ∈ errors ∧ e.message = "Function " ++ e'.function ++ "() has errors."

/-- What errors say about the functions of a block is true. -/
structure Truthful (definitions : List Definition) (errors : List ParseError) : Prop where
  /-- A function that is said to have errors has one, which is not the one that says so. -/
  invalid : ∀ e ∈ errors, ∀ name, e.message = "Function " ++ name ++ "() has errors." →
    ∃ e' ∈ errors, e' ≠ e ∧ e'.function = name
  /-- A call that is said to go round does so. -/
  recursive : ∀ e ∈ errors, ∀ name,
    e.message = "Recursive reference to function: " ++ name ++ "." →
    ∃ ds, Circle definitions errors name e ds
  /-- No one follows the blame for ever. -/
  finite : WellFounded fun e' e => LeadsOn errors e e'
  /-- At the end there is an error of another kind. -/
  ends : ∀ e ∈ errors, ∃ e' ∈ errors, ReflTransGen (LeadsOn errors) e e' ∧
    ∀ name, e'.message ≠ "Function " ++ name ++ "() has errors."

variable {block : String} {functions : Registry} {finish : Expr → Expr}
  {errors before told : List ParseError} {p : Progress} {e : ParseError} {name : String}

/-- Where a function is blamed, it is called. -/
theorem Points.calls {d : Definition} {fault : Fault} (h : Points d.params d.body fault)
    (hblamed : fault.cause.blamed? = some name) : d.Calls name := by
  obtain ⟨used, t, rest, hbody, -, hfits⟩ := h
  refine ⟨used, t, rest, hbody, ?_⟩
  revert hfits hblamed
  cases fault.cause with
  | calleeHasErrors n | recursive n =>
      rintro ⟨⟩ hfits
      exact hfits
  | _ => rintro ⟨⟩

/-! ### The way round -/

/-- The way back to an error is along definitions that call one another in turn. -/
theorem exists_chain
    (h : Ended (headers functions [] (numbered block)).1 finish functions before told p)
    (hblamed : e.cause.blamed? = some name) {a : ParseError} (ha : a ∈ told)
    (hpath : ReflTransGen (Accuses told) a e) :
    ∃ d ds, d.name = a.function ∧ (d :: ds).IsChain (fun d d' => d.Calls d'.name) ∧
      (∃ d', (d :: ds).getLast? = some d' ∧ d'.name = e.function ∧ d'.line = e.line ∧
        d'.Calls name) ∧
      ∀ d' ∈ d :: ds, Refused (headers functions [] (numbered block)).1 told d' := by
  induction hpath using ReflTransGen.head_induction_on with
  | refl =>
      obtain ⟨d, hd, hfunction, hline, hpoints⟩ := h.points ha
      refine ⟨d, [], hfunction.symm, .singleton d,
        ⟨d, rfl, hfunction.symm, hline.symm, hpoints.calls hblamed⟩, ?_⟩
      intro d' hd'
      obtain rfl := List.mem_singleton.mp hd'
      exact ⟨hd, e, ha, hfunction, hline⟩
  | @head a b haccuses _ ih =>
      obtain ⟨d, hd, hfunction, hline, hpoints⟩ := h.points ha
      obtain ⟨d', ds, hname, hchain, hlast, hrefused⟩ := ih haccuses.1
      have hcalls : d.Calls d'.name := by
        rw [hname]
        exact hpoints.calls (congrArg Cause.blamed? haccuses.2)
      refine ⟨d, d' :: ds, hfunction.symm, .cons_cons hcalls hchain, ?_, ?_⟩
      · rwa [List.getLast?_cons_cons]
      · exact List.forall_mem_cons.mpr ⟨⟨hd, a, ha, hfunction, hline⟩, hrefused⟩

/-- A call that is said to go round goes round. -/
theorem exists_circle
    (h : Ended (headers functions [] (numbered block)).1 finish functions before told p)
    (htold : ∀ e ∈ told, e ∈ errors) (he : e ∈ told) (hcause : e.cause = .recursive name) :
    ∃ ds, Circle (headers functions [] (numbered block)).1 errors name e ds := by
  obtain ⟨source, hsource, rfl, hpath⟩ := h.closed e he name hcause
  obtain ⟨d, ds, hname, hchain, hlast, hrefused⟩ :=
    exists_chain h (congrArg Cause.blamed? hcause) hsource hpath
  refine ⟨d :: ds, ⟨d, rfl, hname⟩, hchain, hlast, fun d' hd' => ?_⟩
  obtain ⟨hd, e', he', hfunction, hline⟩ := hrefused d' hd'
  exact ⟨hd, e', htold e' he', hfunction, hline⟩

/-! ### The whole block -/

/-- The errors in headers put no blame on anyone. -/
theorem blamed?_of_header (he : e ∈ (headers functions [] (numbered block)).2) :
    e.cause.blamed? = none := by
  obtain ⟨text, taken, -, hheader⟩ := headers_refused functions (numbered block) [] e he
  exact (header_eq_error hheader).2.2

theorem legible_of_block (he : e ∈ (parseBlock block functions).2) : e.cause.Legible := by
  obtain ⟨text, names, -, -, hpoints⟩ := parseBlock_points he
  exact hpoints.legible

section Errors

variable (hended : Ended (headers functions [] (numbered block)).1 Expr.simplify functions
    (headers functions [] (numbered block)).2 told p)
  (hperm : (parseBlock block functions).2.Perm
    (told ++ (headers functions [] (numbered block)).2))

include hperm

/-- Who blames another function was found while the definitions were read. -/
theorem mem_told_of_blamed (he : e ∈ (parseBlock block functions).2)
    (hblamed : e.cause.blamed? = some name) : e ∈ told :=
  mem_told hperm (fun _ he => blamed?_of_header he) he hblamed

theorem accuses_of_message (he : e ∈ (parseBlock block functions).2)
    (h : e.message = "Function " ++ name ++ "() has errors.") :
    e.cause = .calleeHasErrors name ∧ e ∈ told := by
  have hcause := Cause.eq_of_message_calleeHasErrors (legible_of_block he) h
  exact ⟨hcause, mem_told_of_blamed hperm he (congrArg Cause.blamed? hcause)⟩

include hended

theorem idxOf_lt_of_leadsOn {e' : ParseError} (h : LeadsOn (parseBlock block functions).2 e e') :
    told.idxOf e < told.idxOf e' := by
  obtain ⟨he, -, hmessage⟩ := h
  obtain ⟨hcause, hmem⟩ := accuses_of_message hperm he hmessage
  have hdistinct : (told.map (·.function)).Nodup :=
    hended.recorded.failed ▸ hended.recorded.distinct
  exact idxOf_lt_of_accuses hdistinct hended.recorded.grounded hmem hcause

/-- A function that is said to have errors has one. -/
theorem exists_leadsOn (he : e ∈ (parseBlock block functions).2)
    (h : e.message = "Function " ++ name ++ "() has errors.") :
    ∃ e', LeadsOn (parseBlock block functions).2 e e' ∧ e'.function = name := by
  obtain ⟨hcause, hmem⟩ := accuses_of_message hperm he h
  obtain ⟨e', he', rfl⟩ := List.mem_map.mp (hended.recorded.grounded.mem hmem hcause)
  exact ⟨e', ⟨he, hperm.mem_iff.mpr (List.mem_append_left _ he'), h⟩, rfl⟩

/-- Each step goes to an earlier error, which is further back in the list. -/
theorem wellFounded_leadsOn :
    WellFounded fun e' e => LeadsOn (parseBlock block functions).2 e e' := by
  refine Subrelation.wf ?_ (measure fun e => told.length - told.idxOf e).wf
  intro e' e hleads
  have hlt := idxOf_lt_of_leadsOn hended hperm hleads
  have hmem := (accuses_of_message hperm hleads.1 hleads.2.2).2
  have hbound : told.idxOf e < told.length := List.idxOf_lt_length_of_mem hmem
  show told.length - told.idxOf e' < told.length - told.idxOf e
  omega

/-- At the end there is an error that does not lead on. -/
theorem exists_end (he : e ∈ (parseBlock block functions).2) :
    ∃ e' ∈ (parseBlock block functions).2,
      ReflTransGen (LeadsOn (parseBlock block functions).2) e e' ∧
        ∀ name, e'.message ≠ "Function " ++ name ++ "() has errors." := by
  induction e using (wellFounded_leadsOn hended hperm).induction with
  | _ e ih =>
      by_cases hmore : ∃ name, e.message = "Function " ++ name ++ "() has errors."
      · obtain ⟨name, hmessage⟩ := hmore
        obtain ⟨next, hleads, -⟩ := exists_leadsOn hended hperm he hmessage
        obtain ⟨e', he', hpath, hother⟩ := ih next hleads hleads.2.1
        exact ⟨e', he', hpath.head hleads, hother⟩
      · exact ⟨e, he, .refl, fun name hmessage => hmore ⟨name, hmessage⟩⟩

end Errors

/-- **What the errors of a block say about its functions is true.**  A function with errors has
one, a call that goes round goes round among definitions that are all refused, and the blame
for errors leads to an error of another kind. -/
theorem parseBlock_truthful (block : String) (functions : Registry) :
    Truthful (headers functions [] (numbered block)).1 (parseBlock block functions).2 := by
  obtain ⟨told, p, hended, hperm⟩ := parseBlock_ended block functions
  refine ⟨fun e he name hmessage => ?invalid, fun e he name hmessage => ?recursive,
    wellFounded_leadsOn hended hperm, fun e he => exists_end hended hperm he⟩
  case invalid =>
    obtain ⟨e', hleads, hfunction⟩ := exists_leadsOn hended hperm he hmessage
    refine ⟨e', hleads.2.1, ?_, hfunction⟩
    rintro rfl
    exact absurd (idxOf_lt_of_leadsOn hended hperm hleads) (Nat.lt_irrefl _)
  case recursive =>
    have htold : ∀ e ∈ told, e ∈ (parseBlock block functions).2 := fun e he =>
      hperm.mem_iff.mpr (List.mem_append_left _ he)
    have hcause := Cause.eq_of_message_recursive (legible_of_block he) hmessage
    have hmem := mem_told_of_blamed hperm he (congrArg Cause.blamed? hcause)
    exact exists_circle hended htold hmem hcause

end FormulaPlot.Parser
