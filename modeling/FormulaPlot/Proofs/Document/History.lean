/-
What a sequence of edits leads to.

A document remembers more than its texts.  Its formulas were read at different times,
some against functions that are long gone, and a tree that is replaced by an equivalent
one stays.  None of this can be seen.  After every sequence of edits the functions are
those of the present block and every formula is current, so the texts alone decide what
is shown.  And the texts are those that the edits were given, whatever was read from them.

`Consistent` is the invariant.  Each edit keeps it, and the induction over a history is
done once, in `consistent_after`.  The flags that edits return compare the trees before
and after, so with the invariant they tell exactly whether a curve has to be drawn again.
-/
import Mathlib
import FormulaPlot.Document.Basic
import FormulaPlot.Proofs.Document.Formula

namespace FormulaPlot

open Formula (SameTree)

/-- Something the user does to a document. -/
inductive Edit where
  | setFunctionsText (text : String)
  | addFormula (text : String)
  | setFormula (index : Nat) (text : String)
  | removeFormula (index : Nat)

namespace Document

/-- The document after an edit. -/
def edit (d : Document) : Edit → Document
  | .setFunctionsText text => (d.setFunctionsText text).1
  | .addFormula text => d.addFormula text
  | .setFormula index text => (d.setFormula index text).1
  | .removeFormula index => (d.removeFormula index).1

/-- A new document after some edits. -/
def after (edits : List Edit) : Document := edits.foldl edit empty

variable {d d' : Document}

/-- Without a formula there is no text to replace. -/
theorem setFormula_none {index : Nat} (h : d.formulas[index]? = none) (text : String) :
    d.setFormula index text = (d, none) := by
  unfold Document.setFormula
  rw [h]

/-- What replacing the text of a formula comes to. -/
theorem setFormula_some {index : Nat} {f : Formula} (h : d.formulas[index]? = some f)
    (text : String) :
    d.setFormula index text =
      ({ d with formulas := d.formulas.set index (f.setText text d.functions).1 },
        some (f.setText text d.functions).2) := by
  unfold Document.setFormula
  rw [h]

/-! ### What is written -/

/-- What the user has written: the block of functions and the formulas in their order. -/
structure Written where
  functions : String
  formulas : List String

/-- What is written after an edit.  There is nothing to replace and nothing to take out where
there is no formula. -/
def Written.edit (w : Written) : Edit → Written
  | .setFunctionsText text => { w with functions := text }
  | .addFormula text => { w with formulas := w.formulas ++ [text] }
  | .setFormula index text => { w with formulas := w.formulas.set index text }
  | .removeFormula index => { w with formulas := w.formulas.eraseIdx index }

/-- The texts of the formulas. -/
def texts (d : Document) : List String := d.formulas.map (·.text)

/-- What is written in a document. -/
def written (d : Document) : Written := ⟨d.functionsText, d.texts⟩

theorem texts_setFunctionsText (d : Document) (text : String) :
    (d.setFunctionsText text).1.texts = d.texts := by
  unfold texts setFunctionsText
  simp only [List.map_map]
  rfl

theorem texts_addFormula (d : Document) (text : String) :
    (d.addFormula text).texts = d.texts ++ [text] := by
  unfold texts addFormula
  rw [List.map_append]
  rfl

theorem functionsText_setFormula (d : Document) (index : Nat) (text : String) :
    (d.setFormula index text).1.functionsText = d.functionsText := by
  unfold setFormula
  split <;> rfl

theorem texts_setFormula (d : Document) (index : Nat) (text : String) :
    (d.setFormula index text).1.texts = d.texts.set index text := by
  cases hget : d.formulas[index]? with
  | none =>
      have hlength : d.texts.length ≤ index := by
        rw [texts, List.length_map]
        exact List.getElem?_eq_none_iff.mp hget
      rw [setFormula_none hget, List.set_eq_of_length_le hlength]
  | some f => rw [setFormula_some hget, texts, List.map_set, Formula.text_setText, texts]

theorem texts_removeFormula (d : Document) (index : Nat) :
    (d.removeFormula index).1.texts = d.texts.eraseIdx index :=
  (List.eraseIdx_map _ _ _).symm

/-- An edit stores the text that it is given, in its place. -/
theorem written_edit (d : Document) (e : Edit) : (d.edit e).written = d.written.edit e := by
  cases e with
  | setFunctionsText text => exact congrArg (Written.mk text) (d.texts_setFunctionsText text)
  | addFormula text => exact congrArg (Written.mk d.functionsText) (d.texts_addFormula text)
  | setFormula index text =>
      exact congrArg₂ Written.mk (d.functionsText_setFormula index text)
        (d.texts_setFormula index text)
  | removeFormula index =>
      exact congrArg (Written.mk d.functionsText) (d.texts_removeFormula index)

/-- What is written after some edits is what they were given. -/
theorem written_after (edits : List Edit) :
    (after edits).written = edits.foldl Written.edit ⟨"", []⟩ := by
  unfold after
  suffices h : ∀ d, (edits.foldl edit d).written = edits.foldl Written.edit d.written from h empty
  induction edits with
  | nil => exact fun d => rfl
  | cons e edits ih =>
      intro d
      rw [List.foldl_cons, List.foldl_cons, ih, written_edit]

/-! ### The invariant -/

/-- The functions are those of the block, and the formulas are current. -/
structure Consistent (d : Document) : Prop where
  functions : Parser.parseBlock d.functionsText .empty = (d.functions, d.functionErrors)
  formulas : ∀ f ∈ d.formulas, f.Current d.functions

theorem consistent_empty : Consistent empty := by
  refine ⟨?_, fun f hf => ?_⟩
  · have hlines : Text.lines "" = [] := by decide
    simp only [empty, Parser.parseBlock, Parser.readBlock, hlines, List.zipIdx_nil,
      Parser.headers, Parser.defineAll, List.foldl_nil, List.mergeSort_nil]
  · cases hf

theorem consistent_setFunctionsText (d : Document) (text : String) :
    Consistent (d.setFunctionsText text).1 := by
  unfold setFunctionsText
  generalize hblock : Parser.parseBlock text .empty = block
  refine ⟨hblock, fun f hf => ?_⟩
  simp only [List.map_map, List.mem_map, Function.comp_apply] at hf
  obtain ⟨g, -, rfl⟩ := hf
  exact Formula.current_reparse g block.1

theorem Consistent.addFormula (h : Consistent d) (text : String) :
    Consistent (d.addFormula text) := by
  refine ⟨h.functions, fun f hf => ?_⟩
  rcases List.mem_append.mp hf with hf | hf
  · exact h.formulas f hf
  · obtain rfl := List.mem_singleton.mp hf
    exact Formula.current_ofText text d.functions

theorem Consistent.setFormula (h : Consistent d) (index : Nat) (text : String) :
    Consistent (d.setFormula index text).1 := by
  cases hget : d.formulas[index]? with
  | none =>
      rw [setFormula_none hget]
      exact h
  | some g =>
      rw [setFormula_some hget]
      refine ⟨h.functions, fun f hf => ?_⟩
      rcases List.mem_or_eq_of_mem_set hf with hf | rfl
      · exact h.formulas f hf
      · exact Formula.current_setText (h.formulas g (List.mem_of_getElem? hget)) text

theorem Consistent.removeFormula (h : Consistent d) (index : Nat) :
    Consistent (d.removeFormula index).1 :=
  ⟨h.functions, fun f hf => h.formulas f (List.mem_of_mem_eraseIdx hf)⟩

theorem Consistent.edit (h : Consistent d) (e : Edit) : Consistent (d.edit e) := by
  cases e with
  | setFunctionsText text => exact consistent_setFunctionsText d text
  | addFormula text => exact h.addFormula text
  | setFormula index text => exact h.setFormula index text
  | removeFormula index => exact h.removeFormula index

/-- Whatever was edited, the functions are those of the block and the formulas are current. -/
theorem consistent_after (edits : List Edit) : Consistent (after edits) := by
  unfold after
  suffices h : ∀ d, Consistent d → Consistent (edits.foldl edit d) from h empty consistent_empty
  induction edits with
  | nil => exact fun d h => h
  | cons e edits ih => exact fun d h => ih (d.edit e) (h.edit e)

/-! ### The texts decide -/

theorem map_eq_of_forall₂ {β : Type} {R : Formula → Formula → Prop} {g : Formula → β}
    (hg : ∀ f f', R f f' → g f = g f') {fs fs' : List Formula} (h : List.Forall₂ R fs fs') :
    fs.map g = fs'.map g := by
  rw [← List.forall₂_eq_eq_eq, List.forall₂_map_left_iff, List.forall₂_map_right_iff]
  exact h.imp hg

/-- Consistent documents of the same texts have the same functions. -/
theorem Consistent.functions_eq (h : Consistent d) (h' : Consistent d')
    (htext : d.functionsText = d'.functionsText) :
    d.functions = d'.functions ∧ d.functionErrors = d'.functionErrors := by
  have hfunctions := h.functions.symm.trans ((congrArg (Parser.parseBlock · .empty) htext).trans
    h'.functions)
  exact Prod.mk.inj hfunctions

/-- Consistent documents of the same texts have the same formulas, up to equivalence. -/
theorem Consistent.formulas_eq (h : Consistent d) (h' : Consistent d')
    (htext : d.functionsText = d'.functionsText)
    (htexts : d.formulas.map (·.text) = d'.formulas.map (·.text)) :
    List.Forall₂ (fun f f' => f.error = f'.error ∧ SameTree f.expr f'.expr)
      d.formulas d'.formulas := by
  obtain ⟨hfunctions, -⟩ := h.functions_eq h' htext
  rw [← List.forall₂_eq_eq_eq, List.forall₂_map_left_iff, List.forall₂_map_right_iff,
    List.forall₂_iff_zip] at htexts
  refine List.forall₂_iff_zip.mpr ⟨htexts.1, fun {f f'} hmem => ?_⟩
  obtain ⟨hf, hf'⟩ := List.of_mem_zip hmem
  have hsame : f.text = f'.text := htexts.2 hmem
  refine ⟨?_, ?_⟩
  · rw [(h.formulas f hf).error, (h'.formulas f' hf').error, hsame, hfunctions]
  · have hexpr' := (h'.formulas f' hf').expr
    rw [← hsame, ← hfunctions] at hexpr'
    exact Formula.sameTree_trans (h.formulas f hf).expr (Formula.sameTree_symm hexpr')

/-- The list of errors looks at nothing of a formula but its error. -/
theorem errors_eq_of_map (hfunctions : d.functionErrors = d'.functionErrors)
    (hformulas : d.formulas.map (·.error) = d'.formulas.map (·.error)) : d.errors = d'.errors := by
  have hitems : ∀ d : Document, d.errors = d.functionErrors.map functionItem ++
      ((d.formulas.map (·.error)).zipIdx 1).filterMap fun item =>
        item.1.map (formulaItem item.2) := by
    intro d
    rw [List.zipIdx_map, List.filterMap_map]
    rfl
  rw [hitems, hitems, hfunctions, hformulas]

/-- What is shown of a document follows from its texts, whatever was edited before.  The
functions and their errors are those of the block, read on its own.  Every formula has the
error that its text has when it is read for the first time against these functions, and an
equivalent tree; a blank text has neither, and any other has one of the two.  So where two
histories end in the same texts, the formulas are written and evaluated alike and the same
errors are listed. -/
theorem after_determined (edits : List Edit) :
    Parser.parseBlock (after edits).functionsText .empty =
        ((after edits).functions, (after edits).functionErrors) ∧
      (∀ f ∈ (after edits).formulas,
        f.error = (Formula.ofText f.text (after edits).functions).error ∧
        SameTree f.expr (Formula.ofText f.text (after edits).functions).expr ∧
        (Text.isAllBlank f.text = true → f.expr = none ∧ f.error = none) ∧
        (Text.isAllBlank f.text = false → f.expr.isSome = !f.error.isSome)) ∧
      ∀ edits' : List Edit, (after edits).functionsText = (after edits').functionsText →
        (after edits).formulas.map (·.text) = (after edits').formulas.map (·.text) →
        (∀ names, (after edits).formulas.map (fun f => f.expr.map (·.text names)) =
          (after edits').formulas.map (fun f => f.expr.map (·.text names))) ∧
        (∀ args, (after edits).formulas.map (fun f => f.expr.map (·.eval args)) =
          (after edits').formulas.map (fun f => f.expr.map (·.eval args))) ∧
        (after edits).errors = (after edits').errors := by
  have h := consistent_after edits
  refine ⟨h.functions, fun f hf => ?_, fun edits' htext htexts => ?_⟩
  · obtain ⟨herror, hexpr⟩ := h.formulas f hf
    rw [Formula.ofText_eq]
    refine ⟨herror, hexpr, fun hblank => ?_, fun hblank => ?_⟩
    · obtain ⟨htree, hnone⟩ := Formula.read_of_blank hblank (after edits).functions
      rw [htree] at hexpr
      rw [herror, hnone]
      exact ⟨Formula.eq_none_of_sameTree hexpr, rfl⟩
    · rw [Formula.sameTree_isSome hexpr, herror]
      exact Formula.read_of_not_blank hblank (after edits).functions
  · have h' := consistent_after edits'
    have hformulas := h.formulas_eq h' htext htexts
    refine ⟨fun names => ?_, fun args => ?_, ?_⟩
    · exact map_eq_of_forall₂ (fun f f' hf => Formula.sameTree_text hf.2 names) hformulas
    · exact map_eq_of_forall₂ (fun f f' hf => Formula.sameTree_eval hf.2 args) hformulas
    · exact errors_eq_of_map (h.functions_eq h' htext).2
        (map_eq_of_forall₂ (fun f f' hf => hf.1) hformulas)

/-- A formula that was read before its function was there, and edited later, is shown like one
that was added last. -/
theorem after_determined_late_function :
    let edits : List Edit :=
      [.addFormula "f(x)", .setFunctionsText "f(a) = a", .setFormula 0 "f(x) + y"]
    let edits' : List Edit := [.setFunctionsText "f(a) = a", .addFormula "f(x) + y"]
    (after edits).functionsText = (after edits').functionsText ∧
      (after edits).formulas.map (·.text) = (after edits').formulas.map (·.text) ∧
      (after edits).errors = (after edits').errors := by
  intro edits edits'
  have htext : (after edits).functionsText = (after edits').functionsText := by decide +kernel
  have htexts : (after edits).formulas.map (·.text) = (after edits').formulas.map (·.text) := by
    decide +kernel
  obtain ⟨-, -, hsame⟩ := after_determined edits
  obtain ⟨-, -, herrors⟩ := hsame edits' htext htexts
  exact ⟨htext, htexts, herrors⟩

/-! ### The flags decide what is drawn again -/

open Formula (Undisturbed Disturbed)

theorem formulas_setFunctionsText (d : Document) (text : String) :
    (d.setFunctionsText text).1.formulas =
        d.formulas.map (·.reparse (d.setFunctionsText text).1.functions |>.1) ∧
      (d.setFunctionsText text).2 =
        d.formulas.any (·.reparse (d.setFunctionsText text).1.functions |>.2) := by
  unfold setFunctionsText
  generalize Parser.parseBlock text .empty = block
  exact ⟨List.map_map, List.any_map⟩

/-- Without a change, no formula is disturbed by another block of functions. -/
theorem undisturbed_setFunctionsText (d : Document) (text : String)
    (h : (d.setFunctionsText text).2 = false) :
    List.Forall₂ (Undisturbed (d.setFunctionsText text).1.functions) d.formulas
      (d.setFunctionsText text).1.formulas := by
  obtain ⟨hformulas, hflag⟩ := formulas_setFunctionsText d text
  rw [hflag, List.any_eq_false] at h
  rw [hformulas, List.forall₂_map_right_iff, List.forall₂_same]
  intro f hf
  refine Formula.undisturbed_of_sameTree ?_ (Formula.current_reparse f _)
  have hsame := h f hf
  rw [Formula.flag_reparse, Bool.not_eq_true] at hsame
  exact Formula.differs_eq_false.mp hsame

/-- A change is the change of some formula. -/
theorem disturbed_setFunctionsText (d : Document) (text : String)
    (h : (d.setFunctionsText text).2 = true) :
    ∃ (index : Nat) (f f' : Formula), d.formulas[index]? = some f ∧
      (d.setFunctionsText text).1.formulas[index]? = some f' ∧ Disturbed f f' := by
  obtain ⟨hformulas, hflag⟩ := formulas_setFunctionsText d text
  rw [hflag, List.any_eq_true] at h
  obtain ⟨f, hf, hdiffers⟩ := h
  obtain ⟨index, hindex⟩ := List.mem_iff_getElem?.mp hf
  rw [Formula.flag_reparse] at hdiffers
  refine ⟨index, f, _, hindex, ?_, Formula.disturbed_of_differs hdiffers⟩
  rw [hformulas, List.getElem?_map, hindex]
  rfl

/-- Without a change, no formula is disturbed by another text of one of them. -/
theorem Consistent.undisturbed_setFormula (h : Consistent d) (index : Nat) (text : String)
    (hflag : (d.setFormula index text).2 = some false) :
    List.Forall₂ (Undisturbed (d.setFormula index text).1.functions) d.formulas
      (d.setFormula index text).1.formulas := by
  cases hget : d.formulas[index]? with
  | none =>
      rw [setFormula_none hget text] at hflag
      cases hflag
  | some f =>
      have hafter := h.setFormula index text
      rw [setFormula_some hget text] at hflag hafter ⊢
      rw [Option.some.injEq, Formula.flag_setText] at hflag
      refine List.forall₂_iff_get.mpr ⟨List.length_set.symm, fun i hi hi' => ?_⟩
      refine Formula.undisturbed_of_sameTree ?_ (hafter.formulas _ (List.get_mem _ _))
      by_cases hindex : index = i
      · subst hindex
        obtain ⟨_, rfl⟩ := List.getElem?_eq_some_iff.mp hget
        simpa using Formula.differs_eq_false.mp hflag
      · simpa [hindex] using Formula.sameTree_refl _

/-- A change is the change of the formula whose text was replaced. -/
theorem disturbed_setFormula (d : Document) (index : Nat) (text : String)
    (hflag : (d.setFormula index text).2 = some true) :
    ∃ f f', d.formulas[index]? = some f ∧ (d.setFormula index text).1.formulas[index]? = some f' ∧
      Disturbed f f' := by
  cases hget : d.formulas[index]? with
  | none =>
      rw [setFormula_none hget text] at hflag
      cases hflag
  | some f =>
      rw [setFormula_some hget text] at hflag ⊢
      rw [Option.some.injEq, Formula.flag_setText] at hflag
      refine ⟨f, _, rfl, ?_, Formula.disturbed_of_differs hflag⟩
      obtain ⟨hindex, -⟩ := List.getElem?_eq_some_iff.mp hget
      exact List.getElem?_set_self hindex

/-- The flags of the edits tell exactly when a curve has to be drawn again.  If they report no
change, every formula has a tree exactly if it had one, with the same values bit for bit,
and these are the values of its text read against the present functions.  If they report one,
then a formula, or the one whose text was replaced, gained or lost its tree or has one that is
not equivalent to the old one. -/
theorem after_redraws (edits : List Edit) :
    (∀ text d' changed, (after edits).setFunctionsText text = (d', changed) →
        (changed = false → List.Forall₂ (Undisturbed d'.functions) (after edits).formulas
          d'.formulas) ∧
        (changed = true → ∃ (index : Nat) (f f' : Formula),
          (after edits).formulas[index]? = some f ∧ d'.formulas[index]? = some f' ∧
            Disturbed f f')) ∧
      ∀ index text d' changed, (after edits).setFormula index text = (d', changed) →
        (changed = some false → List.Forall₂ (Undisturbed d'.functions) (after edits).formulas
          d'.formulas) ∧
        (changed = some true → ∃ f f', (after edits).formulas[index]? = some f ∧
          d'.formulas[index]? = some f' ∧ Disturbed f f') := by
  refine ⟨fun text d' changed hedit => ?_, fun index text d' changed hedit => ?_⟩
  · have hundisturbed := undisturbed_setFunctionsText (after edits) text
    have hdisturbed := disturbed_setFunctionsText (after edits) text
    rw [hedit] at hundisturbed hdisturbed
    exact ⟨hundisturbed, hdisturbed⟩
  · have hundisturbed := (consistent_after edits).undisturbed_setFormula index text
    have hdisturbed := disturbed_setFormula (after edits) index text
    rw [hedit] at hundisturbed hdisturbed
    exact ⟨hundisturbed, hdisturbed⟩

/-- A formula notices another body of a function that its own function calls, and does not
notice another name of its parameter. -/
theorem after_redraws_callee_of_callee :
    let edits : List Edit := [.addFormula "f(x)", .setFunctionsText "f(a) = g(a)\ng(a) = a"]
    let renamed := (after edits).setFunctionsText "f(a) = g(a)\ng(b) = b"
    let replaced := (after edits).setFunctionsText "f(a) = g(a)\ng(a) = 2 * a"
    (renamed.2 = false ∧
        List.Forall₂ (Undisturbed renamed.1.functions) (after edits).formulas renamed.1.formulas) ∧
      replaced.2 = true ∧ ∃ (index : Nat) (f f' : Formula),
        (after edits).formulas[index]? = some f ∧ replaced.1.formulas[index]? = some f' ∧
          Disturbed f f' := by
  intro edits renamed replaced
  have hrenamed : renamed.2 = false := by decide +kernel
  have hreplaced : replaced.2 = true := by decide +kernel
  obtain ⟨hfunctions, -⟩ := after_redraws edits
  exact ⟨⟨hrenamed, (hfunctions _ _ _ rfl).1 hrenamed⟩, hreplaced,
    (hfunctions _ _ _ rfl).2 hreplaced⟩

end Document

end FormulaPlot
