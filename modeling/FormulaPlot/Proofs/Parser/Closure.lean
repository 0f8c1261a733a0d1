/-
Registries that are made of blocks.

A registry that has grown from nothing by blocks of definitions is closed: a function in
it calls only functions that are in it, and they stand before it.  So no chain of calls
comes back to where it began, not even a chain through several blocks.  Names are told
apart and none is taken from the language.

All this is one invariant, `Orderly`: whatever the functions before it are, a function
that is added stands well behind them.  A header makes sure of the names, the reading of
the body makes sure of the calls, and folding the constants changes neither.
-/
import FormulaPlot.Proofs.Expr.Callees
import FormulaPlot.Proofs.Parser.Growth
import FormulaPlot.Proofs.Parser.Order

namespace FormulaPlot

open Relation (TransGen)

/-! ### Names that are read -/

namespace Token

/-- A name that is cut off from a text is a name. -/
theorem isName_ident {cs : List Char} (h : ident cs ≠ []) :
    Expr.IsName (String.ofList (ident cs)) := by
  rw [Expr.IsName, String.toList_ofList]
  refine ⟨?_, h⟩
  cases cs with
  | nil => exact absurd rfl h
  | cons c cs =>
      by_cases hc : startsIdent c = true
      · simp only [ident, hc, if_true, List.takeWhile_takeWhile, and_self, Bool.decide_eq_true]
      · rw [ident, if_neg hc] at h
        exact absurd rfl h

theorem isName_of_scan {cs lexeme : List Char} {name : String}
    (h : scan cs = (.ident name, lexeme)) : Expr.IsName name := by
  unfold scan at h
  split at h
  · cases h
  · split at h
    · split at h <;> cases h
    · split at h
      · rename_i hident
        cases h
        exact isName_ident hident
      · split at h <;> cases h

/-- The names in a text are names. -/
theorem isName_of_mem {start column : Nat} {cs : List Char} {t : Token} {name : String}
    (ht : t ∈ tokenizeFrom start column cs) (hkind : t.kind = .ident name) :
    Expr.IsName name := by
  have hnext : ∀ start column cs, (next start column cs).1.kind = .ident name →
      Expr.IsName name := by
    intro start column cs h
    rw [kind_next] at h
    exact isName_of_scan (Prod.ext h rfl)
  fun_induction tokenizeFrom start column cs with
  | case1 start column cs step hlast =>
      obtain rfl := List.mem_singleton.mp ht
      exact hnext start column cs hkind
  | case2 start column cs step hopen t' ih =>
      rcases List.mem_cons.mp ht with rfl | ht
      · exact hnext start column cs hkind
      · exact ih ht

end Token

namespace Parser

open FormulaPlot.Expr (IsName Writable Callable)

/-- A function can have this name and these parameters. -/
structure Declarable (name : String) (params : List String) : Prop where
  isName : IsName name
  intrinsic : Intrinsic.ofName? name = none
  constant : Constant.value? name = none
  nonempty : params ≠ []
  distinct : params.Nodup
  param : ∀ param ∈ params, IsName param

variable {ts rest : List Token} {r : Registry}

/-- The parameters of a header are different names that stand in it. -/
theorem parameters_declarable (n : Nat) {seen params : List String} (hn : ts.length ≤ n)
    (h : (parameters seen ts).against r = .ok (params, rest)) :
    params ≠ [] ∧ params.Nodup ∧
      ∀ param ∈ params, param ∉ seen ∧ ∃ t ∈ ts, t.kind = .ident param := by
  induction n generalizing ts seen params with
  | zero =>
      obtain ⟨t, name, us, rfl, -⟩ := against_parameters_eq_ok.mp h
      simp at hn
  | succ n ih =>
      obtain ⟨t, name, us, rfl, ht, hseen, -, hmore⟩ := against_parameters_eq_ok.mp h
      rcases hmore with ⟨-, rfl, -⟩ | ⟨vs, others, hcomma, -, hothers, rfl⟩
      · refine ⟨List.cons_ne_nil _ _, List.nodup_singleton _, fun param hparam => ?_⟩
        obtain rfl := List.mem_singleton.mp hparam
        exact ⟨hseen, t, List.mem_cons_self, ht⟩
      · obtain ⟨t', rfl, -⟩ := after?_eq_some.mp hcomma
        simp only [List.length_cons] at hn
        obtain ⟨-, hdistinct, hparams⟩ := ih (by omega) hothers
        refine ⟨List.cons_ne_nil _ _, List.nodup_cons.mpr ⟨?_, hdistinct⟩, ?_⟩
        · exact fun hname => (hparams name hname).1 List.mem_cons_self
        · intro param hparam
          rcases List.mem_cons.mp hparam with rfl | hparam
          · exact ⟨hseen, t, List.mem_cons_self, ht⟩
          · obtain ⟨hnew, t'', hmem, hkind⟩ := hparams param hparam
            exact ⟨fun hold => hnew (List.mem_cons_of_mem _ hold), t'',
              List.mem_cons_of_mem _ (List.mem_cons_of_mem _ hmem), hkind⟩

/-- What a header declares can be declared. -/
theorem declarable_of_header {taken : String → Bool} {line : Nat} {text : String} {d : Definition}
    (h : header taken line (Token.tokenize text) = .ok d) : Declarable d.name d.params := by
  have hname : ∀ t ∈ Token.tokenize text, ∀ name, t.kind = .ident name → IsName name :=
    fun t ht name hkind => Token.isName_of_mem ht hkind
  generalize Token.tokenize text = ts at h hname
  rcases header_cases ts with ⟨name, column, us, hident, hheader⟩ | ⟨-, fault, -, hheader⟩
  · rw [hheader] at h
    obtain ⟨t, rfl, ht⟩ := ident?_eq_some.mp hident
    cases hread : (signature taken name column us).against .empty with
    | error fault =>
        rw [hread] at h
        cases h
    | ok read =>
        obtain ⟨params, body⟩ := read
        rw [hread] at h
        cases h
        obtain ⟨⟨hintrinsic, hconst, -⟩, -, vs, ws, xs, hopen, hparams, -, -⟩ :=
          against_signature_eq_ok.mp hread
        obtain ⟨t', rfl, -⟩ := against_expect_eq_ok.mp hopen
        obtain ⟨hne, hdistinct, hmem⟩ := parameters_declarable _ (Nat.le_refl _) hparams
        refine ⟨hname t List.mem_cons_self name ht, hintrinsic, hconst, hne, hdistinct, ?_⟩
        intro param hparam
        obtain ⟨-, t'', ht'', hkind⟩ := hmem param hparam
        exact hname t'' (List.mem_cons_of_mem _ (List.mem_cons_of_mem _ ht'')) param hkind
  · rw [hheader] at h
    cases h

/-! ### Functions that stand in order -/

/-- The function can stand behind these functions: it has a name of its own, and what its body
calls is among them. -/
structure Standing (fs : List UserFunction) (f : UserFunction) : Prop where
  declarable : Declarable f.name f.params
  new : f.name ∉ fs.map (·.name)
  body : Writable ⟨f.params, ⟨fs⟩⟩ f.body
  folded : f.body.simplify = f.body

/-- Each function can stand behind those before it. -/
inductive Orderly : List UserFunction → Prop
  | nil : Orderly []
  | snoc {fs : List UserFunction} {f : UserFunction} (h : Orderly fs) (hf : Standing fs f) :
      Orderly (fs ++ [f])

variable {fs before after : List UserFunction} {f : UserFunction}

theorem Orderly.standing (h : Orderly fs) (hfs : fs = before ++ f :: after) :
    Standing before f := by
  induction h generalizing after with
  | nil => simp at hfs
  | @snoc gs g _ hg ih =>
      rcases List.eq_nil_or_concat after with rfl | ⟨after, g', rfl⟩
      · obtain ⟨rfl, hlast⟩ := List.append_inj' hfs rfl
        obtain rfl := (List.cons.inj hlast).1
        exact hg
      · have hlast : gs ++ [g] = (before ++ f :: after) ++ [g'] := by simpa using hfs
        exact ih (List.append_inj' hlast rfl).1

theorem Orderly.declarable (h : Orderly fs) : ∀ f ∈ fs, Declarable f.name f.params := by
  intro f hf
  obtain ⟨before, after, rfl⟩ := List.mem_iff_append.mp hf
  exact (h.standing rfl).declarable

theorem Orderly.distinct (h : Orderly fs) : (fs.map (·.name)).Nodup := by
  induction h with
  | nil => exact List.nodup_nil
  | @snoc fs f _ hf ih =>
      rw [List.map_append, List.nodup_append]
      refine ⟨ih, List.nodup_singleton _, ?_⟩
      intro name hname name' hname' heq
      obtain rfl : name' = f.name := List.mem_singleton.mp hname'
      exact hf.new (heq ▸ hname)

/-- Every layer of a block stands in order. -/
theorem Orderly.layers {definitions : List Definition} {added : List (Definition × UserFunction)}
    (h : Orderly fs) (hdeclared : ∀ d ∈ definitions, Declarable d.name d.params)
    (hadded : Layers definitions Expr.simplify fs added) : Orderly (fs ++ added.map Prod.snd) := by
  induction hadded with
  | nil => simpa using h
  | @snoc added d body _ hd hnew hread ih =>
      rw [List.map_append, ← List.append_assoc]
      refine ih.snoc ⟨hdeclared d hd, hnew, ?_, Expr.simplify_simplify body⟩
      have hcallable : ∀ f ∈ fs ++ added.map Prod.snd, Callable f := fun f hf =>
        ⟨(ih.declarable f hf).isName, (ih.declarable f hf).nonempty⟩
      obtain ⟨used, rest, -, -, hderives⟩ :=
        topLevel_takes (s := ⟨d.params, ⟨fs ++ added.map Prod.snd⟩⟩) hread
      exact (Expr.writable_of_derives hcallable hderives).simplify

/-- A block keeps the functions in order. -/
theorem Orderly.parseBlock {functions : Registry} (h : Orderly functions.functions)
    (block : String) : Orderly (parseBlock block functions).1.functions := by
  obtain ⟨added, hadded, hfunctions⟩ := parseBlock_layers block functions
  rw [hfunctions]
  refine h.layers (fun d hd => ?_) hadded
  obtain ⟨-, hlines⟩ := headers_spec functions (numbered block) [] ⟨List.nodup_nil, by simp⟩
  rcases hlines d hd with hmem | ⟨text, taken, -, hheader⟩
  · cases hmem
  · exact declarable_of_header hheader

/-- So do any number of blocks. -/
theorem Orderly.foldl {functions : Registry} (h : Orderly functions.functions)
    (blocks : List String) :
    Orderly (blocks.foldl (fun r block => (Parser.parseBlock block r).1) functions).functions := by
  induction blocks generalizing functions with
  | nil => exact h
  | cons block blocks ih => exact ih (h.parseBlock block)

end Parser

/-! ### Closed registries -/

/-- The function of one name calls that of the other. -/
def Registry.Calls (r : Registry) (caller callee : String) : Prop :=
  ∃ f, r.get? caller = some f ∧ ∃ g ∈ f.body.callees, g.name = callee

/-- The functions of a registry have names and parameters of their own, and call only one
another, always backwards. -/
structure Registry.Coherent (r : Registry) : Prop where
  distinct : r.names.Nodup
  unreserved : ∀ f ∈ r.functions,
    Intrinsic.ofName? f.name = none ∧ Constant.value? f.name = none
  params : ∀ f ∈ r.functions, f.params ≠ [] ∧ f.params.Nodup
  /-- What is called is what the registry holds under the name. -/
  found : ∀ f ∈ r.functions, ∀ g ∈ f.body.callees, r.get? g.name = some g
  /-- What is called stands before its caller. -/
  backwards : ∀ (i : Nat) (f : UserFunction), r.functions[i]? = some f →
    ∀ g ∈ f.body.callees, ∃ j < i, r.functions[j]? = some g
  acyclic : ∀ name, ¬ TransGen r.Calls name name

namespace Parser

variable {r : Registry} {fs : List UserFunction} {f g : UserFunction}

theorem Orderly.backwards (h : Orderly fs) {i : Nat} (hi : fs[i]? = some f)
    (hg : g ∈ f.body.callees) : ∃ j < i, fs[j]? = some g := by
  obtain ⟨hlt, rfl⟩ := List.getElem?_eq_some_iff.mp hi
  have hsplit : fs = fs.take i ++ fs[i] :: fs.drop (i + 1) := by
    rw [← List.drop_eq_getElem_cons hlt, List.take_append_drop]
  obtain ⟨hmem, -⟩ := Registry.mem_of_get? ((h.standing hsplit).body.get?_of_mem hg)
  obtain ⟨j, hj, hget⟩ := List.mem_take_iff_getElem.mp hmem
  exact ⟨j, by omega, List.getElem?_eq_some_iff.mpr ⟨_, hget⟩⟩

/-- A chain of calls leads to functions further and further in front. -/
theorem idxOf_lt_of_calls (h : Orderly r.functions) {caller callee : String}
    (hcalls : TransGen r.Calls caller callee) : r.names.idxOf callee < r.names.idxOf caller := by
  have hplace : ∀ i f, r.functions[i]? = some f → r.names.idxOf f.name = i := by
    intro i f hi
    have hname : r.names[i]? = some f.name := by
      rw [Registry.names, List.getElem?_map, hi, Option.map_some]
    obtain ⟨hlt, heq⟩ := List.getElem?_eq_some_iff.mp hname
    rw [← heq]
    exact h.distinct.idxOf_getElem i hlt
  have hstep : ∀ caller callee, r.Calls caller callee →
      r.names.idxOf callee < r.names.idxOf caller := by
    rintro _ _ ⟨f, hf, g, hg, rfl⟩
    obtain ⟨hmem, rfl⟩ := Registry.mem_of_get? hf
    obtain ⟨i, hi⟩ := List.getElem?_of_mem hmem
    obtain ⟨j, hj, hj'⟩ := h.backwards hi hg
    rw [hplace i f hi, hplace j g hj']
    exact hj
  induction hcalls with
  | single hcall => exact hstep _ _ hcall
  | tail _ hcall ih => exact (hstep _ _ hcall).trans ih

theorem Orderly.coherent (h : Orderly r.functions) : r.Coherent := by
  refine ⟨h.distinct, fun f hf => ?_, fun f hf => ?_, fun f hf g hg => ?_,
    fun i f hi g hg => h.backwards hi hg, fun name hcircle => ?_⟩
  · exact ⟨(h.declarable f hf).intrinsic, (h.declarable f hf).constant⟩
  · exact ⟨(h.declarable f hf).nonempty, (h.declarable f hf).distinct⟩
  · obtain ⟨before, after, hsplit⟩ := List.mem_iff_append.mp hf
    have hget := (h.standing hsplit).body.get?_of_mem hg
    have hmore := Registry.get?_append hget (f :: after)
    rwa [← hsplit] at hmore
  · exact absurd (idxOf_lt_of_calls h hcircle) (Nat.lt_irrefl _)

/-- Whatever blocks are read one after the other, the registry that they make is closed.  Its
names are distinct and unreserved, every call in a body is of the very function that the registry
has under that name, this function stands before its caller, and no calls go round in a circle,
within a block or across blocks. -/
theorem blocks_coherent (blocks : List String) :
    (blocks.foldl (fun r block => (parseBlock block r).1) .empty).Coherent :=
  Orderly.coherent (Orderly.foldl .nil blocks)

end Parser

end FormulaPlot
