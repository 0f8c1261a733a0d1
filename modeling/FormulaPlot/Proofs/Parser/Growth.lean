/-
How a registry grows.

Inserting a function can replace one.  Reading a block never does: what a block inserts
has a name that was free, so it comes after all that was there before.  `Layers` is the
shape of what a block adds.  It is a list that grows at its end, and each function in it
was read against those before it.  Whatever is said of a registry in its order, such as
that a function stands behind those it calls, is an induction on the layers.
-/
import FormulaPlot.Proofs.Parser.Order

namespace FormulaPlot

namespace Registry

variable {r : Registry} {f g : UserFunction} {fs : List UserFunction} {name : String}

theorem get?_eq_none : r.get? name = none ↔ name ∉ r.names := by
  unfold get? names
  rw [List.find?_eq_none]
  constructor
  · intro h hmem
    obtain ⟨f, hf, rfl⟩ := List.mem_map.mp hmem
    exact h f hf (beq_self_eq_true f.name)
  · intro h f hf heq
    rw [beq_iff_eq] at heq
    exact h (heq ▸ List.mem_map_of_mem hf)

theorem contains_eq_false : r.contains name = false ↔ name ∉ r.names := by
  rw [← get?_eq_none, contains, Option.isSome_eq_false_iff, Option.isNone_iff_eq_none]

/-- Functions that come later do not hide one. -/
theorem get?_append (h : get? ⟨fs⟩ name = some f) (gs : List UserFunction) :
    get? ⟨fs ++ gs⟩ name = some f := by
  unfold get? at h ⊢
  rw [List.find?_append, h, Option.some_or]

/-- A function with a name of its own is found at the end. -/
theorem get?_append_singleton (h : f.name ∉ fs.map (·.name)) :
    get? ⟨fs ++ [f]⟩ f.name = some f := by
  have hno : get? ⟨fs⟩ f.name = none := get?_eq_none.mpr h
  unfold get? at hno ⊢
  rw [List.find?_append, hno, Option.none_or, List.find?_singleton, if_pos (beq_self_eq_true _)]

/-- A function with a new name is put at the end. -/
theorem place_of_new (h : f.name ∉ fs.map (·.name)) : place f fs = fs ++ [f] := by
  induction fs with
  | nil => rfl
  | cons g gs ih =>
      simp only [List.map_cons, List.mem_cons, not_or] at h
      have hne : ¬ (g.name == f.name) = true := fun heq => h.1 (beq_iff_eq.mp heq).symm
      rw [place, if_neg hne, ih h.2, List.cons_append]

/-- A function that is there already is put where it is. -/
theorem place_of_get? (h : get? ⟨fs⟩ f.name = some f) : place f fs = fs := by
  induction fs with
  | nil => cases h
  | cons g gs ih =>
      unfold get? at h ih
      rw [List.find?_cons] at h
      rw [place]
      by_cases heq : (g.name == f.name) = true
      · rw [heq] at h
        rw [if_pos heq, Option.some.inj h]
      · rw [Bool.not_eq_true] at heq
        rw [heq] at h
        rw [if_neg (by simp [heq]), ih h]

end Registry

namespace Parser

open Similarity

/-! ### Layers -/

/-- What a block adds to the functions that there are: each function with its definition, in
the order in which the bodies were read.  Every body was read against what stands before it. -/
inductive Layers (definitions : List Definition) (finish : Expr → Expr)
    (fs : List UserFunction) : List (Definition × UserFunction) → Prop
  | nil : Layers definitions finish fs []
  | snoc {added : List (Definition × UserFunction)} {d : Definition} {body : Expr}
      (h : Layers definitions finish fs added) (hd : d ∈ definitions)
      (hnew : d.name ∉ (fs ++ added.map Prod.snd).map (·.name))
      (hread : (topLevel d.params d.body).against ⟨fs ++ added.map Prod.snd⟩ = .ok body) :
      Layers definitions finish fs (added ++ [(d, ⟨d.name, d.params, finish body⟩)])

variable {definitions : List Definition} {finish : Expr → Expr} {functions r r' : Registry}
  {fs : List UserFunction} {added : List (Definition × UserFunction)} {d : Definition}
  {f : UserFunction}

/-- With more functions a body is read as before. -/
theorem against_mono (hmore : ∀ name f, r.get? name = some f → r'.get? name = some f) {body : Expr}
    (hread : (topLevel d.params d.body).against r = .ok body) :
    (topLevel d.params d.body).against r' = .ok body :=
  (related_of_honest (honest_topLevel d.params d.body)).against_mono moved_refl hmore hread

/-- Whatever was added is found under its name, and is what its body is read as. -/
theorem Layers.read (h : Layers definitions finish fs added) (hmem : (d, f) ∈ added) :
    d ∈ definitions ∧ Registry.get? ⟨fs ++ added.map Prod.snd⟩ d.name = some f ∧
      ∃ body, (topLevel d.params d.body).against ⟨fs ++ added.map Prod.snd⟩ = .ok body ∧
        f = ⟨d.name, d.params, finish body⟩ := by
  induction h with
  | nil => cases hmem
  | @snoc added d' body' _ hd' hnew hread ih =>
      rw [List.map_append, ← List.append_assoc]
      have hmore : ∀ name f, Registry.get? ⟨fs ++ added.map Prod.snd⟩ name = some f →
          Registry.get? ⟨fs ++ added.map Prod.snd ++ [⟨d'.name, d'.params, finish body'⟩]⟩ name =
            some f := fun name f hf => Registry.get?_append hf _
      rcases List.mem_append.mp hmem with hmem | hmem
      · obtain ⟨hd, hget, body, hbody, rfl⟩ := ih hmem
        exact ⟨hd, hmore _ _ hget, body, against_mono hmore hbody, rfl⟩
      · obtain ⟨rfl, rfl⟩ := Prod.mk.inj (List.mem_singleton.mp hmem)
        exact ⟨hd', Registry.get?_append_singleton hnew, body', against_mono hmore hread, rfl⟩

/-- The layers are about different functions. -/
theorem Layers.distinct (h : Layers definitions finish fs added) :
    (added.map fun entry => entry.1.name).Nodup := by
  induction h with
  | nil => exact List.nodup_nil
  | @snoc added d body h hd hnew hread ih =>
      have hnames : added.map (fun entry => entry.1.name) = (added.map Prod.snd).map (·.name) := by
        rw [List.map_map]
        refine List.map_congr_left fun entry hmem => ?_
        obtain ⟨-, -, _, -, hf⟩ := h.read (d := entry.1) (f := entry.2) hmem
        rw [Function.comp_apply, hf]
      rw [List.map_append, List.nodup_append]
      refine ⟨ih, List.nodup_singleton _, ?_⟩
      intro name hname name' hname' heq
      obtain rfl : name' = d.name := List.mem_singleton.mp hname'
      rw [hnames, heq] at hname
      refine hnew ?_
      rw [List.map_append]
      exact List.mem_append_right _ hname

/-- A registry that was built by reading one body after the other has grown by layers.  A body
that is read a second time gives the same function again. -/
theorem Grown.layers (hnames : NewNames functions definitions)
    (h : Grown definitions finish functions r) :
    ∃ added, Layers definitions finish functions.functions added ∧
      r.functions = functions.functions ++ added.map Prod.snd := by
  induction h with
  | start => exact ⟨[], .nil, (List.append_nil _).symm⟩
  | @define r d body _ hd hread ih =>
      obtain ⟨added, hadded, hfunctions⟩ := ih
      obtain ⟨functions'⟩ := r
      obtain rfl : functions' = functions.functions ++ added.map Prod.snd := hfunctions
      by_cases hfree : d.name ∈ (functions.functions ++ added.map Prod.snd).map (·.name)
      · have hentry : ∃ f, (d, f) ∈ added := by
          rw [List.map_append] at hfree
          rcases List.mem_append.mp hfree with hold | hfree
          · exact absurd hold (Registry.contains_eq_false.mp (hnames.new d hd))
          · obtain ⟨f, hf, hname⟩ := List.mem_map.mp hfree
            obtain ⟨⟨d', f'⟩, hmem, rfl⟩ := List.mem_map.mp hf
            obtain ⟨hd', -, _, -, rfl⟩ := hadded.read hmem
            obtain rfl := List.inj_on_of_nodup_map hnames.distinct hd' hd hname
            exact ⟨_, hmem⟩
        obtain ⟨f, hmem⟩ := hentry
        obtain ⟨-, hget, body', hbody', rfl⟩ := hadded.read hmem
        obtain rfl : body' = body := Except.ok.inj (hbody'.symm.trans hread)
        exact ⟨added, hadded, Registry.place_of_get? hget⟩
      · refine ⟨added ++ [(d, ⟨d.name, d.params, finish body⟩)], .snoc hadded hd hfree hread, ?_⟩
        rw [List.map_append, ← List.append_assoc]
        exact Registry.place_of_new hfree

/-- A block adds layers to the functions that there are. -/
theorem parseBlock_layers (block : String) (functions : Registry) :
    ∃ added, Layers (headers functions [] (numbered block)).1 Expr.simplify functions.functions
        added ∧
      (parseBlock block functions).1.functions = functions.functions ++ added.map Prod.snd := by
  obtain ⟨hnames, -⟩ := headers_spec functions (numbered block) [] ⟨List.nodup_nil, by simp⟩
  obtain ⟨told, hended⟩ := defineAll_ended Expr.simplify hnames
    (headers functions [] (numbered block)).2
  exact hended.recorded.grown.layers hnames

end Parser

end FormulaPlot
