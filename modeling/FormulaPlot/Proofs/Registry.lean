/-
A registry is a map that remembers in which order its names came.

Two things make it one.  The row and the index are in step, so a function is found under its
name and nowhere else, and whatever is asked of the index can be read off the row: which names
there are, how many, and what is found under each.  And inserting does one of two things to the
row, it replaces the function at the place of the name or it puts one at the end, so no other
function changes and none moves.

The names and what is found under them are followed through the insertions one at a time, from
the last one back.  Without its index the registry is the one that texts are read with, and both
give the same answers.
-/
import Mathlib.Data.Finset.Card
import FormulaPlot.Proofs.Expr.Callees
import FormulaPlot.Proofs.Parser.Growth
import FormulaPlot.Registry.Indexed

namespace FormulaPlot

/-- What can be asked of a registry. -/
structure Answers where
  names : List String
  size : Nat
  get? : String → Option UserFunction
  contains : String → Bool
  iter : List UserFunction

/-- The answers of a map that remembers in which order its names came, after some functions were
inserted under their names. -/
structure OrderedMap (fs : List UserFunction) (a : Answers) : Prop where
  /-- Every name that a function was inserted under is listed, and no other. -/
  mem_names : ∀ name, name ∈ a.names ↔ ∃ f ∈ fs, f.name = name
  nodup : a.names.Nodup
  /-- The names stand in the order in which they first came. -/
  order : a.names.Pairwise fun name name' =>
    (fs.map (·.name)).idxOf name < (fs.map (·.name)).idxOf name'
  size : a.size = (fs.map (·.name)).toFinset.card
  /-- The last function that was inserted under a name is found under it. -/
  latest : ∀ name, a.get? name = fs.reverse.find? fun f => f.name == name
  contains : ∀ name, a.contains name = true ↔ ∃ f ∈ fs, f.name = name
  iter : a.iter.map some = a.names.map a.get?

/-- What inserting a function changes: it is found under its name, and it stands where one of its
name stood, or at the end if there was none.  Nothing else changes, and nothing moves. -/
structure Inserted (f : UserFunction) (before after : Answers) : Prop where
  found : after.get? f.name = some f
  others : ∀ name, name ≠ f.name → after.get? name = before.get? name
  places : ∀ (i : Nat) (g : UserFunction), before.iter[i]? = some g →
    after.iter[i]? = some (if g.name = f.name then f else g)
  names : after.names =
    if f.name ∈ before.names then before.names else before.names ++ [f.name]

/-- The answers of the registry that texts are read with. -/
def Registry.answers (r : Registry) : Answers := ⟨r.names, r.size, r.get?, r.contains, r.functions⟩

/-- A function replaces the only one of its name where that stands. -/
theorem Registry.place_eq_set {f : UserFunction} {fs : List UserFunction} {i : Nat}
    (hnodup : (fs.map (·.name)).Nodup) (hi : i < fs.length) (hname : fs[i].name = f.name) :
    place f fs = fs.set i f := by
  induction fs generalizing i with
  | nil => cases hi
  | cons g gs ih =>
      obtain ⟨hfresh, hnodup⟩ := List.nodup_cons.mp hnodup
      rw [place]
      cases i with
      | zero =>
          have hg : g.name = f.name := hname
          rw [if_pos (beq_iff_eq.mpr hg), List.set_cons_zero]
      | succ i =>
          have hi : i < gs.length := Nat.lt_of_succ_lt_succ hi
          have hname : gs[i].name = f.name := hname
          have hg : ¬ (g.name == f.name) = true := by
            rw [beq_iff_eq, ← hname]
            exact fun hsame => hfresh (List.mem_map.mpr ⟨gs[i], List.getElem_mem hi, hsame.symm⟩)
          rw [if_neg hg, ih hnodup hi hname, List.set_cons_succ]

namespace IndexedRegistry

/-- The answers of the registry with an index. -/
def answers (r : IndexedRegistry) : Answers := ⟨r.names, r.size, r.get?, r.contains, r.iter⟩

variable {r : IndexedRegistry} {f g : UserFunction} {fs : List UserFunction} {name : String}
  {i : Nat}

/-! ### What is read off the row -/

theorem iter_getElem? (r : IndexedRegistry) (i : Nat) : r.iter[i]? = r.functions[i]? :=
  Array.getElem?_toList

theorem length_names (r : IndexedRegistry) : r.names.length = r.iter.length := List.length_map _

/-- A name has the place where it stands. -/
theorem names_getElem? (h : r.names[i]? = some name) : r.places[name]? = some i := by
  rw [names, List.getElem?_map, Option.map_eq_some_iff] at h
  obtain ⟨f, hf, hname⟩ := h
  exact (r.inStep name i).mpr ⟨f, r.iter_getElem? i ▸ hf, hname⟩

/-- No two functions have the same name. -/
theorem names_nodup (r : IndexedRegistry) : r.names.Nodup := by
  rw [List.nodup_iff_getElem?_ne_getElem?]
  intro i j hij hj heq
  have hname : r.names[j]? = some r.names[j] := List.getElem?_eq_getElem hj
  have hplace := names_getElem? (heq.trans hname)
  rw [names_getElem? hname, Option.some_inj] at hplace
  exact absurd hplace.symm (Nat.ne_of_lt hij)

theorem get?_eq_some : r.get? name = some f ↔ f ∈ r.iter ∧ f.name = name := by
  rw [get?, Option.map_eq_some_iff, iter, List.mem_iff_getElem?]
  constructor
  · rintro ⟨i, hi, rfl⟩
    exact ⟨⟨i, r.iter_getElem? i ▸ Array.getElem?_eq_getElem i.isLt⟩, place?_eq_some.mp hi⟩
  · rintro ⟨⟨i, hi⟩, rfl⟩
    obtain ⟨hlt, rfl⟩ := Array.getElem?_eq_some_iff.mp (r.iter_getElem? i ▸ hi)
    exact ⟨⟨i, hlt⟩, place?_eq_some.mpr rfl, rfl⟩

theorem contains_iff_mem_names : r.contains name = true ↔ name ∈ r.names := by
  rw [contains, Std.HashMap.contains_eq_isSome_getElem?, Option.isSome_iff_exists]
  constructor
  · rintro ⟨i, hi⟩
    obtain ⟨f, hf, rfl⟩ := (r.inStep name i).mp hi
    exact List.mem_map_of_mem (List.mem_of_getElem? ((r.iter_getElem? i).trans hf))
  · intro hname
    obtain ⟨i, hi⟩ := List.mem_iff_getElem?.mp hname
    exact ⟨i, names_getElem? hi⟩

/-- The functions are what is found under the names. -/
theorem iter_eq_get? (r : IndexedRegistry) : r.iter.map some = r.names.map r.get? := by
  rw [names, List.map_map]
  exact List.map_congr_left fun f hf => (get?_eq_some.mpr ⟨hf, rfl⟩).symm

/-! ### Without the index -/

/-- A search finds what the index gives the place of. -/
theorem get?_toRegistry (r : IndexedRegistry) (name : String) :
    r.toRegistry.get? name = r.get? name := by
  cases h : r.toRegistry.get? name with
  | none =>
      rw [Registry.get?_eq_none] at h
      rw [eq_comm, Option.eq_none_iff_forall_ne_some]
      intro f hf
      obtain ⟨hmem, rfl⟩ := get?_eq_some.mp hf
      exact h (List.mem_map_of_mem hmem)
  | some f => exact (get?_eq_some.mpr (Registry.mem_of_get? h)).symm

theorem get?_eq_none : r.get? name = none ↔ name ∉ r.names := by
  rw [← get?_toRegistry]
  exact Registry.get?_eq_none

theorem contains_toRegistry (r : IndexedRegistry) (name : String) :
    r.toRegistry.contains name = r.contains name := by
  rw [Bool.eq_iff_iff, contains_iff_mem_names, Registry.contains, get?_toRegistry,
    Option.isSome_iff_ne_none, Ne, get?_eq_none, not_not]

/-- With its index and without it the registry gives the same answers. -/
theorem answers_toRegistry (r : IndexedRegistry) : r.toRegistry.answers = r.answers := by
  have hget : r.toRegistry.get? = r.get? := funext r.get?_toRegistry
  have hcontains : r.toRegistry.contains = r.contains := funext r.contains_toRegistry
  rw [Registry.answers, hget, hcontains]
  rfl

/-! ### What inserting does -/

/-- Inserting replaces the function of the name, which is given back, or puts one with a new
name at the end. -/
theorem insert_cases (r : IndexedRegistry) (f : UserFunction) :
    (∃ (i : Nat) (hi : i < r.iter.length), r.iter[i].name = f.name ∧
      (r.insert f).1 = some r.iter[i] ∧ (r.insert f).2.iter = r.iter.set i f) ∨
    f.name ∉ r.names ∧ (r.insert f).1 = none ∧ (r.insert f).2.iter = r.iter ++ [f] := by
  unfold insert
  split
  next i hplace =>
    exact .inl ⟨i, by simp [iter], place?_eq_some.mp hplace, rfl,
      Array.toList_set r.functions i f i.isLt⟩
  next hplace =>
    refine .inr ⟨get?_eq_none.mp ?_, rfl, Array.toList_push⟩
    rw [get?, hplace, Option.map_none]

/-- What is given back is what was found under the name. -/
theorem fst_insert (r : IndexedRegistry) (f : UserFunction) : (r.insert f).1 = r.get? f.name := by
  obtain ⟨i, hi, hname, hback, -⟩ | ⟨hnew, hback, -⟩ := r.insert_cases f
  · rw [hback, get?_eq_some.mpr ⟨List.getElem_mem hi, hname⟩]
  · rw [hback, get?_eq_none.mpr hnew]

/-- Without the index too the function is inserted in its place. -/
theorem toRegistry_insert (r : IndexedRegistry) (f : UserFunction) :
    (r.insert f).2.toRegistry = r.toRegistry.insert f := by
  rw [toRegistry, toRegistry, Registry.insert]
  obtain ⟨i, hi, hname, -, hiter⟩ | ⟨hnew, -, hiter⟩ := r.insert_cases f
  · rw [hiter, Registry.place_eq_set r.names_nodup hi hname]
  · rw [hiter, Registry.place_of_new hnew]

theorem get?_insert (r : IndexedRegistry) (f : UserFunction) (name : String) :
    (r.insert f).2.get? name = if f.name = name then some f else r.get? name := by
  rw [← get?_toRegistry, toRegistry_insert, Registry.get?_insert, get?_toRegistry]

theorem names_insert (r : IndexedRegistry) (f : UserFunction) :
    (r.insert f).2.names = if f.name ∈ r.names then r.names else r.names ++ [f.name] := by
  obtain ⟨i, hi, hname, -, hiter⟩ | ⟨hnew, -, hiter⟩ := r.insert_cases f
  · have hi' : i < r.names.length := r.length_names ▸ hi
    have hsame : r.names[i] = f.name := (List.getElem_map _).trans hname
    rw [if_pos (hsame ▸ List.getElem_mem hi'), names, hiter, List.map_set, ← hsame]
    exact List.set_getElem_self hi'
  · rw [if_neg hnew, names, hiter, List.map_append, List.map_singleton, ← names]

/-- Where a function of the name stands, the inserted one comes to stand, and no other function
moves. -/
theorem iter_insert (h : r.iter[i]? = some g) :
    (r.insert f).2.iter[i]? = some (if g.name = f.name then f else g) := by
  obtain ⟨hlt, rfl⟩ := List.getElem?_eq_some_iff.mp h
  obtain ⟨j, hj, hname, -, hiter⟩ | ⟨hnew, -, hiter⟩ := r.insert_cases f
  · rw [hiter, List.getElem?_set]
    by_cases hji : j = i
    · subst hji
      rw [if_pos rfl, if_pos hlt, if_pos hname]
    · have hother : r.iter[i].name ≠ f.name := by
        intro hsame
        have hnames : r.names[j]? = r.names[i]? := by
          rw [names, List.getElem?_map, List.getElem?_map, List.getElem?_eq_getElem hj, h,
            Option.map_some, Option.map_some, hname, hsame]
        exact hji ((List.getElem?_inj (r.length_names ▸ hj) r.names_nodup).mp hnames)
      rw [if_neg hji, if_neg hother, h]
  · have hother : r.iter[i].name ≠ f.name := fun hsame =>
      hnew (List.mem_map.mpr ⟨r.iter[i], List.getElem_mem hlt, hsame⟩)
    rw [hiter, List.getElem?_append_left hlt, h, if_neg hother]

/-- Inserting changes one entry at most. -/
theorem inserted (r : IndexedRegistry) (f : UserFunction) :
    Inserted f r.answers (r.insert f).2.answers where
  found := by
    show (r.insert f).2.get? f.name = some f
    rw [get?_insert, if_pos rfl]
  others name hname := by
    show (r.insert f).2.get? name = r.get? name
    rw [get?_insert, if_neg (Ne.symm hname)]
  places _ _ h := iter_insert h
  names := r.names_insert f

/-! ### One function after another -/

theorem after_concat (fs : List UserFunction) (f : UserFunction) :
    after (fs ++ [f]) = ((after fs).insert f).2 := List.foldl_concat _ _ f fs

theorem toRegistry_after (fs : List UserFunction) :
    (after fs).toRegistry = fs.foldl Registry.insert .empty := by
  induction fs using List.reverseRecOn with
  | nil => rfl
  | append_singleton fs f ih => rw [after_concat, toRegistry_insert, ih, List.foldl_concat]

theorem mem_names_after (fs : List UserFunction) (name : String) :
    name ∈ (after fs).names ↔ ∃ f ∈ fs, f.name = name := by
  induction fs using List.reverseRecOn with
  | nil => simp [after, empty, names, iter]
  | append_singleton fs f ih =>
      have hgrown : name ∈ (after (fs ++ [f])).names ↔ name ∈ (after fs).names ∨ f.name = name := by
        rw [after_concat, names_insert]
        split
        next hold => exact ⟨.inl, fun h => h.elim id fun hname => hname ▸ hold⟩
        next => rw [List.mem_append, List.mem_singleton, eq_comm]
      rw [hgrown, ih]
      simp only [List.mem_append, List.mem_singleton, or_and_right, exists_or, exists_eq_left]

/-- A new name comes after those that there are, and these came when they did. -/
theorem order_after (fs : List UserFunction) :
    (after fs).names.Pairwise fun name name' =>
      (fs.map (·.name)).idxOf name < (fs.map (·.name)).idxOf name' := by
  induction fs using List.reverseRecOn with
  | nil => exact List.Pairwise.nil
  | append_singleton fs f ih =>
      have hcame : ∀ name ∈ (after fs).names, name ∈ fs.map (·.name) := fun name hname =>
        List.mem_map.mpr ((mem_names_after fs name).mp hname)
      have hold : (after fs).names.Pairwise fun name name' =>
          ((fs ++ [f]).map (·.name)).idxOf name < ((fs ++ [f]).map (·.name)).idxOf name' := by
        refine ih.imp_of_mem fun hname hname' hlt => ?_
        rw [List.map_append, List.idxOf_append_of_mem (hcame _ hname),
          List.idxOf_append_of_mem (hcame _ hname')]
        exact hlt
      rw [after_concat, names_insert]
      split
      next => exact hold
      next hnew =>
        refine List.pairwise_append.mpr ⟨hold, List.pairwise_singleton _ _, ?_⟩
        intro name hname name' hname'
        obtain rfl := List.mem_singleton.mp hname'
        have hfresh : f.name ∉ fs.map (·.name) := fun hmem =>
          hnew ((mem_names_after fs _).mpr (List.mem_map.mp hmem))
        rw [List.map_append, List.idxOf_append_of_mem (hcame _ hname), List.idxOf_append,
          if_neg hfresh]
        exact Nat.lt_add_left _ (List.idxOf_lt_length_of_mem (hcame _ hname))

theorem get?_after (fs : List UserFunction) (name : String) :
    (after fs).get? name = fs.reverse.find? fun f => f.name == name := by
  induction fs using List.reverseRecOn with
  | nil => exact get?_eq_none.mpr List.not_mem_nil
  | append_singleton fs f ih =>
      rw [after_concat, get?_insert, ih, List.reverse_concat]
      by_cases hname : f.name = name <;> simp [hname]

theorem size_after (fs : List UserFunction) :
    (after fs).size = (fs.map (·.name)).toFinset.card := by
  have hsame : (after fs).names.toFinset = (fs.map (·.name)).toFinset := by
    ext name
    rw [List.mem_toFinset, List.mem_toFinset, mem_names_after, List.mem_map]
  rw [← hsame, List.toFinset_card_of_nodup (names_nodup _), length_names]
  rfl

/-- **A registry refines a map that remembers in which order its names came.** -/
theorem refines_ordered_map (fs : List UserFunction) :
    OrderedMap fs (after fs).answers ∧
      (fs.foldl Registry.insert .empty).answers = (after fs).answers ∧
      ∀ f, ((after fs).insert f).1 = (after fs).get? f.name ∧
        Inserted f (after fs).answers ((after fs).insert f).2.answers := by
  refine ⟨⟨mem_names_after fs, names_nodup _, order_after fs, size_after fs, get?_after fs,
    fun name => ?_, iter_eq_get? _⟩, ?_, fun f => ⟨fst_insert _ f, inserted _ f⟩⟩
  · exact contains_iff_mem_names.trans (mem_names_after fs name)
  · rw [← toRegistry_after, answers_toRegistry]

end IndexedRegistry

end FormulaPlot
