/-
The user functions of a document, with an index of their names.

The functions stand in a row, and a map gives the place of each name in it, so that a function
is found without a search.  The two have to stay in step: the map gives a place to a name just
when the function at that place has the name.  This is a field of the registry, so each of its
operations says how it is kept, and no place has to be checked against the length of the row.

A registry without an index is what the functions are looked up in elsewhere.  It is the row
alone.
-/
import Mathlib.Data.List.Forall2
import FormulaPlot.Registry

namespace FormulaPlot

/-- The map gives a place to a name just when the function at that place has the name. -/
def InStep (functions : Array UserFunction) (places : Std.HashMap String Nat) : Prop :=
  ∀ (name : String) (i : Nat),
    places[name]? = some i ↔ ∃ f : UserFunction, functions[i]? = some f ∧ f.name = name

namespace InStep

variable {functions : Array UserFunction} {places : Std.HashMap String Nat} {f : UserFunction}
  {name : String} {i : Nat}

theorem empty : InStep #[] {} := by simp [InStep]

/-- A place that the map gives is in the row. -/
theorem lt_size (h : InStep functions places) (hi : places[name]? = some i) :
    i < functions.size := by
  obtain ⟨f, hf, -⟩ := (h name i).mp hi
  exact (Array.getElem?_eq_some_iff.mp hf).1

/-- A name that the map does not know is new. -/
theorem new (h : InStep functions places) (hname : places[name]? = none)
    (hf : functions[i]? = some f) : f.name ≠ name := by
  intro heq
  rw [(h name i).mpr ⟨f, hf, heq⟩] at hname
  cases hname

/-- A function of the same name can be put in the place of one. -/
theorem set (h : InStep functions places) (hi : i < functions.size)
    (hname : functions[i].name = f.name) : InStep (functions.set i f) places := by
  intro name j
  rw [h name j, Array.getElem?_set]
  by_cases hij : i = j
  · subst hij
    simp [hi, hname]
  · rw [if_neg hij]

/-- A function with a new name can be put at the end. -/
theorem push (h : InStep functions places) (hnew : places[f.name]? = none) :
    InStep (functions.push f) (places.insert f.name functions.size) := by
  intro name j
  rw [Std.HashMap.getElem?_insert, Array.getElem?_push]
  by_cases hend : j = functions.size
  · subst hend
    by_cases hname : f.name = name
    · simp [hname]
    · have hno : places[name]? ≠ some functions.size := fun hi =>
        absurd (h.lt_size hi) (Nat.lt_irrefl _)
      simp [hname, hno]
  · rw [if_neg hend, ← h name j]
    by_cases hname : f.name = name
    · subst hname
      simp [hnew, Ne.symm hend]
    · simp [hname]

end InStep

/-- User functions in the order in which they were defined, and the places of their names. -/
structure IndexedRegistry where
  functions : Array UserFunction
  places : Std.HashMap String Nat
  inStep : InStep functions places

namespace IndexedRegistry

/-- The registry without functions. -/
def empty : IndexedRegistry := ⟨#[], {}, .empty⟩

/-- The place of a name. -/
def place? (r : IndexedRegistry) (name : String) : Option (Fin r.functions.size) :=
  match h : r.places[name]? with
  | some i => some ⟨i, r.inStep.lt_size h⟩
  | none => none

/-- The function of a name. -/
def get? (r : IndexedRegistry) (name : String) : Option UserFunction :=
  (r.place? name).map fun i => r.functions[i]

/-- Some function has the name. -/
def contains (r : IndexedRegistry) (name : String) : Bool := r.places.contains name

/-- The functions, in order. -/
def iter (r : IndexedRegistry) : List UserFunction := r.functions.toList

/-- The names of the functions, in order. -/
def names (r : IndexedRegistry) : List String := r.iter.map (·.name)

/-- The number of functions. -/
def size (r : IndexedRegistry) : Nat := r.functions.size

/-- The registry without its index. -/
def toRegistry (r : IndexedRegistry) : Registry := ⟨r.iter⟩

variable {r : IndexedRegistry} {f : UserFunction} {name : String}

theorem place?_eq_some {i : Fin r.functions.size} :
    r.place? name = some i ↔ r.functions[i].name = name := by
  have hplace : r.place? name = some i ↔ r.places[name]? = some i.val := by
    unfold place?
    split
    next j hj => simp only [hj, Option.some_inj, Fin.ext_iff]
    next hnone => simp [hnone]
  rw [hplace, r.inStep name i]
  simp

theorem places_eq_none (h : r.place? name = none) : r.places[name]? = none := by
  unfold place? at h
  split at h
  · cases h
  · assumption

/-- Puts a function in the place of one of the same name. -/
def replace (r : IndexedRegistry) (i : Fin r.functions.size) (f : UserFunction)
    (h : r.functions[i].name = f.name) : IndexedRegistry :=
  ⟨r.functions.set i f, r.places, r.inStep.set i.isLt h⟩

/-- Puts a function with a new name at the end. -/
def append (r : IndexedRegistry) (f : UserFunction) (h : r.places[f.name]? = none) :
    IndexedRegistry :=
  ⟨r.functions.push f, r.places.insert f.name r.functions.size, r.inStep.push h⟩

/-- Adds a function, in the place of the one of the same name if there is one.  That one is
given back. -/
def insert (r : IndexedRegistry) (f : UserFunction) : Option UserFunction × IndexedRegistry :=
  match h : r.place? f.name with
  | some i => (some r.functions[i], r.replace i f (place?_eq_some.mp h))
  | none => (none, r.append f (places_eq_none h))

/-- The registry after functions were added one after another. -/
def after (fs : List UserFunction) : IndexedRegistry :=
  fs.foldl (fun r f => (r.insert f).2) empty

end IndexedRegistry

end FormulaPlot
