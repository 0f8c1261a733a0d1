/-
The user functions of a document.

A registry keeps its functions in the order in which their names first appeared.
Replacing a function leaves it where it stands.
-/
import FormulaPlot.Expr.Basic

namespace FormulaPlot

/-- User functions in the order in which they were defined. -/
structure Registry where
  functions : List UserFunction

namespace Registry

/-- The registry without functions. -/
def empty : Registry := ⟨[]⟩

/-- The function of a name. -/
def get? (r : Registry) (name : String) : Option UserFunction :=
  r.functions.find? fun f => f.name == name

/-- Some function has the name. -/
def contains (r : Registry) (name : String) : Bool := (r.get? name).isSome

/-- The names of the functions, in order. -/
def names (r : Registry) : List String := r.functions.map (·.name)

/-- The number of functions. -/
def size (r : Registry) : Nat := r.functions.length

/-- Puts a function in the place of the first one of its name, or at the end. -/
def place (f : UserFunction) : List UserFunction → List UserFunction
  | [] => [f]
  | g :: gs => if g.name == f.name then f :: gs else g :: place f gs

/-- Adds a function, in the place of the one of the same name if there is one. -/
def insert (r : Registry) (f : UserFunction) : Registry := ⟨place f r.functions⟩

/-! ### What inserting changes -/

@[simp] theorem get?_empty (name : String) : empty.get? name = none := rfl

/-- An inserted function is found under its name, and nothing else changes. -/
theorem get?_insert (r : Registry) (f : UserFunction) (name : String) :
    (r.insert f).get? name = if f.name = name then some f else r.get? name := by
  obtain ⟨functions⟩ := r
  simp only [insert, get?]
  induction functions with
  | nil => by_cases h : f.name = name <;> simp [place, h]
  | cons g gs ih =>
    by_cases hg : g.name = f.name
    · by_cases h : f.name = name <;> simp [place, hg, h]
    · by_cases h : g.name = name
      · have hne : f.name ≠ name := fun h' => hg (h.trans h'.symm)
        rw [place, if_neg (by simpa using hg)]
        simp [h, hne]
      · have hb : (g.name == name) = false := by simpa using h
        rw [place, if_neg (by simpa using hg), List.find?_cons, List.find?_cons, hb]
        exact ih

end Registry

end FormulaPlot
