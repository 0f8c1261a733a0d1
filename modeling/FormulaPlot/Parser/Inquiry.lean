/-
Readings that ask for functions.

Whether a formula can be read depends on the user functions it calls, and inside a
block of definitions a call may have to wait until the called function has been read
itself.  The parser does not know who answers.  Its result is an `Inquiry`: either it
is finished, or it asks for a function by name and goes on with the answer.  A single
formula puts its questions to a registry; a block of definitions keeps track of what
it has read so far while it answers.
-/
import FormulaPlot.Parser.Error
import FormulaPlot.Registry

namespace FormulaPlot

/-- What is known about a function that a formula calls. -/
inductive Answer where
  | found (f : UserFunction)
  /-- Its definition has errors. -/
  | invalid
  /-- Its definition is still being read, so the call refers back to itself. -/
  | recursive
  | missing

/-- A reading that ends in a value or a fault, and asks for functions on the way. -/
inductive Inquiry (α : Type) where
  | done (result : Except Fault α)
  | ask (name : String) (next : Answer → Inquiry α)

namespace Inquiry

variable {α β : Type}

/-- Goes on with the value of a reading; a fault ends it. -/
def bind : Inquiry α → (α → Inquiry β) → Inquiry β
  | done (.ok a), f => f a
  | done (.error e), _ => done (.error e)
  | ask name next, f => ask name fun answer => (next answer).bind f

instance : Monad Inquiry where
  pure a := done (.ok a)
  bind := bind

/-- The reading that fails. -/
def fail (fault : Fault) : Inquiry α := done (.error fault)

/-- Asks for a function. -/
def request (name : String) : Inquiry Answer := ask name fun answer => pure answer

/-- The outcome of a reading whose questions are answered one by one from a state that
the answers may change. -/
def run {σ : Type} (answer : String → σ → Answer × σ) :
    Inquiry α → σ → Except Fault α × σ
  | done result, s => (result, s)
  | ask name next, s => (next (answer name s).1).run answer (answer name s).2

/-- The outcome of a reading against a registry. -/
def against (r : Registry) : Inquiry α → Except Fault α
  | done result => result
  | ask name next =>
    match r.get? name with
    | some f => (next (.found f)).against r
    | none => (next .missing).against r

/-! ### Readings one after the other

Whoever answers, a reading that goes on with another one has the outcome of the first,
followed by the outcome of the second if the first did not fail.
-/

theorem bind_def (m : Inquiry α) (f : α → Inquiry β) : m >>= f = m.bind f := rfl

theorem bind_pure (m : Inquiry α) : m.bind pure = m := by
  induction m with
  | done result => cases result <;> rfl
  | ask name next ih => simp only [bind, ih]

theorem bind_assoc {γ : Type} (m : Inquiry α) (f : α → Inquiry β) (g : β → Inquiry γ) :
    (m.bind f).bind g = m.bind fun a => (f a).bind g := by
  induction m with
  | done result => cases result <;> rfl
  | ask name next ih => simp only [bind, ih]

instance : LawfulMonad Inquiry :=
  LawfulMonad.mk' Inquiry bind_pure (fun _ _ => rfl) bind_assoc

@[simp] theorem against_pure (r : Registry) (a : α) : (pure a : Inquiry α).against r = .ok a := rfl

@[simp] theorem against_fail (r : Registry) (fault : Fault) :
    (fail fault : Inquiry α).against r = .error fault := rfl

/-- Answering from one registry, a computation is the sequence of its parts. -/
@[simp] theorem against_bind (r : Registry) (m : Inquiry α) (f : α → Inquiry β) :
    (m >>= f).against r = m.against r >>= fun a => (f a).against r := by
  rw [bind_def]
  induction m with
  | done result => cases result <;> rfl
  | ask name next ih =>
    simp only [bind, against]
    split <;> exact ih _

/-- Answering with a memory, the second part meets the memory that the first left. -/
theorem run_bind {σ : Type} (answer : String → σ → Answer × σ) (m : Inquiry α) (f : α → Inquiry β)
    (s : σ) : (m >>= f).run answer s =
      match m.run answer s with
      | (.ok a, s) => (f a).run answer s
      | (.error fault, s) => (.error fault, s) := by
  rw [bind_def]
  induction m generalizing s with
  | done result => cases result <;> rfl
  | ask name next ih => simp only [bind, run, ih]

end Inquiry

end FormulaPlot
