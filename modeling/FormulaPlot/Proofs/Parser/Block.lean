/-
What a block of definitions means.

The bodies of a block are read in an order that depends on who calls whom, and a body is
read while the registry is still growing.  The result does not show it: in the end a
definition is in the registry exactly if its body can be read against the registry, as if
all functions had been there from the start.

While a body is being read, what it is told about its callees has to hold in the end.  A
function that was found stays.  For the other answers the argument is about which names
can still be defined: those that failed cannot, and those that wait cannot either as far
as the present body is concerned.  For a body that gets no function fails, its caller
then fails as well, and so does everything that waits.  That is why a reading that ends
with a function has seen no failure at all, and why `Allows`, the registries that may
still come out, excludes both kinds of names.
-/
import Mathlib
import FormulaPlot.Proofs.Expr.Equivalence
import FormulaPlot.Proofs.Parser.Header
import FormulaPlot.Proofs.Parser.Similarity

namespace FormulaPlot

/-- The same trees, in any places. -/
def Similarity.moved : Similarity where
  expr := Eq
  column _ _ := True
  column_one := trivial
  const _ := rfl
  var _ := rfl
  unary _ _ _ h := by rw [h]
  binary _ _ _ _ _ h h' := by rw [h, h']
  apply _ _ _ h := by rw [List.forall₂_eq_eq_eq] at h; rw [h]
  call _ _ _ _ _ _ h hs := by rw [List.forall₂_eq_eq_eq] at hs; rw [h, hs]
  ternary h h' h'' := by rw [h, h', h'']
  limit h h' := by rw [h, h']

namespace Parser

open Similarity

theorem moved_refl (f : UserFunction) : moved.Function f f := ⟨rfl, rfl, rfl⟩

theorem moved_tokens {ts us : List Token} (h : kinds ts = kinds us) : moved.Tokens ts us := by
  induction ts generalizing us with
  | nil =>
      obtain rfl := List.map_eq_nil_iff.mp h.symm
      exact .nil
  | cons t ts ih =>
      obtain ⟨u, us, rfl, hu, hus⟩ := List.map_eq_cons_iff.mp h.symm
      exact .cons ⟨hu.symm, trivial⟩ (ih hus.symm)

/-- The same tokens at other places are read as the same tree. -/
theorem topLevel_moved (names : List String) (r : Registry) {ts us : List Token}
    (h : kinds ts = kinds us) :
    moved.Outcome Eq ((topLevel names ts).against r) ((topLevel names us).against r) := by
  refine (topLevel_related moved names (moved_tokens h)).against fun name => ?_
  cases r.get? name with
  | none => exact .none
  | some f => exact .some (moved_refl f)

/-! ### Registries that grow -/

variable {definitions : List Definition} {finish : Expr → Expr} {p q : Progress}

/-- Functions stay, and only definitions of the block are added. -/
structure Grows (definitions : List Definition) (r r' : Registry) : Prop where
  keeps : ∀ name f, r.get? name = some f → r'.get? name = some f
  adds : ∀ name f, r'.get? name = some f →
    r.get? name = some f ∨ ∃ d ∈ definitions, d.name = name

theorem grows_refl (r : Registry) : Grows definitions r r :=
  ⟨fun _ _ h => h, fun _ _ h => .inl h⟩

theorem Grows.trans {r r' r'' : Registry} (h : Grows definitions r r')
    (h' : Grows definitions r' r'') : Grows definitions r r'' := by
  refine ⟨fun name f hf => h'.keeps name f (h.keeps name f hf), fun name f hf => ?_⟩
  rcases h'.adds name f hf with hf | hd
  · exact h.adds name f hf
  · exact .inr hd

/-- The definition can be added under a name that is free. -/
theorem grows_insert {r : Registry} {d : Definition} (hd : d ∈ definitions) {f : UserFunction}
    (hf : f.name = d.name) (hfree : r.get? d.name = none) : Grows definitions r (r.insert f) := by
  refine ⟨fun name g hg => ?_, fun name g hg => ?_⟩
  · rw [Registry.get?_insert, if_neg]
    · exact hg
    · intro heq
      rw [← heq, hf, hfree] at hg
      cases hg
  · rw [Registry.get?_insert] at hg
    by_cases heq : f.name = name
    · exact .inr ⟨d, hd, hf ▸ heq⟩
    · rw [if_neg heq] at hg
      exact .inl hg

/-- The registry may still come out: the names that failed or wait stay without a function. -/
structure Allows (definitions : List Definition) (p : Progress) (r : Registry) : Prop where
  grows : Grows definitions p.registry r
  absent : ∀ name, name ∈ p.failed ∨ name ∈ p.waiting → r.get? name = none

/-- The second progress comes after the first, with the same definitions waiting. -/
structure Later (definitions : List Definition) (p q : Progress) : Prop where
  registry : Grows definitions p.registry q.registry
  waiting : q.waiting = p.waiting
  failed : ∀ name ∈ p.failed, name ∈ q.failed
  errors : ∀ e ∈ p.errors, e ∈ q.errors

theorem later_refl (p : Progress) : Later definitions p p :=
  ⟨grows_refl _, rfl, fun _ h => h, fun _ h => h⟩

theorem Later.trans {p₁ p₂ p₃ : Progress} (h : Later definitions p₁ p₂)
    (h' : Later definitions p₂ p₃) : Later definitions p₁ p₃ :=
  ⟨h.registry.trans h'.registry, h'.waiting.trans h.waiting,
    fun name hname => h'.failed name (h.failed name hname),
    fun e he => h'.errors e (h.errors e he)⟩

/-- What may come out later may come out now. -/
theorem Later.allows (h : Later definitions p q) {r : Registry} (hr : Allows definitions q r) :
    Allows definitions p r := by
  refine ⟨h.registry.trans hr.grows, fun name hname => hr.absent name ?_⟩
  rcases hname with hname | hname
  · exact .inl (h.failed name hname)
  · exact .inr (h.waiting ▸ hname)

/-! ### The invariant -/

/-- The fault is what the body of the definition gives against the registry, or it says that
a function is missing which the registry does not have. -/
def Rejected (r : Registry) (d : Definition) (fault : Fault) : Prop :=
  ∃ own, (topLevel d.params d.body).against r = .error own ∧ (own = fault ∨
    ∃ name answer, r.get? name = none ∧ Answer.cause? name answer = some fault.cause)

/-- What is known so far agrees with every registry that may still come out. -/
structure Sound (definitions : List Definition) (finish : Expr → Expr) (p : Progress) :
    Prop where
  /-- What is defined can be read against the registry. -/
  defined : ∀ d ∈ definitions, ∀ f, p.registry.get? d.name = some f →
    ∃ e, (topLevel d.params d.body).against p.registry = .ok e ∧ f = ⟨d.name, d.params, finish e⟩
  /-- What failed was reported, and cannot be read whatever may still come out. -/
  rejected : ∀ d ∈ definitions, d.name ∈ p.failed →
    ∃ fault, .ofFault d.name d.line fault ∈ p.errors ∧
      ∀ r, Allows definitions p r → Rejected r d fault
  absent : ∀ name, name ∈ p.failed ∨ name ∈ p.waiting → p.registry.get? name = none
  distinct : p.waiting.Nodup
  waiting : ∀ name ∈ p.waiting, name ∈ definitions.map Definition.name

/-- The present registry is one of those that may come out. -/
theorem Sound.allows (h : Sound definitions finish p) : Allows definitions p p.registry :=
  ⟨grows_refl _, h.absent⟩

/-- The name has no function, and none is to come. -/
structure Unknown (definitions : List Definition) (p : Progress) (name : String) : Prop where
  absent : p.registry.get? name = none
  never : name ∈ p.failed ∨ name ∈ p.waiting ∨ name ∉ definitions.map Definition.name

theorem Unknown.get? {name : String} (h : Unknown definitions p name) {r : Registry}
    (hr : Allows definitions p r) : r.get? name = none := by
  rcases h.never with hname | hname | hname
  · exact hr.absent name (.inl hname)
  · exact hr.absent name (.inr hname)
  · cases hget : r.get? name with
    | none => rfl
    | some f =>
        rcases hr.grows.adds name f hget with hget | ⟨d, hd, rfl⟩
        · rw [h.absent] at hget
          cases hget
        · exact absurd (List.mem_map_of_mem hd) hname

/-- An answer about a function, and the progress after it: a function that was found is there
and nothing failed on the way to it, and otherwise there is none to come. -/
inductive Answered (definitions : List Definition) (finish : Expr → Expr) (name : String)
    (p : Progress) : Answer × Progress → Prop
  | found {f : UserFunction} {q : Progress} (hsound : Sound definitions finish q)
      (hlater : Later definitions p q) (hget : q.registry.get? name = some f)
      (hfailed : q.failed = p.failed) : Answered definitions finish name p (.found f, q)
  | unknown {answer : Answer} {cause : Cause} {q : Progress}
      (hcause : answer.cause? name = some cause) (hsound : Sound definitions finish q)
      (hlater : Later definitions p q) (hname : Unknown definitions q name) :
      Answered definitions finish name p (answer, q)

theorem Answered.later {name : String} {x : Answer × Progress}
    (h : Answered definitions finish name p x) :
    Sound definitions finish x.2 ∧ Later definitions p x.2 := by
  cases h with
  | found hsound hlater => exact ⟨hsound, hlater⟩
  | unknown _ hsound hlater => exact ⟨hsound, hlater⟩

/-! ### Reading a body -/

/-- What a reading came to, and the progress after it. -/
inductive Came (definitions : List Definition) (finish : Expr → Expr) {α : Type} (m : Inquiry α)
    (p : Progress) : Except Fault α × Progress → Prop
  | ok {a : α} {q : Progress} (hsound : Sound definitions finish q)
      (hlater : Later definitions p q) (hread : m.against q.registry = .ok a)
      (hfailed : q.failed = p.failed) : Came definitions finish m p (.ok a, q)
  | error {fault : Fault} {q : Progress} (hsound : Sound definitions finish q)
      (hlater : Later definitions p q)
      (hread : ∀ r, Allows definitions q r → ∃ own, m.against r = .error own ∧ (own = fault ∨
        ∃ name answer, r.get? name = none ∧ Answer.cause? name answer = some fault.cause)) :
      Came definitions finish m p (.error fault, q)

theorem Came.later {α : Type} {m : Inquiry α} {x : Except Fault α × Progress}
    (h : Came definitions finish m p x) : Later definitions p x.2 := by
  cases h with
  | ok _ hlater => exact hlater
  | error _ hlater => exact hlater

/-- Whatever a reading is told on the way holds in the end. -/
theorem came_run {answer : String → Progress → Answer × Progress} {waiting : List String}
    (hanswer : ∀ name p, Sound definitions finish p → p.waiting = waiting →
      Answered definitions finish name p (answer name p))
    {α β : Type} {A : α → β → Prop} {m : Inquiry α} {m' : Inquiry β} (hm : moved.Related A m m')
    {p : Progress} (hp : Sound definitions finish p) (hwaiting : p.waiting = waiting) :
    Came definitions finish m p (m.run answer p) := by
  induction hm generalizing p with
  | @done x y h =>
      cases x with
      | ok a => exact .ok hp (later_refl p) rfl rfl
      | error fault => exact .error hp (later_refl p) fun r _ => ⟨fault, rfl, .inl rfl⟩
  | @ask name next next' _ other ih =>
      have hname := hanswer name p hp hwaiting
      unfold Inquiry.run
      revert hname
      generalize answer name p = x
      intro hname
      cases hname with
      | @found f q hq hlater hget hfailed =>
          have hrest := ih f f (moved_refl f) hq (hlater.waiting.trans hwaiting)
          revert hrest
          generalize (next (.found f)).run answer q = y
          intro hrest
          cases hrest with
          | @ok a q' hq' hlater' hread hfailed' =>
              refine .ok hq' (hlater.trans hlater') ?_ (hfailed'.trans hfailed)
              unfold Inquiry.against
              rw [hlater'.registry.keeps name f hget]
              exact hread
          | @error fault q' hq' hlater' hread =>
              refine .error hq' (hlater.trans hlater') fun r hr => ?_
              unfold Inquiry.against
              rw [hr.grows.keeps name f (hlater'.registry.keeps name f hget)]
              exact hread r hr
      | @unknown a cause q hcause hq hlater hunknown =>
          obtain ⟨x, _, -, hnext, -⟩ := other a cause hcause
          obtain ⟨x', _, -, hmissing, -⟩ := other .missing _ rfl
          dsimp only
          rw [hnext]
          refine .error hq hlater fun r hr => ⟨⟨.unknownFunction name, x'⟩, ?_, .inr ?_⟩
          · unfold Inquiry.against
            rw [hunknown.get? hr]
            dsimp only
            rw [hmissing]
            rfl
          · exact ⟨name, a, hunknown.get? hr, hcause⟩

/-! ### Looking up and defining -/

/-- The way to define functions while these names wait answers as it should. -/
def Defines (definitions : List Definition) (finish : Expr → Expr) (waiting : List String)
    (define : Definition → Progress → Answer × Progress) : Prop :=
  ∀ d ∈ definitions, ∀ p, Sound definitions finish p → p.waiting = waiting →
    d.name ∉ p.waiting → d.name ∉ p.failed → p.registry.get? d.name = none →
    Answered definitions finish d.name p (define d p)

/-- What it comes to when a name is looked up. -/
inductive Looked (definitions : List Definition)
    (define : Definition → Progress → Answer × Progress) (name : String) (p : Progress) :
    Answer × Progress → Prop
  | found {f : UserFunction} (hget : p.registry.get? name = some f) :
      Looked definitions define name p (.found f, p)
  | missing (hget : p.registry.get? name = none) (hno : name ∉ definitions.map Definition.name) :
      Looked definitions define name p (.missing, p)
  | recursive (hget : p.registry.get? name = none) (hmem : name ∈ definitions.map Definition.name)
      (hwait : name ∈ p.waiting) : Looked definitions define name p (.recursive, p)
  | invalid (hget : p.registry.get? name = none) (hmem : name ∈ definitions.map Definition.name)
      (hwait : name ∉ p.waiting) (hfail : name ∈ p.failed) :
      Looked definitions define name p (.invalid, p)
  | define {d : Definition} (hget : p.registry.get? name = none) (hd : d ∈ definitions)
      (hname : d.name = name) (hwait : name ∉ p.waiting) (hfail : name ∉ p.failed) :
      Looked definitions define name p (define d p)

theorem looked (definitions : List Definition)
    (define : Definition → Progress → Answer × Progress) (name : String) (p : Progress) :
    Looked definitions define name p (lookup definitions define name p) := by
  unfold lookup
  cases hget : p.registry.get? name with
  | some f => exact .found hget
  | none =>
      cases hfind : definitions.find? (·.name == name) with
      | none =>
          refine .missing hget fun hmem => ?_
          obtain ⟨d, hd, hname⟩ := List.mem_map.mp hmem
          exact List.find?_eq_none.mp hfind d hd (beq_iff_eq.mpr hname)
      | some d =>
          have hd : d ∈ definitions := List.mem_of_find?_eq_some hfind
          have hname : d.name = name := by simpa using List.find?_some hfind
          have hmem : name ∈ definitions.map Definition.name := hname ▸ List.mem_map_of_mem hd
          dsimp only
          by_cases hwait : name ∈ p.waiting
          · rw [if_pos hwait]
            exact .recursive hget hmem hwait
          · rw [if_neg hwait]
            by_cases hfail : name ∈ p.failed
            · rw [if_pos hfail]
              exact .invalid hget hmem hwait hfail
            · rw [if_neg hfail]
              exact .define hget hd hname hwait hfail

theorem lookup_answered {define : Definition → Progress → Answer × Progress}
    {waiting : List String} (hdefine : Defines definitions finish waiting define) (name : String)
    {p : Progress} (hp : Sound definitions finish p) (hwaiting : p.waiting = waiting) :
    Answered definitions finish name p (lookup definitions define name p) := by
  have hlooked := looked definitions define name p
  generalize lookup definitions define name p = x at hlooked ⊢
  cases hlooked with
  | found hget => exact .found hp (later_refl p) hget rfl
  | missing hget hno => exact .unknown rfl hp (later_refl p) ⟨hget, .inr (.inr hno)⟩
  | recursive hget _ hwait => exact .unknown rfl hp (later_refl p) ⟨hget, .inr (.inl hwait)⟩
  | invalid hget _ _ hfail => exact .unknown rfl hp (later_refl p) ⟨hget, .inl hfail⟩
  | define hget hd hname hwait hfail =>
      subst hname
      exact hdefine _ hd p hp hwaiting hwait hfail hget

/-- The definition starts to be read. -/
theorem Sound.enter (h : Sound definitions finish p) {d : Definition} (hd : d ∈ definitions)
    (hwait : d.name ∉ p.waiting) (hget : p.registry.get? d.name = none) :
    Sound definitions finish { p with waiting := d.name :: p.waiting } := by
  refine ⟨h.defined, fun d' hd' hfail => ?_, fun name hname => ?_, ?_, fun name hname => ?_⟩
  · obtain ⟨fault, herror, hrejected⟩ := h.rejected d' hd' hfail
    refine ⟨fault, herror, fun r hr => hrejected r ⟨hr.grows, fun name hname => ?_⟩⟩
    exact hr.absent name (hname.imp_right (List.mem_cons_of_mem _))
  · rcases hname with hname | hname
    · exact h.absent name (.inl hname)
    · rcases List.mem_cons.mp hname with rfl | hname
      · exact hget
      · exact h.absent name (.inr hname)
  · exact List.nodup_cons.mpr ⟨hwait, h.distinct⟩
  · rcases List.mem_cons.mp hname with rfl | hname
    · exact List.mem_map_of_mem hd
    · exact h.waiting name hname

/-- While a body is read, its definition and those that wait for it have no function. -/
theorem Sound.absent_entered {d : Definition} {after : Progress}
    (h : Sound definitions finish after)
    (hlater : Later definitions { p with waiting := d.name :: p.waiting } after) :
    after.registry.get? d.name = none ∧
      ∀ name, name ∈ after.failed ∨ name ∈ p.waiting → after.registry.get? name = none := by
  have hwaiting : after.waiting = d.name :: p.waiting := hlater.waiting
  refine ⟨h.absent d.name (.inr ?_), fun name hname => h.absent name ?_⟩
  · rw [hwaiting]
    exact List.mem_cons_self
  · rw [hwaiting]
    exact hname.imp_right (List.mem_cons_of_mem _)

/-- With one more function, what is defined can be read as before, and so can that function. -/
theorem Sound.defined_insert (h : Sound definitions finish p)
    (hnames : (definitions.map Definition.name).Nodup) {d : Definition} (hd : d ∈ definitions)
    {body : Expr} (hread : (topLevel d.params d.body).against p.registry = .ok body)
    {r : Registry} (hr : r = p.registry.insert ⟨d.name, d.params, finish body⟩)
    (hgrows : Grows definitions p.registry r) {d' : Definition} (hd' : d' ∈ definitions)
    {f : UserFunction} (hf : r.get? d'.name = some f) :
    ∃ e, (topLevel d'.params d'.body).against r = .ok e ∧
      f = ⟨d'.name, d'.params, finish e⟩ := by
  have hmono : ∀ d : Definition, ∀ e, (topLevel d.params d.body).against p.registry = .ok e →
      (topLevel d.params d.body).against r = .ok e :=
    fun d e => (topLevel_related moved d.params (moved_tokens rfl)).against_mono moved_refl
      hgrows.keeps
  by_cases hsame : d.name = d'.name
  · rw [hr, Registry.get?_insert, if_pos hsame] at hf
    cases hf
    obtain rfl : d = d' := List.inj_on_of_nodup_map hnames hd hd' hsame
    exact ⟨body, hmono d body hread, rfl⟩
  · rw [hr, Registry.get?_insert, if_neg hsame] at hf
    obtain ⟨e, he, hf⟩ := h.defined d' hd' f hf
    exact ⟨e, hmono d' e he, hf⟩

/-- A body that was read becomes a function. -/
theorem answered_ok (hnames : (definitions.map Definition.name).Nodup) {d : Definition}
    (hd : d ∈ definitions) (hp : Sound definitions finish p) (hwait : d.name ∉ p.waiting)
    (hfail : d.name ∉ p.failed) {body : Expr} {after : Progress}
    (hafter : Sound definitions finish after)
    (hlater : Later definitions { p with waiting := d.name :: p.waiting } after)
    (hread : (topLevel d.params d.body).against after.registry = .ok body)
    (hfailed : after.failed = p.failed) :
    Answered definitions finish d.name p (.found ⟨d.name, d.params, finish body⟩,
      { after with
        registry := after.registry.insert ⟨d.name, d.params, finish body⟩
        waiting := p.waiting }) := by
  obtain ⟨hfree, habsent⟩ := hafter.absent_entered hlater
  have hgrows : Grows definitions after.registry
      (after.registry.insert ⟨d.name, d.params, finish body⟩) := grows_insert hd rfl hfree
  have hlater' : Later definitions p { after with
      registry := after.registry.insert ⟨d.name, d.params, finish body⟩
      waiting := p.waiting } :=
    ⟨hlater.registry.trans hgrows, rfl, hlater.failed, hlater.errors⟩
  refine .found ?_ hlater' ?_ hfailed
  · refine ⟨fun d' hd' f hf => ?_, fun d' hd' hfail' => ?_, fun name hname => ?_, hp.distinct,
      hp.waiting⟩
    · exact hafter.defined_insert hnames hd hread rfl hgrows hd' hf
    · -- Nothing failed while the body was read, so what failed had failed before.
      obtain ⟨fault, herror, hrejected⟩ := hp.rejected d' hd' (hfailed ▸ hfail')
      exact ⟨fault, hlater'.errors _ herror, fun r hr => hrejected r (hlater'.allows hr)⟩
    · have hother : d.name ≠ name := by
        rintro rfl
        rcases hname with hname | hname
        · exact hfail (hfailed ▸ hname)
        · exact hwait hname
      rw [Registry.get?_insert, if_neg hother]
      exact habsent name hname
  · rw [Registry.get?_insert, if_pos rfl]

/-- A definition that fails has only moved from the waiting names to those that failed. -/
theorem Later.allows_failed {d : Definition} {after : Progress} {errors : List ParseError}
    (hlater : Later definitions { p with waiting := d.name :: p.waiting } after) {r : Registry}
    (hr : Allows definitions { after with
      waiting := p.waiting
      failed := d.name :: after.failed
      errors := errors } r) : Allows definitions after r := by
  refine ⟨hr.grows, fun name hname => hr.absent name ?_⟩
  rcases hname with hname | hname
  · exact .inl (List.mem_cons_of_mem _ hname)
  · rw [hlater.waiting] at hname
    rcases List.mem_cons.mp hname with rfl | hname
    · exact .inl List.mem_cons_self
    · exact .inr hname

/-- A body that was refused is reported, and its definition has failed. -/
theorem answered_error (hnames : (definitions.map Definition.name).Nodup) {d : Definition}
    (hd : d ∈ definitions) (hp : Sound definitions finish p) {fault : Fault} {after : Progress}
    (hafter : Sound definitions finish after)
    (hlater : Later definitions { p with waiting := d.name :: p.waiting } after)
    (hread : ∀ r, Allows definitions after r → Rejected r d fault) :
    Answered definitions finish d.name p (.invalid,
      { after with
        waiting := p.waiting
        failed := d.name :: after.failed
        errors := .ofFault d.name d.line fault :: after.errors }) := by
  obtain ⟨hfree, habsent⟩ := hafter.absent_entered hlater
  refine .unknown rfl ?_ ?_ ⟨hfree, .inl List.mem_cons_self⟩
  · refine ⟨hafter.defined, fun d' hd' hfail' => ?_, fun name hname => ?_, hp.distinct,
      hp.waiting⟩
    · rcases List.mem_cons.mp hfail' with hsame | hfail'
      · obtain rfl : d' = d := List.inj_on_of_nodup_map hnames hd' hd hsame
        exact ⟨fault, List.mem_cons_self, fun r hr => hread r (hlater.allows_failed hr)⟩
      · obtain ⟨fault', herror, hrejected⟩ := hafter.rejected d' hd' hfail'
        exact ⟨fault', List.mem_cons_of_mem _ herror,
          fun r hr => hrejected r (hlater.allows_failed hr)⟩
    · rcases hname with hname | hname
      · rcases List.mem_cons.mp hname with rfl | hname
        · exact hfree
        · exact habsent name (.inl hname)
      · exact habsent name (.inr hname)
  · exact ⟨hlater.registry, rfl,
      fun name hname => List.mem_cons_of_mem _ (hlater.failed name hname),
      fun e he => List.mem_cons_of_mem _ (hlater.errors e he)⟩

/-- There is fuel left as long as a definition does not wait yet. -/
theorem length_waiting_lt (hp : Sound definitions finish p) {d : Definition}
    (hd : d ∈ definitions) (hwait : d.name ∉ p.waiting) :
    p.waiting.length < definitions.length := by
  have hdistinct : (d.name :: p.waiting).Nodup := List.nodup_cons.mpr ⟨hwait, hp.distinct⟩
  have hsubset : d.name :: p.waiting ⊆ definitions.map Definition.name := by
    intro name hname
    rcases List.mem_cons.mp hname with rfl | hname
    · exact List.mem_map_of_mem hd
    · exact hp.waiting name hname
  have hlength := hdistinct.length_le_of_subset hsubset
  rwa [List.length_cons, List.length_map] at hlength

theorem define_answered (finish : Expr → Expr)
    (hnames : (definitions.map Definition.name).Nodup) (fuel : Nat)
    (waiting : List String) (hfuel : definitions.length ≤ fuel + waiting.length) :
    Defines definitions finish waiting (define finish definitions fuel) := by
  induction fuel generalizing waiting with
  | zero =>
      intro d hd p hp hwaiting hwait _ _
      have hlt := length_waiting_lt hp hd hwait
      rw [hwaiting] at hlt
      omega
  | succ fuel ih =>
      intro d hd p hp hwaiting hwait hfail hget
      have hdefine := ih (d.name :: p.waiting) (by rw [List.length_cons, hwaiting]; omega)
      have hentered := hp.enter hd hwait hget
      have hbody : moved.Related Eq (topLevel d.params d.body) (topLevel d.params d.body) :=
        topLevel_related moved d.params (moved_tokens rfl)
      have hrun := came_run (fun name q hq hw => lookup_answered hdefine name hq hw) hbody
        hentered rfl
      rw [define]
      revert hrun
      generalize (topLevel d.params d.body).run _ _ = x
      intro hrun
      cases hrun with
      | @ok body after hafter hlater hread hfailed =>
          exact answered_ok hnames hd hp hwait hfail hafter hlater hread hfailed
      | @error fault after hafter hlater hread =>
          exact answered_error hnames hd hp hafter hlater hread

/-! ### The whole block -/

/-- The definition has been dealt with. -/
def Settled (p : Progress) (d : Definition) : Prop :=
  (p.registry.get? d.name).isSome = true ∨ d.name ∈ p.failed

theorem Settled.later {d : Definition} (h : Settled p d) (hlater : Later definitions p q) :
    Settled q d := by
  rcases h with h | h
  · obtain ⟨f, hf⟩ := Option.isSome_iff_exists.mp h
    left
    rw [hlater.registry.keeps d.name f hf]
    rfl
  · exact .inr (hlater.failed d.name h)

/-- Reading the bodies in turn settles every definition. -/
theorem settled_foldl (hnames : (definitions.map Definition.name).Nodup) (ds : List Definition)
    (hds : ∀ d ∈ ds, d ∈ definitions) (hp : Sound definitions finish p) (hwait : p.waiting = []) :
    let q := ds.foldl (fun p d =>
      (lookup definitions (define finish definitions definitions.length) d.name p).2) p
    Sound definitions finish q ∧ Later definitions p q ∧ ∀ d ∈ ds, Settled q d := by
  induction ds generalizing p with
  | nil => exact ⟨hp, later_refl p, by simp⟩
  | cons d ds ih =>
      have hdefine := define_answered finish hnames definitions.length []
        (Nat.le_refl _)
      have hd := lookup_answered hdefine d.name hp hwait
      rw [List.foldl_cons]
      revert hd
      generalize lookup definitions (define finish definitions definitions.length) d.name p = x
      intro hd
      have hrest : ∀ q, Sound definitions finish q → Later definitions p q → Settled q d →
          let q' := ds.foldl (fun p d =>
            (lookup definitions (define finish definitions definitions.length) d.name p).2) q
          Sound definitions finish q' ∧ Later definitions p q' ∧
            ∀ d' ∈ d :: ds, Settled q' d' := by
        intro q hq hlater hsettled
        obtain ⟨hq', hlater', hall⟩ := ih (fun d' hd' => hds d' (List.mem_cons_of_mem _ hd')) hq
          (hlater.waiting.trans hwait)
        refine ⟨hq', hlater.trans hlater', fun d' hd' => ?_⟩
        rcases List.mem_cons.mp hd' with rfl | hd'
        · exact hsettled.later hlater'
        · exact hall d' hd'
      cases hd with
      | found hq hlater hget _ =>
          refine hrest _ hq hlater (.inl ?_)
          rw [hget]
          rfl
      | unknown _ hq hlater hname =>
          refine hrest _ hq hlater (.inr ?_)
          rcases hname.never with hfail | hwait' | hno
          · exact hfail
          · rw [hlater.waiting, hwait] at hwait'
            cases hwait'
          · exact absurd (List.mem_map_of_mem (hds d List.mem_cons_self)) hno

variable {functions : Registry}

/-- Before any body is read, nothing is defined and nothing failed. -/
theorem sound_start (finish : Expr → Expr) (hnames : NewNames functions definitions)
    (errors : List ParseError) :
    Sound definitions finish ⟨functions, [], [], errors⟩ := by
  refine ⟨fun d hd f hf => ?_, fun d _ hfail => ?_, fun name hname => ?_, List.nodup_nil,
    fun name hname => ?_⟩
  · have hnew := hnames.new d hd
    unfold Registry.contains at hnew
    rw [hf] at hnew
    cases hnew
  · cases hfail
  · rcases hname with hname | hname <;> cases hname
  · cases hname

/-- In the end a definition is in the registry, as it is read against that registry, or it was
reported. -/
theorem defineAll_spec (finish : Expr → Expr) (hnames : NewNames functions definitions)
    (errors : List ParseError) {d : Definition} (hd : d ∈ definitions) :
    let p := defineAll finish definitions ⟨functions, [], [], errors⟩
    (∃ e, (topLevel d.params d.body).against p.registry = .ok e ∧
        p.registry.get? d.name = some ⟨d.name, d.params, finish e⟩) ∨
      p.registry.get? d.name = none ∧
        ∃ fault, .ofFault d.name d.line fault ∈ p.errors ∧ Rejected p.registry d fault := by
  obtain ⟨hsound, -, hsettled⟩ := settled_foldl hnames.distinct definitions (fun _ hd => hd)
    (sound_start finish hnames errors) rfl
  rcases hsettled d hd with hdefined | hfail
  · left
    obtain ⟨f, hf⟩ := Option.isSome_iff_exists.mp hdefined
    obtain ⟨e, he, rfl⟩ := hsound.defined d hd f hf
    exact ⟨e, he, hf⟩
  · right
    obtain ⟨fault, herror, hrejected⟩ := hsound.rejected d hd hfail
    exact ⟨hsound.absent d.name (.inl hfail), fault, herror, hrejected _ hsound.allows⟩

/-- On its own the text of a body is read as it is in its line. -/
theorem parse_bodyText {taken : String → Bool} {line : Nat} {text : String} {d : Definition}
    (h : header taken line (Token.tokenize text) = .ok d) (r : Registry) :
    (∃ e, (topLevel d.params d.body).against r = .ok e ∧
        parse (bodyText text d) r d.params = .ok e.simplify) ∨
      ∃ fault error, (topLevel d.params d.body).against r = .error fault ∧
        parse (bodyText text d) r d.params = .error error ∧ error.cause = fault.cause := by
  have hread := topLevel_moved d.params r (kinds_bodyText h)
  unfold parse read
  revert hread
  generalize (topLevel d.params (Token.tokenize (bodyText text d))).against r = x,
    (topLevel d.params d.body).against r = y
  intro hread
  cases hread with
  | @ok e e' heq =>
      obtain rfl : e = e' := heq
      exact .inl ⟨e, rfl, rfl⟩
  | @error x y hfault => exact .inr ⟨y, _, rfl, rfl, hfault.cause⟩

/-- A block means what its lines say, in whatever order they stand.  Let the header of a line
have been accepted.  Then the function is defined exactly if the text of its body can be read
against the functions that there are in the end; it has the parameters of the header and the
body that is read; and if it is not defined, then its error is that of its body, or is about a
call of something that is not defined. -/
theorem parseBlock_spec (block : String) (functions : Registry) (d : Definition) (text : String)
    (hd : d ∈ (headers functions [] ((Text.lines block).zipIdx 1)).1)
    (htext : (text, d.line) ∈ (Text.lines block).zipIdx 1) :
    ((parseBlock block functions).1.contains d.name = true ↔
        ∃ e, parse (bodyText text d) (parseBlock block functions).1 d.params = .ok e) ∧
      (∀ e, parse (bodyText text d) (parseBlock block functions).1 d.params = .ok e →
        ∃ f, (parseBlock block functions).1.get? d.name = some f ∧ f.params = d.params ∧
          f.body.isEquivalent e = true) ∧
      ((parseBlock block functions).1.contains d.name = false →
        ∃ error ∈ (parseBlock block functions).2, error.function = d.name ∧ error.line = d.line ∧
          ((∃ own, parse (bodyText text d) (parseBlock block functions).1 d.params = .error own ∧
              own.cause = error.cause) ∨
            ∃ name, (parseBlock block functions).1.contains name = false ∧
              (error.cause = .calleeHasErrors name ∨ error.cause = .recursive name ∨
                error.cause = .unknownFunction name))) := by
  obtain ⟨hnames, hlines⟩ := headers_spec functions ((Text.lines block).zipIdx 1) []
    ⟨List.nodup_nil, by simp⟩
  obtain ⟨taken, hheader⟩ : ∃ taken, header taken d.line (Token.tokenize text) = .ok d := by
    rcases hlines d hd with hmem | ⟨text', taken, htext', hheader⟩
    · cases hmem
    · -- There is one line of this number.
      rw [List.mk_mem_zipIdx_iff_le_and_getElem?_sub] at htext htext'
      obtain rfl : text = text' := Option.some.inj (htext.2.symm.trans htext'.2)
      exact ⟨taken, hheader⟩
  unfold parseBlock readBlock
  generalize headers functions [] ((Text.lines block).zipIdx 1) = x at hd hnames
  obtain ⟨definitions, errors⟩ := x
  dsimp only at hd hnames ⊢
  have hspec := defineAll_spec Expr.simplify hnames errors hd
  generalize defineAll Expr.simplify definitions ⟨functions, [], [], errors⟩ = p at hspec ⊢
  have hbody := parse_bodyText hheader p.registry
  unfold Registry.contains
  rcases hspec with ⟨e, he, hget⟩ | ⟨hget, fault, herror, own, hown, hcause⟩
  · rcases hbody with ⟨e', he', hparse⟩ | ⟨fault, error, hfault, -⟩
    · obtain rfl : e = e' := Except.ok.inj (he.symm.trans he')
      rw [hget, hparse]
      refine ⟨⟨fun _ => ⟨_, rfl⟩, fun _ => rfl⟩, fun e' h => ?_, fun h => ?_⟩
      · cases h
        exact ⟨_, rfl, rfl, Expr.isEquivalent_refl _⟩
      · cases h
    · rw [he] at hfault
      cases hfault
  · rcases hbody with ⟨e, he, -⟩ | ⟨fault', error, hfault', hparse, herror'⟩
    · rw [hown] at he
      cases he
    · obtain rfl : own = fault' := Except.error.inj (hown.symm.trans hfault')
      rw [hget, hparse]
      refine ⟨⟨fun h => ?_, fun h => ?_⟩, fun e h => ?_, fun _ => ?_⟩
      · cases h
      · obtain ⟨e, h⟩ := h
        cases h
      · cases h
      · refine ⟨_, List.mem_mergeSort.mpr herror, rfl, rfl, ?_⟩
        rcases hcause with rfl | ⟨name, answer, hname, hanswer⟩
        · exact .inl ⟨error, rfl, herror'⟩
        · refine .inr ⟨name, by rw [hname]; rfl, ?_⟩
          cases answer with
          | found f => cases hanswer
          | invalid => exact .inl (Option.some.inj hanswer).symm
          | recursive => exact .inr (.inl (Option.some.inj hanswer).symm)
          | missing => exact .inr (.inr (Option.some.inj hanswer).symm)

/-- A function that is called before its line is as good as one that is known from the start. -/
theorem parseBlock_forward_call :
    (parseBlock "f(x) = g(x)\ng(x) = x" .empty).1.contains "f" = true ∧
      ∃ e, parse "g(x)" (parseBlock "f(x) = g(x)\ng(x) = x" .empty).1 ["x"] = .ok e := by
  have hlines : (Text.lines "f(x) = g(x)\ng(x) = x").zipIdx 1 =
      [("f(x) = g(x)", 1), ("g(x) = x", 2)] := by decide
  have hfirst : Token.tokenize "f(x) = g(x)" =
      [⟨.ident "f", "f", 0, 1⟩, ⟨.symbol .openParen, "(", 1, 2⟩, ⟨.ident "x", "x", 2, 3⟩,
        ⟨.symbol .closeParen, ")", 3, 4⟩, ⟨.symbol .assign, "=", 5, 6⟩, ⟨.ident "g", "g", 7, 8⟩,
        ⟨.symbol .openParen, "(", 8, 9⟩, ⟨.ident "x", "x", 9, 10⟩,
        ⟨.symbol .closeParen, ")", 10, 11⟩, ⟨.finish, "", 11, 12⟩] := by cbv
  have hsecond : Token.tokenize "g(x) = x" =
      [⟨.ident "g", "g", 0, 1⟩, ⟨.symbol .openParen, "(", 1, 2⟩, ⟨.ident "x", "x", 2, 3⟩,
        ⟨.symbol .closeParen, ")", 3, 4⟩, ⟨.symbol .assign, "=", 5, 6⟩, ⟨.ident "x", "x", 7, 8⟩,
        ⟨.finish, "", 8, 9⟩] := by cbv
  let f : Definition := ⟨"f", ["x"], [⟨.ident "g", "g", 7, 8⟩, ⟨.symbol .openParen, "(", 8, 9⟩,
      ⟨.ident "x", "x", 9, 10⟩, ⟨.symbol .closeParen, ")", 10, 11⟩, ⟨.finish, "", 11, 12⟩], 1⟩
  have hblank : Text.isAllBlank "f(x) = g(x)" = false := by decide
  have hblank' : Text.isAllBlank "g(x) = x" = false := by decide
  have hheaders : headers .empty [] [("f(x) = g(x)", 1), ("g(x) = x", 2)] =
      ([f, ⟨"g", ["x"], [⟨.ident "x", "x", 7, 8⟩, ⟨.finish, "", 8, 9⟩], 2⟩], []) := by
    simp only [headers, hfirst, hsecond, hblank, hblank']
    rfl
  have hbody : bodyText "f(x) = g(x)" f = "g(x)" := by decide
  have hcontains : (parseBlock "f(x) = g(x)\ng(x) = x" .empty).1.contains "f" = true := by
    simp only [parseBlock, readBlock, hlines, hheaders]
    decide +kernel
  have hd : f ∈ (headers .empty [] ((Text.lines "f(x) = g(x)\ng(x) = x").zipIdx 1)).1 := by
    rw [hlines, hheaders]
    exact List.mem_cons_self
  have htext : ("f(x) = g(x)", f.line) ∈ (Text.lines "f(x) = g(x)\ng(x) = x").zipIdx 1 := by
    rw [hlines]
    exact List.mem_cons_self
  obtain ⟨hiff, -, -⟩ := parseBlock_spec "f(x) = g(x)\ng(x) = x" .empty f "f(x) = g(x)" hd htext
  rw [hbody] at hiff
  exact ⟨hcontains, hiff.mp hcontains⟩

end Parser

end FormulaPlot
