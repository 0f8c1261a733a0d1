/-
Who is blamed for a definition that is refused.

A definition is refused for a fault of its own, or for calling a function that is missing.  If
that function is of the same block, the error says why it is missing: it has errors, or it is
being read right now and the call goes round in a circle.  Whatever the error says, the body
has the same fault against the registry in the end, and at the same place.

Which of the two is said depends on where the reading began.  What does not depend on it is
that the blame leads from definition to definition the same way, and that one member of every
circle is told about the circle.  For an error that blames a function with errors comes after
that function's own error, so errors of this kind alone never form a circle.  And once a call
is found to go round, every definition on the way back is refused next, each blaming the one
before.
-/
import FormulaPlot.Proofs.Parser.Block
import FormulaPlot.Proofs.Parser.Honesty

namespace FormulaPlot.Parser

open Inquiry (Honest)
open Similarity
open Relation (ReflTransGen TransGen)

/-- An honest reading is similar to itself. -/
theorem related_of_honest {α : Type} {m : Inquiry α} (hm : m.Honest) : moved.Related Eq m m := by
  induction hm with
  | @done result _ =>
      cases result with
      | ok a => exact .done (.ok rfl)
      | error fault => exact .done (.error ⟨rfl, trivial⟩)
  | ask name column _ other ih =>
      refine .ask name (fun f g hfg => ?_) fun answer cause hcause =>
        ⟨column, column, trivial, other answer cause hcause, other answer cause hcause⟩
      obtain ⟨name, params, body⟩ := f
      obtain ⟨_, _, _⟩ := g
      obtain ⟨rfl, rfl, rfl⟩ := hfg
      exact ih _

variable {definitions : List Definition} {finish : Expr → Expr} {functions : Registry}
  {before told : List ParseError} {p q : Progress}

/-! ### What is said instead of a fault -/

/-- The first cause is reported as the second.  Of a function that is missing although it is
of the block, it is said why. -/
inductive Stated (definitions : List Definition) : Cause → Cause → Prop
  | own {cause : Cause} (h : cause.own = true) : Stated definitions cause cause
  | missing {name : String} (h : name ∉ definitions.map Definition.name) :
      Stated definitions (.unknownFunction name) (.unknownFunction name)
  | invalid {name : String} (h : name ∈ definitions.map Definition.name) :
      Stated definitions (.unknownFunction name) (.calleeHasErrors name)
  | recursive {name : String} (h : name ∈ definitions.map Definition.name) :
      Stated definitions (.unknownFunction name) (.recursive name)

/-- Against the registry the reading has a fault that is reported as this one. -/
def Explained {α : Type} (definitions : List Definition) (r : Registry) (m : Inquiry α)
    (fault : Fault) : Prop :=
  ∃ own, m.against r = .error own ∧ own.column = fault.column ∧
    Stated definitions own.cause fault.cause

/-! ### Who blames whom -/

/-- An error blames an earlier one. -/
def Accuses (told : List ParseError) (e e' : ParseError) : Prop :=
  e' ∈ told ∧ e.cause = .calleeHasErrors e'.function

/-- From the error of a function, the blame leads to an error. -/
def Leads (told : List ParseError) (name : String) (e : ParseError) : Prop :=
  ∃ e' ∈ told, e'.function = name ∧ ReflTransGen (Accuses told) e' e

/-- Every call that went round in a circle is explained by the errors on the way back. -/
def Closed (told : List ParseError) : Prop :=
  ∀ e ∈ told, ∀ name, e.cause = .recursive name → Leads told name e

/-- A call may have gone round to a definition that still waits.  Then the way back has come
to the function that the next error will blame. -/
def Open (waiting : List String) (cause : Cause) (told : List ParseError) : Prop :=
  ∀ e ∈ told, ∀ name, e.cause = .recursive name →
    Leads told name e ∨
      name ∈ waiting ∧ ∃ callee, cause = .calleeHasErrors callee ∧ Leads told callee e

/-- An error that blames a function comes after that function's error. -/
def Grounded : List ParseError → Prop
  | [] => True
  | e :: told =>
    (∀ name, e.cause = .calleeHasErrors name → name ∈ told.map (·.function)) ∧ Grounded told

theorem Closed.open (h : Closed told) (waiting : List String) (cause : Cause) :
    Open waiting cause told := fun e he name hname => .inl (h e he name hname)

theorem Open.closed {cause : Cause} (h : Open [] cause told) : Closed told := by
  intro e he name hname
  rcases h e he name hname with hleads | ⟨hwait, -⟩
  · exact hleads
  · cases hwait

theorem Leads.cons {name : String} {e : ParseError} (h : Leads told name e) (e' : ParseError) :
    Leads (e' :: told) name e := by
  obtain ⟨source, hmem, hname, hpath⟩ := h
  exact ⟨source, List.mem_cons_of_mem _ hmem, hname, ReflTransGen.mono
    (fun _ _ hstep => ⟨List.mem_cons_of_mem _ hstep.1, hstep.2⟩) _ _ hpath⟩

/-- The next error takes the blame one step further back. -/
theorem Leads.back {callee : String} {e e' : ParseError} (h : Leads told callee e)
    (hcause : e'.cause = .calleeHasErrors callee) : Leads (e' :: told) e'.function e := by
  obtain ⟨source, hmem, rfl, hpath⟩ := h.cons e'
  exact ⟨e', List.mem_cons_self, rfl, hpath.head ⟨hmem, hcause⟩⟩

/-! ### The record of a block -/

/-- Registries that are built by reading one body after the other. -/
inductive Grown (definitions : List Definition) (finish : Expr → Expr) (functions : Registry) :
    Registry → Prop
  | start : Grown definitions finish functions functions
  | define {r : Registry} {d : Definition} {body : Expr} (h : Grown definitions finish functions r)
      (hd : d ∈ definitions) (hread : (topLevel d.params d.body).against r = .ok body) :
      Grown definitions finish functions (r.insert ⟨d.name, d.params, finish body⟩)

/-- What was told so far, the latest first, are the errors of the definitions that failed. -/
structure Recorded (definitions : List Definition) (finish : Expr → Expr) (functions : Registry)
    (before told : List ParseError) (p : Progress) : Prop where
  errors : p.errors = told ++ before
  failed : p.failed = told.map (·.function)
  distinct : p.failed.Nodup
  apart : ∀ name ∈ p.waiting, name ∉ p.failed
  grown : Grown definitions finish functions p.registry
  explained : ∀ e ∈ told, ∃ d ∈ definitions, e.function = d.name ∧ e.line = d.line ∧
    ∀ r, Allows definitions p r →
      Explained definitions r (topLevel d.params d.body) ⟨e.cause, e.column⟩
  grounded : Grounded told

/-- The record stays true as long as nothing else fails. -/
theorem Recorded.later (h : Recorded definitions finish functions before told p)
    (hlater : Later definitions p q) (hgrown : Grown definitions finish functions q.registry)
    (herrors : q.errors = p.errors) (hfailed : q.failed = p.failed) :
    Recorded definitions finish functions before told q := by
  refine ⟨herrors.trans h.errors, hfailed.trans h.failed, hfailed ▸ h.distinct, ?_, hgrown, ?_,
    h.grounded⟩
  · rw [hlater.waiting, hfailed]
    exact h.apart
  · intro e he
    obtain ⟨d, hd, hname, hline, hexplained⟩ := h.explained e he
    exact ⟨d, hd, hname, hline, fun r hr => hexplained r (hlater.allows hr)⟩

theorem Recorded.enter (h : Recorded definitions finish functions before told p)
    {d : Definition} (hfail : d.name ∉ p.failed) :
    Recorded definitions finish functions before told
      { p with waiting := d.name :: p.waiting } := by
  refine ⟨h.errors, h.failed, h.distinct, ?_, h.grown, ?_, h.grounded⟩
  · intro name hname
    rcases List.mem_cons.mp hname with rfl | hname
    · exact hfail
    · exact h.apart name hname
  · intro e he
    obtain ⟨d', hd', hname, hline, hexplained⟩ := h.explained e he
    refine ⟨d', hd', hname, hline, fun r hr => hexplained r ⟨hr.grows, fun name hname => ?_⟩⟩
    exact hr.absent name (hname.imp_right (List.mem_cons_of_mem _))

/-- What may be reported next: the function with errors has its error, and the one that the
call goes round to waits. -/
structure Tenable (definitions : List Definition) (finish : Expr → Expr) (functions : Registry)
    (before : List ParseError) (cause : Cause) (p : Progress) (told : List ParseError) :
    Prop where
  recorded : Recorded definitions finish functions before told p
  failed : ∀ name, cause = .calleeHasErrors name → name ∈ p.failed
  waiting : ∀ name, cause = .recursive name → name ∈ p.waiting
  traced : Open p.waiting cause told

/-- An answer about a function: nothing failed on the way to it, or there is a reason why it
is not there. -/
inductive Heard (definitions : List Definition) (finish : Expr → Expr) (functions : Registry)
    (before : List ParseError) (name : String) (p : Progress) : Answer × Progress → Prop
  | found {f : UserFunction} {q : Progress} (hgrown : Grown definitions finish functions q.registry)
      (herrors : q.errors = p.errors) :
      Heard definitions finish functions before name p (.found f, q)
  | unknown {answer : Answer} {cause : Cause} {q : Progress} {told : List ParseError}
      (hcause : answer.cause? name = some cause)
      (hstated : Stated definitions (.unknownFunction name) cause)
      (htenable : Tenable definitions finish functions before cause q told) :
      Heard definitions finish functions before name p (answer, q)

/-- What a reading came to: nothing failed on the way, or there is a reason for the fault. -/
inductive Told (definitions : List Definition) (finish : Expr → Expr) (functions : Registry)
    (before : List ParseError) {α : Type} (m : Inquiry α) (p : Progress) :
    Except Fault α × Progress → Prop
  | ok {a : α} {q : Progress} (hgrown : Grown definitions finish functions q.registry)
      (herrors : q.errors = p.errors) : Told definitions finish functions before m p (.ok a, q)
  | error {fault : Fault} {q : Progress} {told : List ParseError}
      (hexplained : ∀ r, Allows definitions q r → Explained definitions r m fault)
      (htenable : Tenable definitions finish functions before fault.cause q told) :
      Told definitions finish functions before m p (.error fault, q)

/-! ### Reading a body -/

/-- There is a reason for every fault of a body, if there is one for every answer. -/
theorem told_run {answer : String → Progress → Answer × Progress} {waiting : List String}
    (hanswer : ∀ name p, Sound definitions finish p → p.waiting = waiting →
      Answered definitions finish name p (answer name p))
    (hheard : ∀ name p told, Sound definitions finish p → p.waiting = waiting →
      Recorded definitions finish functions before told p → Closed told →
      Heard definitions finish functions before name p (answer name p))
    {α : Type} {m : Inquiry α} (hm : m.Honest) (hp : Sound definitions finish p)
    (hwaiting : p.waiting = waiting)
    (hrecorded : Recorded definitions finish functions before told p) (hclosed : Closed told) :
    Told definitions finish functions before m p (m.run answer p) := by
  induction hm generalizing p with
  | @done result own =>
      cases result with
      | ok a => exact .ok hrecorded.grown rfl
      | error fault =>
          have hown : fault.cause.own = true := own fault rfl
          refine .error (fun r _ => ⟨fault, rfl, rfl, .own hown⟩)
            ⟨hrecorded, ?_, ?_, hclosed.open _ _⟩
          · intro name hname
            rw [hname] at hown
            cases hown
          · intro name hname
            rw [hname] at hown
            cases hown
  | @ask name column next found other ih =>
      have hname := hanswer name p hp hwaiting
      have hreason := hheard name p told hp hwaiting hrecorded hclosed
      unfold Inquiry.run
      revert hname hreason
      generalize answer name p = x
      intro hname hreason
      cases hreason with
      | @found f q hgrown herrors =>
          cases hname with
          | unknown hcause => cases hcause
          | found hq hlater hget hfailed =>
              have hrest := ih f hq (hlater.waiting.trans hwaiting)
                (hrecorded.later hlater hgrown herrors hfailed)
              have hcame := came_run hanswer (related_of_honest (found f)) hq
                (hlater.waiting.trans hwaiting)
              have hlater' := hcame.later
              revert hrest hlater'
              generalize (next (.found f)).run answer q = y
              intro hrest hlater'
              cases hrest with
              | ok hgrown' herrors' => exact .ok hgrown' (herrors'.trans herrors)
              | error hexplained htenable =>
                  refine .error (fun r hr => ?_) htenable
                  have hthere := hr.grows.keeps name f (hlater'.registry.keeps name f hget)
                  unfold Explained Inquiry.against
                  rw [hthere]
                  exact hexplained r hr
      | @unknown a cause q told' hcause hstated htenable =>
          cases hname with
          | found => cases hcause
          | unknown _ hq hlater hunknown =>
              dsimp only
              rw [other a cause hcause]
              refine .error (fun r hr => ⟨⟨.unknownFunction name, column⟩, ?_, rfl, hstated⟩)
                htenable
              unfold Inquiry.against
              rw [hunknown.get? hr]
              dsimp only
              rw [other .missing _ rfl]
              rfl

/-! ### Looking up and defining -/

/-- There is a reason for every answer that this way to define functions gives. -/
def Accounts (definitions : List Definition) (finish : Expr → Expr) (functions : Registry)
    (before : List ParseError) (waiting : List String)
    (define : Definition → Progress → Answer × Progress) : Prop :=
  ∀ d ∈ definitions, ∀ p told, Sound definitions finish p → p.waiting = waiting →
    d.name ∉ p.waiting → d.name ∉ p.failed → p.registry.get? d.name = none →
    Recorded definitions finish functions before told p → Closed told →
    Heard definitions finish functions before d.name p (define d p)

theorem lookup_heard {define : Definition → Progress → Answer × Progress}
    {waiting : List String}
    (hdefine : Accounts definitions finish functions before waiting define) (name : String)
    (hp : Sound definitions finish p) (hwaiting : p.waiting = waiting)
    (hrecorded : Recorded definitions finish functions before told p) (hclosed : Closed told) :
    Heard definitions finish functions before name p (lookup definitions define name p) := by
  have hlooked := looked definitions define name p
  generalize lookup definitions define name p = x at hlooked ⊢
  cases hlooked with
  | found _ => exact .found hrecorded.grown rfl
  | missing _ hno => exact .unknown rfl (.missing hno) ⟨hrecorded, nofun, nofun, hclosed.open _ _⟩
  | recursive _ hmem hwait =>
      refine .unknown rfl (.recursive hmem) ⟨hrecorded, nofun, ?_, hclosed.open _ _⟩
      intro name hname
      cases hname
      exact hwait
  | invalid _ hmem _ hfail =>
      refine .unknown rfl (.invalid hmem) ⟨hrecorded, ?_, nofun, hclosed.open _ _⟩
      intro name hname
      cases hname
      exact hfail
  | define hget hd hname hwait hfail =>
      subst hname
      exact hdefine _ hd p told hp hwaiting hwait hfail hget hrecorded hclosed

/-- A body that was refused is reported, and the blame is passed on to its caller. -/
theorem tenable_failed {d : Definition} (hd : d ∈ definitions) (hwait : d.name ∉ p.waiting)
    {fault : Fault} {after : Progress}
    (hlater : Later definitions { p with waiting := d.name :: p.waiting } after)
    (hexplained : ∀ r, Allows definitions after r →
      Explained definitions r (topLevel d.params d.body) fault)
    (h : Tenable definitions finish functions before fault.cause after told) :
    Tenable definitions finish functions before (.calleeHasErrors d.name)
      { after with
        waiting := p.waiting
        failed := d.name :: after.failed
        errors := .ofFault d.name d.line fault :: after.errors }
      (.ofFault d.name d.line fault :: told) := by
  have hwaiting : after.waiting = d.name :: p.waiting := hlater.waiting
  have hfresh : d.name ∉ after.failed :=
    h.recorded.apart d.name (hwaiting ▸ List.mem_cons_self)
  refine ⟨⟨?_, ?_, List.nodup_cons.mpr ⟨hfresh, h.recorded.distinct⟩, ?_, h.recorded.grown, ?_,
    ?_, h.recorded.grounded⟩, ?_, nofun, ?_⟩
  · rw [List.cons_append, ← h.recorded.errors]
  · rw [List.map_cons, ← h.recorded.failed]
    rfl
  · intro name hname hfail
    rcases List.mem_cons.mp hfail with rfl | hfail
    · exact hwait hname
    · exact h.recorded.apart name (hwaiting ▸ List.mem_cons_of_mem _ hname) hfail
  · intro e he
    rcases List.mem_cons.mp he with rfl | he
    · exact ⟨d, hd, rfl, rfl, fun r hr => hexplained r (hlater.allows_failed hr)⟩
    · obtain ⟨d', hd', hname, hline, hold⟩ := h.recorded.explained e he
      exact ⟨d', hd', hname, hline, fun r hr => hold r (hlater.allows_failed hr)⟩
  · intro name hname
    rw [← h.recorded.failed]
    exact h.failed name hname
  · intro name hname
    cases hname
    exact List.mem_cons_self
  · -- The way back reaches this definition, whether it ends here or goes on.
    intro e he name hname
    have hback : name ∈ after.waiting →
        Leads (.ofFault d.name d.line fault :: told) d.name e →
        Leads (.ofFault d.name d.line fault :: told) name e ∨ name ∈ p.waiting ∧
          ∃ callee, Cause.calleeHasErrors d.name = .calleeHasErrors callee ∧
            Leads (.ofFault d.name d.line fault :: told) callee e := by
      intro hmem hleads
      rw [hwaiting] at hmem
      rcases List.mem_cons.mp hmem with rfl | hmem
      · exact .inl hleads
      · exact .inr ⟨hmem, d.name, rfl, hleads⟩
    rcases List.mem_cons.mp he with rfl | he
    · exact hback (h.waiting name hname) ⟨_, List.mem_cons_self, rfl, .refl⟩
    · rcases h.traced e he name hname with hleads | ⟨hmem, callee, hcallee, hleads⟩
      · exact .inl (hleads.cons _)
      · exact hback hmem (hleads.back hcallee)

theorem define_heard (hnames : (definitions.map Definition.name).Nodup) (fuel : Nat)
    (waiting : List String) (hfuel : definitions.length ≤ fuel + waiting.length) :
    Accounts definitions finish functions before waiting (define finish definitions fuel) := by
  induction fuel generalizing waiting with
  | zero =>
      intro d hd p told hp hwaiting hwait _ _ _ _
      have hlt := length_waiting_lt hp hd hwait
      rw [hwaiting] at hlt
      omega
  | succ fuel ih =>
      intro d hd p told hp hwaiting hwait hfail hget hrecorded hclosed
      have hless : definitions.length ≤ fuel + (d.name :: p.waiting).length := by
        rw [List.length_cons, hwaiting]
        omega
      have hanswer : ∀ name q, Sound definitions finish q → q.waiting = d.name :: p.waiting →
          Answered definitions finish name q
            (lookup definitions (define finish definitions fuel) name q) :=
        fun name q hq hw => lookup_answered (define_answered finish hnames fuel _ hless) name hq hw
      have hentered := hp.enter hd hwait hget
      have htold := told_run hanswer
        (fun name q told hq hw hr hc => lookup_heard (ih _ hless) name hq hw hr hc)
        (honest_topLevel d.params d.body) hentered rfl (hrecorded.enter hfail) hclosed
      have hcame := came_run hanswer (related_of_honest (honest_topLevel d.params d.body))
        hentered rfl
      rw [define]
      revert htold hcame
      generalize (topLevel d.params d.body).run _ _ = x
      intro htold hcame
      cases htold with
      | ok hgrown herrors =>
          cases hcame with
          | ok _ _ hread _ => exact .found (.define hgrown hd hread) herrors
      | error hexplained htenable =>
          exact .unknown rfl (.invalid (List.mem_map_of_mem hd))
            (tenable_failed hd hwait hcame.later hexplained htenable)

/-! ### The whole block -/

theorem recorded_foldl (hnames : (definitions.map Definition.name).Nodup) (ds : List Definition)
    (hp : Sound definitions finish p) (hwait : p.waiting = [])
    (hrecorded : Recorded definitions finish functions before told p) (hclosed : Closed told) :
    ∃ told', Recorded definitions finish functions before told' (ds.foldl (fun p d =>
        (lookup definitions (define finish definitions definitions.length) d.name p).2) p) ∧
      Closed told' := by
  induction ds generalizing p told with
  | nil => exact ⟨told, hrecorded, hclosed⟩
  | cons d ds ih =>
      have hknown := lookup_answered
        (define_answered finish hnames definitions.length [] (Nat.le_refl _)) d.name hp hwait
      have hheard := lookup_heard
        (define_heard hnames definitions.length [] (Nat.le_refl _)) d.name hp hwait hrecorded
        hclosed
      rw [List.foldl_cons]
      revert hknown hheard
      generalize lookup definitions (define finish definitions definitions.length) d.name p = x
      intro hknown hheard
      obtain ⟨hq, hlater⟩ := hknown.later
      have hwait' : x.2.waiting = [] := hlater.waiting.trans hwait
      cases hheard with
      | found hgrown herrors =>
          cases hknown with
          | found _ _ _ hfailed =>
              exact ih hq hwait' (hrecorded.later hlater hgrown herrors hfailed) hclosed
          | unknown hcause => cases hcause
      | unknown _ _ htenable =>
          have hopen := htenable.traced
          rw [hwait'] at hopen
          exact ih hq hwait' htenable.recorded hopen.closed

/-- What is known when all bodies have been read.  The registry has all functions that can be
read against it and no others, and there is a reason for every error. -/
structure Ended (definitions : List Definition) (finish : Expr → Expr) (functions : Registry)
    (before told : List ParseError) (p : Progress) : Prop where
  recorded : Recorded definitions finish functions before told p
  closed : Closed told
  allows : Allows definitions p p.registry
  keeps : ∀ name f, functions.get? name = some f → p.registry.get? name = some f
  defined : ∀ d ∈ definitions, ∀ e, (topLevel d.params d.body).against p.registry = .ok e →
    p.registry.get? d.name = some ⟨d.name, d.params, finish e⟩
  failed : ∀ d ∈ definitions, d.name ∈ p.failed ↔ p.registry.get? d.name = none

theorem defineAll_ended (finish : Expr → Expr) (hnames : NewNames functions definitions)
    (before : List ParseError) :
    ∃ told, Ended definitions finish functions before told
      (defineAll finish definitions ⟨functions, [], [], before⟩) := by
  have hstart := sound_start finish hnames before
  have hempty : Recorded definitions finish functions before [] ⟨functions, [], [], before⟩ :=
    ⟨rfl, rfl, List.nodup_nil, nofun, .start, nofun, trivial⟩
  obtain ⟨told, hrecorded, hclosed⟩ :=
    recorded_foldl hnames.distinct definitions hstart rfl hempty nofun
  obtain ⟨hsound, hlater, hsettled⟩ :=
    settled_foldl hnames.distinct definitions (fun _ hd => hd) hstart rfl
  refine ⟨told, hrecorded, hclosed, hsound.allows, hlater.registry.keeps, fun d hd e he => ?_,
    fun d hd => ⟨fun hfail => hsound.absent d.name (.inl hfail), fun hget => ?_⟩⟩
  · rcases defineAll_spec finish hnames before hd with ⟨e', he', hget⟩ | ⟨-, _, -, own, hown, -⟩
    · obtain rfl : e = e' := Except.ok.inj (he.symm.trans he')
      exact hget
    · cases he.symm.trans hown
  · rcases hsettled d hd with hdefined | hfail
    · obtain ⟨f, hf⟩ := Option.isSome_iff_exists.mp hdefined
      cases hget.symm.trans hf
    · exact hfail

/-! ### Circles -/

/-- An error blames the function of another one. -/
def Blames (errors : List ParseError) (e e' : ParseError) : Prop :=
  e' ∈ errors ∧ e.cause.blamed? = some e'.function

/-- The error says that a definition refers back to itself. -/
def Circular (e : ParseError) : Prop := ∃ name, e.cause = .recursive name

/-- The errors on a circle of blame are those from which it leads to one another.  One error on
each circle says that there is one, and no other error says so. -/
structure CircularOnce (errors : List ParseError) : Prop where
  circle : ∀ e ∈ errors, Circular e → TransGen (Blames errors) e e
  once : ∀ e ∈ errors, TransGen (Blames errors) e e →
    ∃! e', Circular e' ∧ TransGen (Blames errors) e e' ∧ TransGen (Blames errors) e' e

theorem Grounded.mem {e : ParseError} (h : Grounded told) (he : e ∈ told) {name : String}
    (hcause : e.cause = .calleeHasErrors name) : name ∈ told.map (·.function) := by
  induction told with
  | nil => cases he
  | cons a told ih =>
      rcases List.mem_cons.mp he with rfl | he
      · exact List.mem_cons_of_mem _ (h.1 name hcause)
      · exact List.mem_cons_of_mem _ (ih h.2 he)

/-- The blame for having errors goes from later errors to earlier ones. -/
theorem idxOf_lt_of_accuses (hdistinct : (told.map (·.function)).Nodup) (hgrounded : Grounded told)
    {e e' : ParseError} (he : e ∈ told) (hcause : e.cause = .calleeHasErrors e'.function) :
    told.idxOf e < told.idxOf e' := by
  induction told with
  | nil => cases he
  | cons a told ih =>
      obtain ⟨hfresh, hdistinct⟩ := List.nodup_cons.mp hdistinct
      have hearlier : e'.function ∈ told.map (·.function) := by
        rcases List.mem_cons.mp he with rfl | he
        · exact hgrounded.1 _ hcause
        · exact hgrounded.2.mem he hcause
      have hne : a ≠ e' := by
        rintro rfl
        exact hfresh hearlier
      rw [List.idxOf_cons_ne _ hne]
      rcases List.mem_cons.mp he with rfl | he
      · rw [List.idxOf_cons_self]
        exact Nat.succ_pos _
      · have hne' : a ≠ e := by
          rintro rfl
          exact hfresh (List.mem_map_of_mem he)
        rw [List.idxOf_cons_ne _ hne']
        exact Nat.succ_lt_succ (ih hdistinct hgrounded.2 he)

section

variable {errors : List ParseError} (herrors : errors.Perm (told ++ before))
  (hbefore : ∀ e ∈ before, e.cause.blamed? = none)
  (hdistinct : (told.map (·.function)).Nodup)

include herrors hbefore

theorem mem_told {e : ParseError} (he : e ∈ errors) {name : String}
    (hblamed : e.cause.blamed? = some name) : e ∈ told := by
  rcases List.mem_append.mp (herrors.mem_iff.mp he) with he | he
  · exact he
  · rw [hbefore e he] at hblamed
    cases hblamed

include hdistinct

/-- Of the errors that put blame on someone, one at most is about each function. -/
theorem eq_of_function {e e' : ParseError} (he : e ∈ told) (he' : e' ∈ errors) {name : String}
    (hblamed : e'.cause.blamed? = some name) (hfunction : e'.function = e.function) : e' = e :=
  List.inj_on_of_nodup_map hdistinct (mem_told herrors hbefore he' hblamed) he hfunction

/-- Following the blame, one meets a circular error or comes to earlier and earlier ones. -/
theorem circular_or_earlier (hgrounded : Grounded told) {e e' : ParseError} (he : e ∈ told)
    (hpath : TransGen (Blames errors) e e') :
    (∃ c, Circular c ∧ ReflTransGen (Blames errors) e c ∧ TransGen (Blames errors) c e') ∨
      told.idxOf e < told.idxOf e' := by
  have hstep : ∀ a b, a ∈ told → Blames errors a b →
      Circular a ∨ told.idxOf a < told.idxOf b := by
    intro a b ha hblames
    have hblamed := hblames.2
    cases hcause : a.cause with
    | calleeHasErrors name =>
        rw [hcause] at hblamed
        cases hblamed
        exact .inr (idxOf_lt_of_accuses hdistinct hgrounded ha hcause)
    | recursive name => exact .inl ⟨name, hcause⟩
    | _ =>
        rw [hcause] at hblamed
        cases hblamed
  induction hpath with
  | single hblames =>
      rcases hstep _ _ he hblames with hcircular | hlt
      · exact .inl ⟨e, hcircular, .refl, .single hblames⟩
      · exact .inr hlt
  | @tail a b hpath hblames ih =>
      rcases ih with ⟨c, hcircular, hto, hfrom⟩ | hlt
      · exact .inl ⟨c, hcircular, hto, hfrom.tail hblames⟩
      · obtain ⟨a', -, hlast⟩ := TransGen.tail'_iff.mp hpath
        have ha : a ∈ told := mem_told herrors hbefore hlast.1 hblames.2
        rcases hstep a b ha hblames with hcircular | hlt'
        · exact .inl ⟨a, hcircular, hpath.to_reflTransGen, .single hblames⟩
        · exact .inr (hlt.trans hlt')

/-- Whatever can be reached from a circular error is on the way back to it. -/
theorem way_back (hclosed : Closed told) {c e : ParseError} (hc : c ∈ told)
    (hcircular : Circular c) (hpath : TransGen (Blames errors) c e) {name : String}
    (hblamed : e.cause.blamed? = some name) : ReflTransGen (Accuses told) e c := by
  have hfirst : ∀ e, Blames errors c e → ∀ name, e.cause.blamed? = some name →
      ReflTransGen (Accuses told) e c := by
    intro e hblames name hblamed
    obtain ⟨callee, hcause⟩ := hcircular
    obtain ⟨source, hsource, rfl, hway⟩ := hclosed c hc callee hcause
    have hfunction := hblames.2
    rw [hcause] at hfunction
    obtain rfl := eq_of_function herrors hbefore hdistinct hsource hblames.1 hblamed
      (Option.some.inj hfunction).symm
    exact hway
  induction hpath generalizing name with
  | single hblames => exact hfirst _ hblames name hblamed
  | @tail a e _ hblames ih =>
      rcases (ih hblames.2).cases_head with rfl | ⟨next, haccuses, hway⟩
      · exact hfirst e hblames name hblamed
      · have hfunction := hblames.2
        rw [haccuses.2] at hfunction
        obtain rfl := eq_of_function herrors hbefore hdistinct haccuses.1 hblames.1 hblamed
          (Option.some.inj hfunction).symm
        exact hway

theorem circularOnce (hgrounded : Grounded told) (hclosed : Closed told) :
    CircularOnce errors := by
  have htold : ∀ e ∈ errors, Circular e → e ∈ told := by
    rintro e he ⟨name, hcause⟩
    exact mem_told herrors hbefore he (congrArg Cause.blamed? hcause)
  refine ⟨fun e he hcircular => ?_, fun e he hring => ?_⟩
  · obtain ⟨name, hcause⟩ := id hcircular
    obtain ⟨source, hsource, rfl, hway⟩ := hclosed e (htold e he hcircular) name hcause
    have hmem : ∀ e ∈ told, e ∈ errors := fun e he =>
      herrors.mem_iff.mpr (List.mem_append_left _ he)
    have hback : ReflTransGen (Blames errors) source e := ReflTransGen.mono
      (fun a b haccuses => ⟨hmem b haccuses.1, congrArg Cause.blamed? haccuses.2⟩) _ _ hway
    exact .head' ⟨hmem source hsource, congrArg Cause.blamed? hcause⟩ hback
  · have hblames : ∀ e e', TransGen (Blames errors) e e' →
        e' ∈ errors ∧ ∃ name, e.cause.blamed? = some name := by
      intro e e' hpath
      obtain ⟨_, -, hlast⟩ := TransGen.tail'_iff.mp hpath
      obtain ⟨first, hfirst, -⟩ := TransGen.head'_iff.mp hpath
      exact ⟨hlast.1, first.function, hfirst.2⟩
    obtain ⟨name, hblamed⟩ := (hblames e e hring).2
    have he' := mem_told herrors hbefore he hblamed
    rcases circular_or_earlier herrors hbefore hdistinct hgrounded he' hring with
      ⟨c, hcircular, hto, hfrom⟩ | hlt
    · refine ⟨c, ⟨hcircular, hring.trans_left hto, hfrom⟩, ?_⟩
      rintro c' ⟨⟨name', hcause'⟩, hto', hfrom'⟩
      -- The other circular error is on the way back to the one, but does not lead further.
      have hc := htold c (hblames e c (hring.trans_left hto)).1 hcircular
      have hway := way_back herrors hbefore hdistinct hclosed hc hcircular (hfrom.trans hto')
        (congrArg Cause.blamed? hcause')
      rcases hway.cases_head with rfl | ⟨next, haccuses, -⟩
      · rfl
      · cases hcause'.symm.trans haccuses.2
    · exact absurd hlt (Nat.lt_irrefl _)

end

end FormulaPlot.Parser
