/-
What becomes of every line of a block.

A line that is not blank has one outcome: it adds the function that it declares, or there
is one error with its number.  Lines are read in two rounds, the headers first and then
the bodies, and a body can be read early because another one calls its function.  So the
count is kept in two steps.  Every header is a definition or an error, and every
definition is in the registry in the end or has failed, once.

Reading also ends.  A definition waits while the ones that it calls are read, and no
definition waits twice, so there are never more calls inside one another than the block
has definitions.  What would be answered at a greater depth is never asked for.
-/
import FormulaPlot.Proofs.Parser.Growth

namespace FormulaPlot.Parser

open FormulaPlot.Similarity

variable {definitions : List Definition} {finish : Expr → Expr} {functions : Registry}
  {p : Progress}

/-! ### How deeply definitions are nested -/

/-- Reads the body of a definition; the definitions that it calls are read in the given way. -/
def defineBy (finish : Expr → Expr) (definitions : List Definition)
    (deeper : Definition → Progress → Answer × Progress) (d : Definition) (p : Progress) :
    Answer × Progress :=
  let (result, after) := (topLevel d.params d.body).run (lookup definitions deeper)
    { p with waiting := d.name :: p.waiting }
  match result with
  | .ok body =>
    let f : UserFunction := ⟨d.name, d.params, finish body⟩
    (.found f, { after with registry := after.registry.insert f, waiting := p.waiting })
  | .error fault =>
    (.invalid, { after with
      waiting := p.waiting
      failed := d.name :: after.failed
      errors := .ofFault d.name d.line fault :: after.errors })

theorem define_succ (finish : Expr → Expr) (definitions : List Definition) (fuel : Nat) :
    define finish definitions (fuel + 1) =
      defineBy finish definitions (define finish definitions fuel) :=
  rfl

/-- Two ways to read definitions do the same while these names wait. -/
def Agree (definitions : List Definition) (finish : Expr → Expr) (waiting : List String)
    (define define' : Definition → Progress → Answer × Progress) : Prop :=
  ∀ d ∈ definitions, ∀ p, Sound definitions finish p → p.waiting = waiting →
    d.name ∉ p.waiting → p.registry.get? d.name = none → define d p = define' d p

theorem lookup_congr {define define' : Definition → Progress → Answer × Progress}
    {waiting : List String} (h : Agree definitions finish waiting define define') (name : String)
    (hp : Sound definitions finish p) (hwaiting : p.waiting = waiting) :
    lookup definitions define name p = lookup definitions define' name p := by
  unfold lookup
  cases hget : p.registry.get? name with
  | some f => rfl
  | none =>
      cases hfind : definitions.find? (·.name == name) with
      | none => rfl
      | some d =>
          have hd : d ∈ definitions := List.mem_of_find?_eq_some hfind
          obtain rfl : d.name = name := by simpa using List.find?_some hfind
          dsimp only
          by_cases hwait : d.name ∈ p.waiting
          · rw [if_pos hwait, if_pos hwait]
          · by_cases hfail : d.name ∈ p.failed
            · rw [if_neg hwait, if_neg hwait, if_pos hfail, if_pos hfail]
            · rw [if_neg hwait, if_neg hwait, if_neg hfail, if_neg hfail]
              exact h d hd p hp hwaiting hwait hget

/-- A reading does not tell ways to answer apart that answer alike whenever it asks. -/
theorem run_congr {answer answer' : String → Progress → Answer × Progress} {waiting : List String}
    (hanswer : ∀ name p, Sound definitions finish p → p.waiting = waiting →
      Answered definitions finish name p (answer name p))
    (hsame : ∀ name p, Sound definitions finish p → p.waiting = waiting →
      answer name p = answer' name p)
    {α : Type} (m : Inquiry α) (hp : Sound definitions finish p) (hwaiting : p.waiting = waiting) :
    m.run answer p = m.run answer' p := by
  induction m generalizing p with
  | done result => rfl
  | ask name next ih =>
      obtain ⟨hq, hlater⟩ := (hanswer name p hp hwaiting).later
      unfold Inquiry.run
      rw [← hsame name p hp hwaiting]
      exact ih _ hq (hlater.waiting.trans hwaiting)

/-- With fuel for the definitions that do not wait, it does not matter what happens when there
is none left. -/
theorem define_agree (hnames : (definitions.map Definition.name).Nodup)
    (last : Definition → Progress → Answer × Progress) (fuel : Nat) (waiting : List String)
    (hfuel : definitions.length ≤ fuel + waiting.length) :
    Agree definitions finish waiting (define finish definitions fuel)
      ((defineBy finish definitions)^[fuel] last) := by
  induction fuel generalizing waiting with
  | zero =>
      intro d hd p hp hwaiting hwait _
      have hlt := length_waiting_lt hp hd hwait
      rw [hwaiting] at hlt
      omega
  | succ fuel ih =>
      intro d hd p hp hwaiting hwait hget
      have hless : definitions.length ≤ fuel + (d.name :: waiting).length := by
        rw [List.length_cons]
        omega
      have hrun := run_congr
        (fun name q hq hw =>
          lookup_answered (define_answered finish hnames fuel _ hless) name hq hw)
        (fun name q hq hw => lookup_congr (ih _ hless) name hq hw)
        (topLevel d.params d.body) (hp.enter hd hwait hget) (congrArg (d.name :: ·) hwaiting)
      rw [define_succ, Function.iterate_succ_apply', defineBy, defineBy, hrun]

/-- Reads all bodies in turn, whatever would be answered below the given depth. -/
def defineAllWithin (last : Definition → Progress → Answer × Progress) (depth : Nat)
    (finish : Expr → Expr) (definitions : List Definition) (p : Progress) : Progress :=
  definitions.foldl
    (fun p d => (lookup definitions ((defineBy finish definitions)^[depth] last) d.name p).2) p

/-- The block has as many definitions as may have to wait for one another. -/
theorem defineAllWithin_eq (hnames : NewNames functions definitions)
    (last : Definition → Progress → Answer × Progress) (before : List ParseError) :
    defineAllWithin last definitions.length finish definitions ⟨functions, [], [], before⟩ =
      defineAll finish definitions ⟨functions, [], [], before⟩ := by
  have hagree : Agree definitions finish [] (define finish definitions definitions.length)
      ((defineBy finish definitions)^[definitions.length] last) :=
    define_agree hnames.distinct last definitions.length [] (Nat.le_refl _)
  have hfold : ∀ (ds : List Definition) (p : Progress), Sound definitions finish p →
      p.waiting = [] →
      ds.foldl (fun p d =>
        (lookup definitions ((defineBy finish definitions)^[definitions.length] last) d.name p).2)
        p =
      ds.foldl (fun p d =>
        (lookup definitions (define finish definitions definitions.length) d.name p).2) p := by
    intro ds
    induction ds with
    | nil => intro p _ _; rfl
    | cons d ds ih =>
        intro p hp hwaiting
        obtain ⟨hq, hlater⟩ := (lookup_answered
          (define_answered finish hnames.distinct definitions.length [] (Nat.le_refl _)) d.name hp
          hwaiting).later
        rw [List.foldl_cons, List.foldl_cons, ← lookup_congr hagree d.name hp hwaiting]
        exact ih _ hq (hlater.waiting.trans hwaiting)
  exact hfold definitions _ (sound_start finish hnames before) rfl

/-! ### Headers -/

/-- The numbers of the lines that are not blank. -/
def filled (lines : List (String × Nat)) : List Nat :=
  (lines.filter fun entry => !Text.isAllBlank entry.1).map Prod.snd

theorem nodup_filled (block : String) : (filled (numbered block)).Nodup := by
  have hnumbers : ((numbered block).map Prod.snd).Nodup := by
    rw [numbered, List.zipIdx_map_snd]
    exact List.nodup_range'
  exact hnumbers.sublist (List.filter_sublist.map Prod.snd)

/-- The definition stands on one of the lines, as if that were the only one. -/
def OnLine (lines : List (String × Nat)) (d : Definition) : Prop :=
  ∃ text, (text, d.line) ∈ lines ∧ definition? .empty (text, d.line) = some d

/-- The header of a line that is not blank is a definition or an error. -/
theorem headers_outcomes (functions : Registry) (lines : List (String × Nat))
    (before : List Definition) :
    ∃ new, (headers functions before lines).1 = before ++ new ∧
      (new.map Definition.line ++ (headers functions before lines).2.map ParseError.line).Perm
        (filled lines) ∧
      ∀ d ∈ new, OnLine lines d := by
  induction lines generalizing before with
  | nil => exact ⟨[], (List.append_nil before).symm, .refl _, by simp⟩
  | cons entry lines ih =>
      obtain ⟨text, line⟩ := entry
      have hlater : ∀ d, OnLine lines d → OnLine ((text, line) :: lines) d :=
        fun d ⟨text, hmem, hd⟩ => ⟨text, List.mem_cons_of_mem _ hmem, hd⟩
      rw [headers]
      by_cases hblank : Text.isAllBlank text = true
      · obtain ⟨new, hnew, hperm, hlines⟩ := ih before
        rw [if_pos hblank]
        refine ⟨new, hnew, ?_, fun d hd => hlater d (hlines d hd)⟩
        simpa [filled, hblank] using hperm
      · have hfilled : filled ((text, line) :: lines) = line :: filled lines := by
          simp [filled, hblank]
        rw [if_neg hblank, hfilled]
        dsimp only
        cases hheader : header (fun name => functions.contains name ||
            before.any (·.name == name)) line (Token.tokenize text) with
        | error e =>
            obtain ⟨new, hnew, hperm, hlines⟩ := ih before
            obtain ⟨rfl, -⟩ := header_eq_error hheader
            refine ⟨new, hnew, ?_, fun d hd => hlater d (hlines d hd)⟩
            exact List.perm_middle.trans (hperm.cons _)
        | ok d =>
            obtain ⟨new, hnew, hperm, hlines⟩ := ih (before ++ [d])
            obtain ⟨rfl, -⟩ := header_eq_ok hheader
            refine ⟨d :: new, ?_, hperm.cons _, fun d' hd' => ?_⟩
            · rw [hnew, List.append_assoc]
              rfl
            · rcases List.mem_cons.mp hd' with rfl | hd'
              · refine ⟨text, List.mem_cons_self, ?_⟩
                rw [definition?, if_neg hblank, header_of_ok hheader rfl]
                rfl
              · exact hlater d' (hlines d' hd')

/-! ### Bodies -/

variable {added : List (Definition × UserFunction)} {told before : List ParseError}

/-- Of every definition there is a function or an error. -/
theorem Ended.outcomes (h : Ended definitions finish functions before told p)
    (hnames : NewNames functions definitions)
    (hadded : Layers definitions finish functions.functions added)
    (hregistry : p.registry.functions = functions.functions ++ added.map Prod.snd) :
    (added.map (·.1.line) ++ told.map ParseError.line).Perm (definitions.map Definition.line) := by
  have : Nonempty Definition := ⟨⟨"", [], [], 0⟩⟩
  choose! blamed hblamed hfunction hline _ using h.recorded.explained
  have hnames' : (told.map blamed).map Definition.name = p.failed := by
    rw [h.recorded.failed, List.map_map]
    exact List.map_congr_left fun e he => (hfunction e he).symm
  have hlines : (told.map blamed).map Definition.line = told.map ParseError.line := by
    rw [List.map_map]
    exact List.map_congr_left fun e he => (hline e he).symm
  have hread : ∀ d f, (d, f) ∈ added → d ∈ definitions ∧ p.registry.get? d.name = some f := by
    intro d f hmem
    obtain ⟨hd, hget, -⟩ := hadded.read hmem
    rw [← hregistry] at hget
    exact ⟨hd, hget⟩
  -- Both lists are of different names, and every definition is in one of them.
  have hperm : (added.map Prod.fst ++ told.map blamed).Perm definitions := by
    have hdistinct : ((added.map Prod.fst ++ told.map blamed).map Definition.name).Nodup := by
      rw [List.map_append, hnames', List.map_map, List.nodup_append]
      refine ⟨hadded.distinct, h.recorded.distinct, ?_⟩
      rintro name hname _ hfail rfl
      obtain ⟨⟨d, f⟩, hmem, rfl⟩ := List.mem_map.mp hname
      obtain ⟨hd, hget⟩ := hread d f hmem
      rw [Function.comp_apply, h.failed d hd, hget] at hfail
      cases hfail
    refine (List.perm_ext_iff_of_nodup hdistinct.of_map hnames.distinct.of_map).mpr fun d => ?_
    rw [List.mem_append]
    constructor
    · rintro (hmem | hmem)
      · obtain ⟨⟨d', f⟩, hentry, rfl⟩ := List.mem_map.mp hmem
        exact (hread d' f hentry).1
      · obtain ⟨e, he, rfl⟩ := List.mem_map.mp hmem
        exact hblamed e he
    · intro hd
      by_cases hfail : d.name ∈ p.failed
      · right
        rw [← hnames'] at hfail
        obtain ⟨d', hmem, hname⟩ := List.mem_map.mp hfail
        obtain ⟨e, he, rfl⟩ := List.mem_map.mp hmem
        obtain rfl := List.inj_on_of_nodup_map hnames.distinct (hblamed e he) hd hname
        exact List.mem_map_of_mem he
      · left
        rw [h.failed d hd, Registry.get?_eq_none, not_not, Registry.names, hregistry,
          List.map_append, List.mem_append] at hfail
        rcases hfail with hold | hnew
        · exact absurd hold (Registry.contains_eq_false.mp (hnames.new d hd))
        · obtain ⟨f, hf, hname⟩ := List.mem_map.mp hnew
          obtain ⟨⟨d', f'⟩, hmem, rfl⟩ := List.mem_map.mp hf
          obtain ⟨hd', -, body, -, rfl⟩ := hadded.read hmem
          obtain rfl := List.inj_on_of_nodup_map hnames.distinct hd' hd hname
          exact List.mem_map_of_mem hmem
  have hall := hperm.map Definition.line
  rwa [List.map_append, hlines, List.map_map] at hall

/-! ### The whole block -/

/-- Errors of different lines that stand in order are on later and later lines. -/
theorem pairwise_lt_mergeSort {errors : List ParseError}
    (h : (errors.map ParseError.line).Nodup) :
    (errors.mergeSort fun a b => a.line ≤ b.line).Pairwise (·.line < ·.line) := by
  have hsorted : (errors.mergeSort fun a b => a.line ≤ b.line).Pairwise
      fun a b => decide (a.line ≤ b.line) = true := by
    refine List.pairwise_mergeSort (fun a b c hab hbc => ?_) (fun a b => ?_) errors
    · simp only [decide_eq_true_eq] at *
      omega
    · simp only [Bool.or_eq_true, decide_eq_true_eq]
      omega
  have hdistinct : ((errors.mergeSort fun a b => a.line ≤ b.line).map ParseError.line).Nodup :=
    ((List.mergeSort_perm errors _).map ParseError.line).nodup_iff.mpr h
  rw [List.Nodup, List.pairwise_map] at hdistinct
  refine (hsorted.and hdistinct).imp fun {a b} hab => ?_
  simp only [decide_eq_true_eq] at hab
  omega

/-- What became of the lines of a block.  The new functions are given with the numbers of the
lines that they are from. -/
structure Outcomes (block : String) (functions : Registry) (added : List (Nat × UserFunction)) :
    Prop where
  /-- What was there stays where it is, and the new functions come after it. -/
  registry : (parseBlock block functions).1.functions = functions.functions ++ added.map Prod.snd
  /-- A new function is the one that its line declares. -/
  declared : ∀ line f, (line, f) ∈ added → ∃ text d, (text, line) ∈ numbered block ∧
    definition? .empty (text, line) = some d ∧ f.name = d.name ∧ f.params = d.params ∧
    parse (bodyText text d) (parseBlock block functions).1 d.params = .ok f.body
  /-- Of every line that is not blank there is one function or one error, and of no other. -/
  once : (added.map Prod.fst ++ (parseBlock block functions).2.map ParseError.line).Perm
    (filled (numbered block))
  ordered : (parseBlock block functions).2.Pairwise (·.line < ·.line)

theorem header_of_definition? {text : String} {line : Nat} {d : Definition}
    (h : definition? functions (text, line) = some d) :
    header functions.contains line (Token.tokenize text) = .ok d := by
  unfold definition? at h
  dsimp only at h
  by_cases hblank : Text.isAllBlank text = true
  · rw [if_pos hblank] at h
    cases h
  · rw [if_neg hblank] at h
    cases hheader : header functions.contains line (Token.tokenize text) with
    | ok d' =>
        rw [hheader] at h
        rw [Option.some.inj h]
    | error e =>
        rw [hheader] at h
        cases h

/-- Every line of a block has one outcome, nothing else is touched, and reading ends: what would
be answered if more definitions waited for one another than the block has is never asked for. -/
theorem parseBlock_outcomes (block : String) (functions : Registry) :
    (∃ added, Outcomes block functions added) ∧
      let (definitions, errors) := headers functions [] (numbered block)
      ∀ last, defineAllWithin last definitions.length Expr.simplify definitions
          ⟨functions, [], [], errors⟩ =
        defineAll Expr.simplify definitions ⟨functions, [], [], errors⟩ := by
  obtain ⟨new, hnew, hheaders, hlines⟩ := headers_outcomes functions (numbered block) []
  obtain ⟨hnames, -⟩ := headers_spec functions (numbered block) [] ⟨List.nodup_nil, by simp⟩
  obtain ⟨told, hended⟩ := defineAll_ended Expr.simplify hnames
    (headers functions [] (numbered block)).2
  obtain ⟨added, hadded, hregistry⟩ := hended.recorded.grown.layers hnames
  rw [List.nil_append] at hnew
  have hbodies := hended.outcomes hnames hadded hregistry
  refine ⟨⟨added.map fun entry => (entry.1.line, entry.2), ?_⟩,
    fun last => defineAllWithin_eq hnames last _⟩
  have hread : parseBlock block functions =
      let p := defineAll Expr.simplify (headers functions [] (numbered block)).1
        ⟨functions, [], [], (headers functions [] (numbered block)).2⟩
      (p.registry, p.errors.mergeSort fun a b => a.line ≤ b.line) := rfl
  dsimp only at hread
  generalize defineAll Expr.simplify (headers functions [] (numbered block)).1
    ⟨functions, [], [], (headers functions [] (numbered block)).2⟩ = p at *
  have honce : (added.map (·.1.line) ++ p.errors.map ParseError.line).Perm
      (filled (numbered block)) := by
    rw [hended.recorded.errors, List.map_append, ← List.append_assoc]
    refine (hbodies.append_right _).trans ?_
    rw [hnew]
    exact hheaders
  have hdistinct := (List.nodup_append.mp (honce.nodup_iff.mpr (nodup_filled block))).2.1
  refine ⟨?_, ?_, ?_, hread ▸ pairwise_lt_mergeSort hdistinct⟩
  · rw [hread, hregistry, List.map_map]
    rfl
  · intro line f hmem
    rw [hread]
    obtain ⟨⟨d, f'⟩, hentry, heq⟩ := List.mem_map.mp hmem
    obtain ⟨rfl, rfl⟩ := Prod.mk.inj heq
    obtain ⟨hd, -, body, hbody, rfl⟩ := hadded.read hentry
    obtain ⟨text, htext, hdefinition⟩ := hlines d (hnew ▸ hd)
    refine ⟨text, d, htext, hdefinition, rfl, rfl, ?_⟩
    rw [← hregistry] at hbody
    rcases parse_bodyText (header_of_definition? hdefinition) p.registry with
      ⟨e, he, hparse⟩ | ⟨fault, _, hfault, -⟩
    · obtain rfl : e = body := Except.ok.inj (he.symm.trans hbody)
      exact hparse
    · cases hfault.symm.trans hbody
  · rw [hread, List.map_map]
    exact (((List.mergeSort_perm p.errors _).map ParseError.line).append_left _).trans honce

end FormulaPlot.Parser
