/-
Blocks that are written down and read again.

The functions that a block defines are written as another block, one on each line and in the
order of the registry.  Reading that block gives the same functions in the same order, except
those whose lines are nested too deeply and those that call a function that is left out.

A function stands behind those that it calls.  So when its line is read, every function that
it calls has been read before or has failed, and no line is read early.  What one line does
is `Retold.line`, and the block is an induction on its lines.
-/
import FormulaPlot.Proofs.Parser.Outcome
import FormulaPlot.Proofs.Parser.Restating

namespace FormulaPlot

/-! ### Lines -/

namespace Text

/-- A line ends at its newline. -/
theorem pieces_line {line : List Char} (h : ∀ c ∈ line, c ≠ '\n') (cs : List Char) :
    pieces (line ++ '\n' :: cs) = line :: pieces cs := by
  induction line with
  | nil => simp [pieces]
  | cons c line ih =>
      obtain ⟨hc, hline⟩ := List.forall_mem_cons.mp h
      rw [List.cons_append, pieces, if_neg hc, ih hline]

theorem pieces_flatMap {lines : List (List Char)} (h : ∀ line ∈ lines, ∀ c ∈ line, c ≠ '\n')
    (cs : List Char) : pieces (lines.flatMap (· ++ ['\n']) ++ cs) = lines ++ pieces cs := by
  induction lines with
  | nil => rfl
  | cons line lines ih =>
      obtain ⟨hline, hlines⟩ := List.forall_mem_cons.mp h
      rw [List.flatMap_cons, List.append_assoc, List.append_assoc, List.singleton_append,
        pieces_line hline, ih hlines, List.cons_append]

theorem dropReturn_eq {line : List Char} (h : ∀ c ∈ line, c ≠ '\r') : dropReturn line = line := by
  unfold dropReturn
  rw [if_neg]
  intro hlast
  exact h '\r' (List.mem_of_getLast? hlast) rfl

/-- Texts of one line, each ended, are the lines of what they are together. -/
theorem lines_join {texts : List String}
    (h : ∀ text ∈ texts, ∀ c ∈ text.toList, c ≠ '\n' ∧ c ≠ '\r') :
    lines (String.join (texts.map (· ++ "\n"))) = texts := by
  have hjoin : (String.join (texts.map (· ++ "\n"))).toList =
      (texts.map String.toList).flatMap (· ++ ['\n']) := by
    rw [String.toList_join, List.flatMap_map, List.flatMap_map]
    simp
  have hpieces : pieces ((texts.map String.toList).flatMap (· ++ ['\n'])) =
      texts.map String.toList ++ [[]] := by
    rw [← List.append_nil (List.flatMap _ _), pieces_flatMap ?_ []]
    · rfl
    · intro line hline c hc
      obtain ⟨text, htext, rfl⟩ := List.mem_map.mp hline
      exact (h text htext c hc).1
  have hreturn : (texts.map String.toList).map dropReturn = texts.map String.toList := by
    rw [List.map_map]
    refine List.map_congr_left fun text htext => ?_
    exact dropReturn_eq fun c hc => (h text htext c hc).2
  unfold lines
  rw [hjoin, hpieces]
  simp [hreturn, Function.comp_def]

end Text

namespace Parser

open Inquiry (Gives Honest)

/-- Functions as a block of definitions. -/
def listing (fs : List UserFunction) : String := String.join (fs.map fun f => f.text ++ "\n")

variable {fs done rest : List UserFunction} {f g : UserFunction} {definitions : List Definition}
  {d : Definition} {finish : Expr → Expr} {p : Progress}

theorem Orderly.line_text (h : Orderly fs) (hshadow : ∀ f ∈ fs, Unshadowed f) :
    ∀ f ∈ fs, (∀ c ∈ f.text.toList, c ≠ '\n' ∧ c ≠ '\r') ∧ Text.isAllBlank f.text = false := by
  intro f hf
  obtain ⟨before, after, hsplit⟩ := List.mem_iff_append.mp hf
  exact (h.standing hsplit).line_text (hshadow f hf)

/-- The lines of a listing are the texts of the functions. -/
theorem Orderly.numbered_listing (h : Orderly fs) (hshadow : ∀ f ∈ fs, Unshadowed f) :
    numbered (listing fs) = (fs.zipIdx 1).map fun entry => (entry.1.text, entry.2) := by
  have hlines : Text.lines (listing fs) = fs.map UserFunction.text := by
    have htexts : ∀ text ∈ fs.map UserFunction.text, ∀ c ∈ text.toList, c ≠ '\n' ∧ c ≠ '\r' := by
      intro text htext
      obtain ⟨f, hf, rfl⟩ := List.mem_map.mp htext
      exact (h.line_text hshadow f hf).1
    have hjoin := Text.lines_join htexts
    rwa [List.map_map] at hjoin
  rw [numbered, hlines, List.zipIdx_map]
  rfl

/-! ### The headers of a listing -/

/-- There is a definition for each line, and it says what the function is. -/
def AllRestate (entries : List (UserFunction × Nat)) (definitions : List Definition) : Prop :=
  List.Forall₂ (fun entry d => Restates entry.1 entry.2 d) entries definitions

theorem AllRestate.names {entries : List (UserFunction × Nat)}
    (h : AllRestate entries definitions) :
    definitions.map Definition.name = entries.map (·.1.name) := by
  induction h with
  | nil => rfl
  | cons hd _ ih => rw [List.map_cons, List.map_cons, hd.name, ih]

/-- Every line of a listing has a header, with a name that no line before has. -/
theorem Orderly.headers_listing (h : Orderly fs) (hshadow : ∀ f ∈ fs, Unshadowed f)
    (hfs : fs = done ++ rest) {before : List Definition}
    (hbefore : before.map Definition.name = done.map (·.name)) (line : Nat) :
    ∃ new, headers .empty before ((rest.zipIdx line).map fun entry => (entry.1.text, entry.2)) =
        (before ++ new, []) ∧
      AllRestate (rest.zipIdx line) new := by
  induction rest generalizing done before line with
  | nil => exact ⟨[], by simp [headers], .nil⟩
  | cons f rest ih =>
      have hf : f ∈ fs := by simp [hfs]
      have hstanding := h.standing hfs
      have hblank := (h.line_text hshadow f hf).2
      let taken := fun name => Registry.empty.contains name || before.any (·.name == name)
      have hnew : taken f.name = false := by
        show (Registry.empty.contains f.name || before.any (·.name == f.name)) = false
        rw [Bool.or_eq_false_iff, List.any_eq_false]
        refine ⟨rfl, fun d hd heq => hstanding.new ?_⟩
        rw [← hbefore, ← beq_iff_eq.mp heq]
        exact List.mem_map_of_mem hd
      obtain ⟨d, hheader, hd⟩ := hstanding.restated (hshadow f hf) hnew line
      have hnames : (before ++ [d]).map Definition.name = (done ++ [f]).map (·.name) := by
        simp [hbefore, hd.name]
      obtain ⟨new, hheaders, hall⟩ := ih (by simp [hfs]) hnames (line + 1)
      refine ⟨d :: new, ?_, .cons hd hall⟩
      rw [List.zipIdx_cons, List.map_cons, headers, if_neg (by simp [hblank])]
      simp only [taken] at hheader
      simp only [hheader, hheaders, List.append_assoc, List.singleton_append]

/-! ### Reading a body -/

/-- Somebody answers like a registry, except that some functions are said to have errors.  Then
the reading has its value, or is nested too deeply, or it asked for one of those functions. -/
theorem run_of_gives {α σ : Type} {answer : String → σ → Answer × σ} {s : σ} {r : Registry}
    (hanswer : ∀ name g, r.get? name = some g →
      answer name s = (.found g, s) ∨ answer name s = (.invalid, s))
    {m : Inquiry α} (hm : m.Honest) {a : α} (h : Gives r m a) :
    m.run answer s = (.ok a, s) ∨ (∃ column, m.run answer s = (.error ⟨.tooDeep, column⟩, s)) ∨
      ∃ name g column, r.get? name = some g ∧ answer name s = (.invalid, s) ∧
        m.run answer s = (.error ⟨.calleeHasErrors name, column⟩, s) := by
  unfold Gives at h
  induction hm with
  | @done result own =>
      rcases h with h | ⟨column, h⟩
      · exact .inl (congrArg (·, s) h)
      · exact .inr (.inl ⟨column, congrArg (·, s) h⟩)
  | @ask name column next found other ih =>
      rw [Inquiry.run]
      cases hget : r.get? name with
      | none =>
          -- The registry does not have the function, so the reading would have failed.
          have hmissing : (Inquiry.ask name next).against r =
              .error ⟨.unknownFunction name, column⟩ := by
            rw [Inquiry.against, hget, other .missing _ rfl]
            rfl
          rw [hmissing] at h
          simp at h
      | some g =>
          have hnext : (Inquiry.ask name next).against r = (next (.found g)).against r := by
            rw [Inquiry.against, hget]
          rw [hnext] at h
          rcases hanswer name g hget with hfound | hinvalid
          · rw [hfound]
            exact ih g h
          · rw [hinvalid, other .invalid _ rfl]
            exact .inr (.inr ⟨name, g, column, hget, hinvalid, rfl⟩)

/-! ### Reading a line -/

/-- The function is left out.  Its line is nested too deeply, or it calls a function that is left
out, and the error on its line says so. -/
inductive Lost (fs : List UserFunction) (errors : List ParseError) : UserFunction → Prop
  | deep {f : UserFunction} {line column : Nat} (hline : (f, line) ∈ fs.zipIdx 1)
      (herror : ⟨.tooDeep, f.name, line, column⟩ ∈ errors) : Lost fs errors f
  | depends {f g : UserFunction} {line column : Nat} (hline : (f, line) ∈ fs.zipIdx 1)
      (hg : g ∈ f.body.callees) (hlost : Lost fs errors g)
      (herror : ⟨.calleeHasErrors g.name, f.name, line, column⟩ ∈ errors) : Lost fs errors f

theorem Lost.mono {errors errors' : List ParseError} (h : Lost fs errors f)
    (hmore : ∀ e ∈ errors, e ∈ errors') : Lost fs errors' f := by
  induction h with
  | deep hline herror => exact .deep hline (hmore _ herror)
  | depends hline hg _ herror ih => exact .depends hline hg ih (hmore _ herror)

/-- What is known when the lines of some functions have been read. -/
structure Retold (fs done : List UserFunction) (p : Progress) : Prop where
  kept : p.registry.functions.Sublist done
  waiting : p.waiting = []
  failed : ∀ name ∈ p.failed, name ∈ done.map (·.name)
  lost : ∀ f ∈ done, f ∉ p.registry.functions → f.name ∈ p.failed ∧ Lost fs p.errors f

/-- A function that was kept is found, and one that was lost is not. -/
theorem Retold.get? (h : Retold fs done p) (hdistinct : (done.map (·.name)).Nodup) (hf : f ∈ done) :
    p.registry.get? f.name = some f ∨
      p.registry.get? f.name = none ∧ f.name ∈ p.failed ∧ Lost fs p.errors f := by
  cases hget : p.registry.get? f.name with
  | some g =>
      obtain ⟨hg, hname⟩ := Registry.mem_of_get? hget
      obtain rfl := List.inj_on_of_nodup_map hdistinct (h.kept.subset hg) hf hname
      exact .inl rfl
  | none =>
      have hno : f ∉ p.registry.functions := fun hmem =>
        Registry.get?_eq_none.mp hget (List.mem_map_of_mem hmem)
      exact .inr ⟨rfl, h.lost f hf hno⟩

/-- A function that has been read before is answered at once. -/
theorem Retold.lookup (hp : Retold fs done p) (hdistinct : (done.map (·.name)).Nodup)
    (hg : g ∈ done) (hmem : g.name ∈ definitions.map Definition.name) {waiting : List String}
    (hwait : g.name ∉ waiting) (define : Definition → Progress → Answer × Progress) :
    let q := { p with waiting := waiting }
    Parser.lookup definitions define g.name q = (.found g, q) ∨
      Parser.lookup definitions define g.name q = (.invalid, q) ∧ Lost fs p.errors g := by
  intro q
  have hlooked := looked definitions define g.name q
  generalize Parser.lookup definitions define g.name q = x at hlooked ⊢
  rcases hp.get? hdistinct hg with hfound | ⟨hnone, hfailed, hlost⟩
  · cases hlooked with
    | found hget =>
        obtain rfl := Option.some.inj (hfound.symm.trans hget)
        exact .inl rfl
    | missing hget | recursive hget | invalid hget | define hget => cases hfound.symm.trans hget
  · cases hlooked with
    | found hget => cases hnone.symm.trans hget
    | missing _ hno => exact absurd hmem hno
    | recursive _ _ hwait' => exact absurd hwait' hwait
    | invalid => exact .inr ⟨rfl, hlost⟩
    | define _ _ _ _ hfail => exact absurd hfailed hfail

/-- The function is added at the end. -/
theorem Retold.keep (hp : Retold fs done p) (hnew : f.name ∉ done.map (·.name)) :
    Retold fs (done ++ [f]) { p with registry := p.registry.insert f } := by
  have hfresh : f.name ∉ p.registry.functions.map (·.name) := fun hmem =>
    hnew ((hp.kept.map _).subset hmem)
  have hinsert : (p.registry.insert f).functions = p.registry.functions ++ [f] :=
    Registry.place_of_new hfresh
  refine ⟨?_, hp.waiting, fun name hname => ?_, fun g hg hno => ?_⟩
  · rw [hinsert]
    exact hp.kept.append (List.Sublist.refl [f])
  · rw [List.map_append]
    exact List.mem_append_left _ (hp.failed name hname)
  · rw [hinsert, List.mem_append, not_or] at hno
    rcases List.mem_append.mp hg with hg | hg
    · exact hp.lost g hg hno.1
    · exact absurd hg hno.2

/-- The function is left out, for a reason that has been reported. -/
theorem Retold.refuse (hp : Retold fs done p) {e : ParseError} (hlost : Lost fs (e :: p.errors) f) :
    Retold fs (done ++ [f]) { p with failed := f.name :: p.failed, errors := e :: p.errors } := by
  refine ⟨?_, hp.waiting, fun name hname => ?_, fun g hg hno => ?_⟩
  · exact hp.kept.trans (List.sublist_append_left done [f])
  · rw [List.map_append, List.mem_append]
    rcases List.mem_cons.mp hname with rfl | hname
    · exact .inr (by simp)
    · exact .inl (hp.failed name hname)
  · rcases List.mem_append.mp hg with hg | hg
    · obtain ⟨hfailed, hlost⟩ := hp.lost g hg hno
      exact ⟨List.mem_cons_of_mem _ hfailed, hlost.mono fun e he => List.mem_cons_of_mem _ he⟩
    · obtain rfl := List.mem_singleton.mp hg
      exact ⟨List.mem_cons_self, hlost⟩

/-- A definition that is not known yet is read. -/
theorem Retold.lookup_new (hp : Retold fs done p) (hnames : (definitions.map Definition.name).Nodup)
    (hd : d ∈ definitions) (hnew : d.name ∉ done.map (·.name))
    (define : Definition → Progress → Answer × Progress) :
    Parser.lookup definitions define d.name p = define d p := by
  have hget : p.registry.get? d.name = none := by
    rw [Registry.get?_eq_none]
    exact fun hmem => hnew ((hp.kept.map _).subset hmem)
  have hlooked := looked definitions define d.name p
  generalize Parser.lookup definitions define d.name p = x at hlooked ⊢
  cases hlooked with
  | found hget' => cases hget.symm.trans hget'
  | missing _ hno => exact absurd (List.mem_map_of_mem hd) hno
  | recursive _ _ hwait => exact absurd (hp.waiting ▸ hwait) List.not_mem_nil
  | invalid _ _ _ hfail => exact absurd (hp.failed d.name hfail) hnew
  | define _ hd' hname => rw [List.inj_on_of_nodup_map hnames hd' hd hname]

/-- A line adds its function, or there is an error that says why not. -/
theorem Retold.line (hp : Retold fs done p) (hdistinct : (done.map (·.name)).Nodup)
    (hf : Standing done f) {line : Nat} (hline : (f, line) ∈ fs.zipIdx 1)
    (hnames : (definitions.map Definition.name).Nodup)
    (hdone : ∀ g ∈ done, g.name ∈ definitions.map Definition.name) (hd : d ∈ definitions)
    (hrestates : Restates f line d) (fuel : Nat) :
    Retold fs (done ++ [f])
      (Parser.lookup definitions (define Expr.simplify definitions (fuel + 1)) d.name p).2 := by
  have hnew : d.name ∉ done.map (·.name) := hrestates.name ▸ hf.new
  -- Whatever the body calls has been read before this line.
  have hcallee : ∀ name g, (callees f).get? name = some g →
      let q := { p with waiting := d.name :: p.waiting }
      Parser.lookup definitions (define Expr.simplify definitions fuel) name q = (.found g, q) ∨
        Parser.lookup definitions (define Expr.simplify definitions fuel) name q = (.invalid, q) ∧
          Lost fs p.errors g := by
    intro name g hg
    obtain ⟨-, rfl, hbefore⟩ := hf.get?_callees hg
    obtain ⟨hgdone, -⟩ := Registry.mem_of_get? hbefore
    refine hp.lookup hdistinct hgdone (hdone g hgdone) ?_ _
    rw [hp.waiting, List.mem_singleton]
    intro heq
    exact hnew (heq ▸ List.mem_map_of_mem hgdone)
  obtain ⟨again, hgives, hbody⟩ := hrestates.body
  have hrun := run_of_gives (fun name g hg => (hcallee name g hg).imp_right And.left)
    (honest_topLevel d.params d.body) hgives
  rw [hp.lookup_new hnames hd hnew, define_succ, defineBy]
  obtain ⟨dname, dparams, dbody, dline⟩ := d
  obtain ⟨rfl, rfl, rfl, -⟩ := hrestates
  rcases hrun with hrun | ⟨column, hrun⟩ | ⟨name, g, column, hg, hinvalid, hrun⟩
  · rw [hrun]
    dsimp only
    rw [hbody]
    exact hp.keep hf.new
  · rw [hrun]
    exact hp.refuse (.deep hline List.mem_cons_self)
  · rw [hrun]
    obtain ⟨hmem, rfl, -⟩ := hf.get?_callees hg
    rcases hcallee _ g hg with hfound | ⟨-, hlost⟩
    · cases hfound.symm.trans hinvalid
    · refine hp.refuse (.depends hline hmem ?_ List.mem_cons_self)
      exact hlost.mono fun e he => List.mem_cons_of_mem _ he

/-! ### Reading the block -/

theorem retold_foldl (h : Orderly fs) (hfs : fs = done ++ rest)
    (hnames : (definitions.map Definition.name).Nodup)
    (hall : ∀ g ∈ fs, g.name ∈ definitions.map Definition.name) {ds : List Definition}
    (hds : ∀ d ∈ ds, d ∈ definitions)
    (hrestate : AllRestate (rest.zipIdx (1 + done.length)) ds) (hp : Retold fs done p) :
    Retold fs fs (ds.foldl (fun p d =>
      (Parser.lookup definitions (define Expr.simplify definitions definitions.length) d.name p).2)
      p) := by
  induction rest generalizing done ds p with
  | nil =>
      rw [List.append_nil] at hfs
      subst hfs
      cases hrestate
      exact hp
  | cons f rest ih =>
      have hline : (f, 1 + done.length) ∈ fs.zipIdx 1 := by
        rw [hfs, List.zipIdx_append, List.zipIdx_cons]
        exact List.mem_append_right _ List.mem_cons_self
      have hdone : ∀ g ∈ done, g ∈ fs := fun g hg => hfs ▸ List.mem_append_left _ hg
      have hdistinct : (done.map (·.name)).Nodup :=
        h.distinct.sublist ((hfs ▸ List.sublist_append_left done (f :: rest)).map _)
      have hsplit : fs = (done ++ [f]) ++ rest := by simp [hfs]
      have hnext : 1 + (done ++ [f]).length = 1 + done.length + 1 := by simp [Nat.add_assoc]
      rw [List.zipIdx_cons] at hrestate
      cases hrestate with
      | @cons _ d _ ds hd hrest =>
          obtain ⟨hmem, hds⟩ := List.forall_mem_cons.mp hds
          obtain ⟨fuel, hfuel⟩ := Nat.exists_eq_succ_of_ne_zero (List.length_pos_of_mem hmem).ne'
          have hstep := hp.line hdistinct (h.standing hfs) hline hnames
            (fun g hg => hall g (hdone g hg)) hmem hd fuel
          rw [← Nat.succ_eq_add_one, ← hfuel] at hstep
          rw [← hnext] at hrest
          rw [List.foldl_cons]
          exact ih hsplit hds hrest hstep

/-- What comes of functions that are listed.  Those that are there again have the names, the
parameters and the bodies that they had, and are in the same order. -/
structure Relisted (fs : List UserFunction) (again : Registry) (errors : List ParseError) :
    Prop where
  kept : again.functions.Sublist fs
  lost : ∀ f ∈ fs, f ∉ again.functions → Lost fs errors f

theorem Orderly.relisted (h : Orderly fs) (hshadow : ∀ f ∈ fs, Unshadowed f) :
    Relisted fs (Parser.parseBlock (listing fs) .empty).1
      (Parser.parseBlock (listing fs) .empty).2 := by
  have hnone : ([] : List Definition).map Definition.name = ([] : List UserFunction).map (·.name) :=
    rfl
  obtain ⟨definitions, hheaders, hall⟩ :=
    h.headers_listing hshadow (List.nil_append fs).symm hnone 1
  rw [List.nil_append, ← h.numbered_listing hshadow] at hheaders
  have hmap : definitions.map Definition.name = fs.map (·.name) := by
    have hfst : (fs.zipIdx 1).map (·.1.name) = ((fs.zipIdx 1).map Prod.fst).map (·.name) :=
      (List.map_map ..).symm
    rw [hall.names, hfst, List.zipIdx_map_fst]
  have hnames : (definitions.map Definition.name).Nodup := hmap ▸ h.distinct
  have hmem : ∀ g ∈ fs, g.name ∈ definitions.map Definition.name := fun g hg =>
    hmap ▸ List.mem_map_of_mem hg
  have hstart : Retold fs [] ⟨.empty, [], [], []⟩ := ⟨.slnil, rfl, by simp, by simp⟩
  have hread : Parser.parseBlock (listing fs) .empty =
      let p := defineAll Expr.simplify (headers .empty [] (numbered (listing fs))).1
        ⟨.empty, [], [], (headers .empty [] (numbered (listing fs))).2⟩
      (p.registry, p.errors.mergeSort fun a b => a.line ≤ b.line) := rfl
  have hend : Retold fs fs (defineAll Expr.simplify definitions ⟨.empty, [], [], []⟩) :=
    retold_foldl h (List.nil_append fs).symm hnames hmem (fun _ hd => hd) hall hstart
  rw [hread, hheaders]
  refine ⟨hend.kept, fun f hf hno => ?_⟩
  exact (hend.lost f hf hno).2.mono fun e he => List.mem_mergeSort.mpr he

/-- The functions that a block defines are written as a block of their own, one on each line and
in their order.  Reading it again gives the same functions in the same order, with the same
parameters and the same bodies.  Left out are only functions whose lines are nested too deeply,
and those that call a function which is left out.  This is so if no infinite number is written
as a name that a parameter has. -/
theorem parseBlock_listing (block : String)
    (hshadow : ∀ f ∈ (parseBlock block .empty).1.functions, Unshadowed f) :
    let fs := (parseBlock block .empty).1.functions
    let again := parseBlock (listing fs) .empty
    Relisted fs again.1 again.2 :=
  (Orderly.parseBlock .nil block).relisted hshadow

/-- The body that was read first stands first, and an infinite number in the other is no
parameter. -/
theorem parseBlock_listing_forward_call :
    let fs := (parseBlock "g(x) = f(x) + 1/0\nf(t) = -1.5 * t" .empty).1.functions
    let again := parseBlock (listing fs) .empty
    listing fs = "f(t) = -1.5 * t\ng(x) = f(x) + inf\n" ∧ (∀ f ∈ fs, Unshadowed f) ∧
      Relisted fs again.1 again.2 := by
  have hshadow : ∀ f ∈ (parseBlock "g(x) = f(x) + 1/0\nf(t) = -1.5 * t" .empty).1.functions,
      Unshadowed f := by
    decide +kernel
  exact ⟨by decide +kernel, hshadow, parseBlock_listing _ hshadow⟩

/-- A parameter can have the name that an infinite number is written as.  Then the function that
is read again gives back its argument, and there is no error. -/
theorem parseBlock_listing_shadowed :
    let fs := (parseBlock "f(inf) = 1/0" .empty).1.functions
    let again := parseBlock (listing fs) .empty
    listing fs = "f(inf) = inf\n" ∧ fs.map (·.name) = ["f"] ∧ again.2 = [] ∧
      again.1.names = ["f"] ∧
      ∀ f ∈ fs, ∀ f' ∈ again.1.functions, f'.body.isEquivalent f.body = false := by
  decide +kernel

end Parser

end FormulaPlot
