/-
The viewport of a session.

Only the window command changes it, and it does so in one go.  The command asks for five numbers,
one after the other, and works on a draft; the session keeps the old viewport until the last
answer, and a wrong answer gives up the draft.  What comes of the command is therefore one of
four things, `Windowed`: all values are stored, or they are rejected together, or one of them is
refused, or the command still waits for an answer.  In the last three the document and the
viewport are what they were.

That the viewport is always valid follows from this: a session starts with a valid one, and a
step that changes it has checked the new one.
-/
import FormulaPlot.Proofs.Curve.Termination
import FormulaPlot.Session.Run

namespace FormulaPlot

/-! ### Valid viewports -/

/-- The scale is positive and the size is not negative. -/
structure Viewport.Valid (v : Viewport Float) : Prop where
  scale : 0 < v.scale
  width : 0 ≤ v.width
  height : 0 ≤ v.height

variable {v draft w : Viewport Float}

theorem Viewport.valid_iff : v.Valid ↔ ViewportFault.of? v = none := by
  rw [Curve.fault_eq_none]
  show v.Valid ↔ decide (0 < v.scale) = true ∧ decide (0 ≤ v.width) = true ∧
    decide (0 ≤ v.height) = true
  rw [decide_eq_true_iff, decide_eq_true_iff, decide_eq_true_iff]
  exact ⟨fun h => ⟨h.scale, h.width, h.height⟩, fun h => ⟨h.1, h.2.1, h.2.2⟩⟩

/-- What is compared with zero is a number. -/
theorem not_nan_of_compared {x : Float} (h : 0 < x ∨ 0 ≤ x) : x.isNaN = false := by
  rw [← Bool.not_eq_true]
  intro hnan
  rw [eq_nan hnan] at h
  exact absurd h (by decide)

theorem Viewport.Valid.not_nan (h : v.Valid) :
    v.scale.isNaN = false ∧ v.width.isNaN = false ∧ v.height.isNaN = false :=
  ⟨not_nan_of_compared (.inl h.scale), not_nan_of_compared (.inr h.width),
    not_nan_of_compared (.inr h.height)⟩

/-! ### The numbers of a viewport -/

namespace Dimension

variable {d d' : Dimension} {x : Float} {answer : String}

theorem get_set (d : Dimension) (v : Viewport Float) (x : Float) : d.get (d.set v x) = x := by
  cases d <;> rfl

theorem get_set_of_ne (h : d' ≠ d) (v : Viewport Float) (x : Float) :
    d'.get (d.set v x) = d'.get v := by
  cases d <;> cases d' <;> first | rfl | exact absurd rfl h

/-- This number and those that are asked for after it. -/
def onwards : Dimension → List Dimension
  | scale => [scale, originX, originY, width, height]
  | originX => [originX, originY, width, height]
  | originY => [originY, width, height]
  | width => [width, height]
  | height => [height]

theorem onwards_eq (d : Dimension) : d.onwards = d :: (d.next?.map onwards).getD [] := by
  cases d <;> rfl

theorem nodup_onwards (d : Dimension) : d.onwards.Nodup := by
  cases d <;> decide

/-- An answer leads from the value there is to another: a blank one keeps it. -/
inductive Entered (old : Float) (answer : String) : Float → Prop
  | kept (hblank : (Text.trim answer).isEmpty = true) : Entered old answer old
  | read {x : Float} (hblank : (Text.trim answer).isEmpty = false)
      (hread : Decimal.readReal (Text.trim answer) = .ok x) : Entered old answer x

/-- An answer that is not blank and no number. -/
def Refused (answer : String) : Prop :=
  (Text.trim answer).isEmpty = false ∧ ∃ r, Decimal.readReal (Text.trim answer) = .error r

/-- The draft after an answer; none if the answer is refused. -/
def enter (draft : Viewport Float) (entry : Dimension × String) : Option (Viewport Float) :=
  if (Text.trim entry.2).isEmpty then some draft
  else match Decimal.readReal (Text.trim entry.2) with
    | .ok x => some (entry.1.set draft x)
    | .error _ => none

/-- An answer is refused, or it is entered and changes no other value. -/
theorem enter_cases (draft : Viewport Float) (d : Dimension) (answer : String) :
    (Refused answer ∧ enter draft (d, answer) = none) ∨
      ∃ w, enter draft (d, answer) = some w ∧ Entered (d.get draft) answer (d.get w) ∧
        ∀ d' ≠ d, d'.get w = d'.get draft := by
  unfold enter
  dsimp only
  cases hblank : (Text.trim answer).isEmpty with
  | true => exact .inr ⟨draft, rfl, .kept hblank, fun _ _ => rfl⟩
  | false =>
      rw [if_neg Bool.false_ne_true]
      cases hread : Decimal.readReal (Text.trim answer) with
      | error r => exact .inl ⟨⟨hblank, r, hread⟩, rfl⟩
      | ok x =>
          refine .inr ⟨d.set draft x, rfl, ?_, fun d' hd' => get_set_of_ne hd' draft x⟩
          rw [get_set]
          exact .read hblank hread

theorem refused_of_foldlM {entries : List (Dimension × String)}
    (h : entries.foldlM enter draft = none) : ∃ entry ∈ entries, Refused entry.2 := by
  induction entries generalizing draft with
  | nil => cases h
  | cons entry entries ih =>
      rw [List.foldlM_cons] at h
      rcases enter_cases draft entry.1 entry.2 with ⟨hrefused, -⟩ | ⟨next, hnext, -⟩
      · exact ⟨entry, List.mem_cons_self, hrefused⟩
      · rw [hnext] at h
        obtain ⟨entry', hentry', hrefused⟩ := ih h
        exact ⟨entry', List.mem_cons_of_mem _ hentry', hrefused⟩

/-- Answers to different questions are entered side by side. -/
theorem entered_of_foldlM {ds : List Dimension} {answers : List String} (hds : ds.Nodup)
    (h : (ds.zip answers).foldlM enter draft = some w) :
    (∀ entry ∈ ds.zip answers, Entered (entry.1.get draft) entry.2 (entry.1.get w)) ∧
      ∀ d ∉ ds, d.get w = d.get draft := by
  induction ds generalizing draft answers with
  | nil =>
      cases h
      exact ⟨fun _ hentry => (by cases hentry), fun _ _ => rfl⟩
  | cons d ds ih =>
      cases answers with
      | nil =>
          cases h
          exact ⟨fun _ hentry => (by cases hentry), fun _ _ => rfl⟩
      | cons answer answers =>
          obtain ⟨hd, hds⟩ := List.nodup_cons.mp hds
          rw [List.zip_cons_cons, List.foldlM_cons] at h
          rcases enter_cases draft d answer with ⟨-, hnone⟩ | ⟨next, hnext, hentered, hkept⟩
          · rw [hnone] at h
            cases h
          rw [hnext] at h
          obtain ⟨hlater, hothers⟩ := ih hds h
          refine ⟨?_, fun d' hd' => ?_⟩
          · rw [List.zip_cons_cons]
            refine List.forall_mem_cons.mpr ⟨?_, fun entry hentry => ?_⟩
            · -- The later answers are to other questions.
              rw [hothers d hd]
              exact hentered
            · have hne : entry.1 ≠ d := by
                rintro rfl
                exact hd (List.of_mem_zip hentry).1
              rw [← hkept entry.1 hne]
              exact hlater entry hentry
          · obtain ⟨hne, hnot⟩ := not_or.mp (mt List.mem_cons.mpr hd')
            rw [hothers d' hnot, hkept d' hne]

end Dimension

/-- The next line answers a question about the viewport. -/
def Mode.IsResizing : Mode → Prop
  | .resizing _ _ => True
  | _ => False

namespace Session

open Dimension (Entered Refused enter)

variable {s : Session} {around : Surroundings} {input : String} {d : Dimension}

/-! ### The window command -/

/-- The lines that a command takes, up to the one that ends it. -/
def dialogue (around : Surroundings) (s : Session) : List String → Session
  | [] => s
  | input :: inputs =>
    let next := (s.step around input).1
    match next.mode with
    | .command => next
    | _ => next.dialogue around inputs

theorem dialogue_end {next : Session} (h : (s.step around input).1 = next)
    (hmode : next.mode = .command) (inputs : List String) :
    s.dialogue around (input :: inputs) = next := by
  rw [dialogue]
  simp only [h, hmode]

theorem dialogue_more {next : Session} (h : (s.step around input).1 = next)
    (hmode : next.mode ≠ .command) (inputs : List String) :
    s.dialogue around (input :: inputs) = next.dialogue around inputs := by
  rw [dialogue]
  simp only [h]

theorem resize_cases (s : Session) (w : Viewport Float) :
    w.Valid ∧ (s.resize w).1 = { s with viewport := w, mode := .command } ∨
      ¬ w.Valid ∧ (s.resize w).1 = { s with mode := .command } := by
  rw [Viewport.valid_iff]
  unfold resize
  cases ViewportFault.of? w with
  | none => exact .inl ⟨rfl, rfl⟩
  | some fault => cases fault <;> exact .inr ⟨nofun, rfl⟩

theorem resize_mode (s : Session) (w : Viewport Float) : (s.resize w).1.mode = .command := by
  rcases s.resize_cases w with ⟨-, hresize⟩ | ⟨-, hresize⟩ <;> rw [hresize]

/-- What an answer to a question about the viewport leads to. -/
theorem step_resizing (hmode : s.mode = .resizing d draft) (around : Surroundings)
    (input : String) : (s.step around input).1 =
      match enter draft (d, input) with
      | none => { s with mode := .command }
      | some w =>
        match d.next? with
        | none => (s.resize w).1
        | some d' => { s with mode := .resizing d' w } := by
  have htake : s.step around input = s.takeDimension d draft (Text.trim input) := by
    unfold step
    rw [hmode]
  rw [htake, takeDimension, enter]
  dsimp only
  by_cases hblank : (Text.trim input).isEmpty = true
  · rw [if_pos hblank, if_pos hblank]
    cases d.next? <;> rfl
  · rw [if_neg hblank, if_neg hblank]
    cases Decimal.readReal (Text.trim input) with
    | error r => rfl
    | ok x => cases d.next? <;> rfl

/-- The answers to the questions from one on, as long as there are any.  Nothing is stored before
the last of them. -/
theorem dialogue_resizing (around : Surroundings) (hmode : s.mode = .resizing d draft)
    (answers : List String) :
    match (d.onwards.zip answers).foldlM enter draft with
    | none => s.dialogue around answers = { s with mode := .command }
    | some w =>
      if d.onwards.length ≤ answers.length then s.dialogue around answers = (s.resize w).1
      else ∃ mode ≠ Mode.command, s.dialogue around answers = { s with mode := mode } := by
  induction answers generalizing s d draft with
  | nil =>
      have hfew : ¬ d.onwards.length ≤ ([] : List String).length := by
        rw [d.onwards_eq]
        simp
      rw [List.zip_nil_right, List.foldlM_nil]
      show if _ then _ else _
      rw [if_neg hfew]
      refine ⟨s.mode, ?_, rfl⟩
      rw [hmode]
      exact nofun
  | cons answer answers ih =>
      have hstep := step_resizing hmode around answer
      rw [d.onwards_eq, List.zip_cons_cons, List.foldlM_cons]
      cases henter : enter draft (d, answer) with
      | none =>
          rw [henter] at hstep
          exact dialogue_end hstep rfl answers
      | some w =>
          rw [henter] at hstep
          dsimp only at hstep
          rw [Option.bind_eq_bind, Option.bind_some]
          cases hnext : d.next? with
          | none =>
              rw [hnext] at hstep
              exact dialogue_end hstep (s.resize_mode w) answers
          | some d' =>
              rw [hnext] at hstep
              have hmode' : ({ s with mode := .resizing d' w } : Session).mode ≠ .command := nofun
              have hih := ih (s := { s with mode := .resizing d' w }) rfl
              rw [dialogue_more hstep hmode']
              simp only [Option.map_some, Option.getD_some, List.length_cons,
                Nat.add_le_add_iff_right]
              exact hih

/-- The user asks for the window command. -/
def AsksForWindow (input : String) : Prop :=
  Command.ofName? (Text.lowercase (Text.trim input)) = some .window

instance : DecidablePred AsksForWindow := fun input =>
  inferInstanceAs (Decidable (Command.ofName? (Text.lowercase (Text.trim input)) = some .window))

/-- The answers to all questions, with the values they lead to. -/
def Answered (v : Viewport Float) (answers : List String) (w : Viewport Float) : Prop :=
  Dimension.scale.onwards.length ≤ answers.length ∧
    ∀ entry ∈ Dimension.scale.onwards.zip answers,
      Entered (entry.1.get v) entry.2 (entry.1.get w)

/-- What a window command and the answers after it have led to. -/
inductive Windowed (s : Session) (answers : List String) : Session → Prop
  | stored {w : Viewport Float} (hanswered : Answered s.viewport answers w) (hvalid : w.Valid) :
      Windowed s answers { s with viewport := w }
  | rejected {w : Viewport Float} (hanswered : Answered s.viewport answers w)
      (hinvalid : ¬ w.Valid) : Windowed s answers s
  | refused {entry : Dimension × String} (hentry : entry ∈ Dimension.scale.onwards.zip answers)
      (hrefused : Refused entry.2) : Windowed s answers s
  | waiting {mode : Mode} (hmode : mode ≠ .command)
      (hfew : answers.length < Dimension.scale.onwards.length) :
      Windowed s answers { s with mode := mode }

/-- The window command begins with a draft that is the viewport. -/
theorem step_window (around : Surroundings) (hmode : s.mode = .command) {word : String}
    (hword : AsksForWindow word) :
    (s.step around word).1 = { s with mode := .resizing .scale s.viewport } := by
  have htake : s.step around word = s.takeCommand around (Text.trim word) := by
    unfold step
    rw [hmode]
  rw [htake, takeCommand, hword]
  rfl

/-- The window command is all or nothing. -/
theorem dialogue_window (around : Surroundings) (hmode : s.mode = .command) {word : String}
    (hword : AsksForWindow word) (answers : List String) :
    Windowed s answers (s.dialogue around (word :: answers)) := by
  have hsame : { s with mode := Mode.command } = s := by rw [← hmode]
  have hstep := step_window around hmode hword
  have hasked : ({ s with mode := .resizing .scale s.viewport } : Session).mode ≠ .command := nofun
  have hanswers := dialogue_resizing (s := { s with mode := .resizing .scale s.viewport }) around
    rfl answers
  rw [dialogue_more hstep hasked]
  revert hanswers
  cases hentries : (Dimension.scale.onwards.zip answers).foldlM enter s.viewport with
  | none =>
      intro hanswers
      obtain ⟨entry, hentry, hrefused⟩ := Dimension.refused_of_foldlM hentries
      have hkept : ({ s with mode := .resizing .scale s.viewport } : Session).dialogue around
          answers = s := hanswers.trans hsame
      rw [hkept]
      exact .refused hentry hrefused
  | some w =>
      intro hanswers
      dsimp only at hanswers
      by_cases henough : Dimension.scale.onwards.length ≤ answers.length
      · rw [if_pos henough] at hanswers
        have hanswered : Answered s.viewport answers w :=
          ⟨henough, (Dimension.entered_of_foldlM (Dimension.nodup_onwards _) hentries).1⟩
        rw [hanswers]
        rcases resize_cases { s with mode := .resizing .scale s.viewport } w with
          ⟨hvalid, hresize⟩ | ⟨hinvalid, hresize⟩
        · have hstored : { s with viewport := w, mode := Mode.command } =
              { s with viewport := w } := by
            rw [← hmode]
          rw [hresize]
          show Windowed s answers { s with viewport := w, mode := .command }
          rw [hstored]
          exact .stored hanswered hvalid
        · rw [hresize]
          show Windowed s answers { s with mode := .command }
          rw [hsame]
          exact .rejected hanswered hinvalid
      · rw [if_neg henough] at hanswers
        obtain ⟨mode, hmode', hwaiting⟩ := hanswers
        rw [hwaiting]
        exact .waiting hmode' (by omega)

/-! ### The other commands -/

/-- The viewport stays, and nothing is asked about it. -/
structure Keeps (s next : Session) : Prop where
  viewport : next.viewport = s.viewport
  mode : ¬ next.mode.IsResizing

theorem keeps_edit (s : Session) (d : Document) (text : String) :
    Keeps s (finish { s with document := d } text).1 :=
  ⟨rfl, id⟩

theorem keeps_finish (s : Session) (text : String) : Keeps s (s.finish text).1 :=
  keeps_edit s s.document text

theorem keeps_askOn (s : Session) {mode : Mode} (hmode : ¬ mode.IsResizing) (text : String) :
    Keeps s (s.askOn mode text).1 :=
  ⟨rfl, hmode⟩

theorem keeps_plot (around : Surroundings) (hmode : ¬ s.mode.IsResizing) :
    Keeps s (s.plot around).1 := by
  have hdone : Keeps s { s with mode := .command } := keeps_finish s ""
  unfold plot
  dsimp only
  split
  · exact keeps_finish s _
  · split
    · exact ⟨rfl, hmode⟩
    · split
      · exact hdone
      · split <;> exact hdone

theorem keeps_obey (around : Surroundings) (hmode : ¬ s.mode.IsResizing) {c : Command}
    (hc : c ≠ .window) : Keeps s (s.obey around c).1 := by
  cases c with
  | window => exact absurd rfl hc
  | quit => exact ⟨rfl, hmode⟩
  | add => exact keeps_askOn s id _
  | funcs => exact keeps_askOn s id _
  | tokens => exact keeps_askOn s id _
  | plot => exact keeps_plot around hmode
  | set =>
      unfold obey
      dsimp only
      split
      · exact keeps_finish s _
      · exact keeps_askOn s id _
  | _ => exact keeps_finish s _

theorem keeps_takeCommand (around : Surroundings) (hmode : ¬ s.mode.IsResizing) {word : String}
    (hword : Command.ofName? (Text.lowercase word) ≠ some .window) :
    Keeps s (s.takeCommand around word).1 := by
  unfold takeCommand
  cases hc : Command.ofName? (Text.lowercase word) with
  | none => exact keeps_finish s ""
  | some c => exact keeps_obey around hmode fun hwindow => hword (hwindow ▸ hc)

theorem keeps_takeNew (s : Session) (text : String) : Keeps s (s.takeNew text).1 := by
  unfold takeNew
  split
  · exact keeps_finish s _
  · exact keeps_edit s (s.document.addFormula text) _

theorem keeps_takeNumber (s : Session) (text : String) : Keeps s (s.takeNumber text).1 := by
  unfold takeNumber
  split
  · exact keeps_finish s _
  · split
    · exact keeps_finish s _
    · exact keeps_finish s _
    · split
      · exact keeps_finish s _
      · exact keeps_askOn s id _

theorem keeps_takeEdit (s : Session) (index : Nat) (text : String) :
    Keeps s (s.takeEdit index text).1 := by
  unfold takeEdit
  dsimp only
  split
  · exact keeps_edit s (s.document.removeFormula index).1 _
  · exact keeps_edit s (s.document.setFormula index text).1 _

theorem keeps_takeDefinition (s : Session) (entered : List String) (text : String) :
    Keeps s (s.takeDefinition entered text).1 := by
  unfold takeDefinition
  split
  · exact keeps_askOn s id _
  · exact keeps_edit s (s.document.setFunctionsText _).1 _

/-- A line that neither asks for the window command nor answers it keeps the viewport. -/
theorem keeps_step (around : Surroundings) (input : String) (hmode : ¬ s.mode.IsResizing)
    (hinput : s.mode = .command → ¬ AsksForWindow input) : Keeps s (s.step around input).1 := by
  unfold step
  dsimp only
  cases hcase : s.mode with
  | command => exact keeps_takeCommand around hmode (hinput hcase)
  | adding => exact keeps_takeNew s _
  | choosing => exact keeps_takeNumber s _
  | editing index => exact keeps_takeEdit s index _
  | defining entered => exact keeps_takeDefinition s entered _
  | resizing d draft =>
      rw [hcase] at hmode
      exact absurd trivial hmode
  | tokens => exact keeps_finish s _

/-- The questions of other commands lead to no question about the viewport. -/
theorem dialogue_keeps (around : Surroundings) (hmode : ¬ s.mode.IsResizing)
    (hasks : s.mode ≠ .command) (inputs : List String) :
    (s.dialogue around inputs).viewport = s.viewport := by
  induction inputs generalizing s with
  | nil => rfl
  | cons input inputs ih =>
      have hkeeps := keeps_step around input hmode fun hcommand => absurd hcommand hasks
      by_cases hend : (s.step around input).1.mode = .command
      · rw [dialogue_end rfl hend, hkeeps.viewport]
      · rw [dialogue_more rfl hend, ih hkeeps.mode hend, hkeeps.viewport]

theorem dialogue_other (around : Surroundings) (hmode : s.mode = .command) {word : String}
    (hword : ¬ AsksForWindow word) (inputs : List String) :
    (s.dialogue around (word :: inputs)).viewport = s.viewport := by
  have hidle : ¬ s.mode.IsResizing := by
    rw [hmode]
    exact id
  have hkeeps := keeps_step around word hidle fun _ => hword
  by_cases hend : (s.step around word).1.mode = .command
  · rw [dialogue_end rfl hend, hkeeps.viewport]
  · rw [dialogue_more rfl hend, dialogue_keeps around hkeeps.mode hend, hkeeps.viewport]

/-! ### All states of a session -/

/-- The states of a session that some options start, when the user has typed some lines. -/
inductive Reachable : Session → Prop
  | start {o : CommandLine.Options} {readFile : String → Except String String} {s : Session}
      {report : String} (hstart : Session.start readFile o = .ok (s, report)) : Reachable s
  | step {s : Session} (h : Reachable s) {around : Surroundings} {input : String}
      (hgoes : (s.step around input).2.ending = none) : Reachable (s.step around input).1

theorem valid_start {readFile : String → Except String String} {o : CommandLine.Options}
    {report : String} (h : Session.start readFile o = .ok (s, report)) : s.viewport.Valid := by
  obtain ⟨v, hv, hrest⟩ : ∃ v, viewportOf o = .ok v ∧ s.viewport = v := by
    unfold Session.start at h
    cases hv : viewportOf o with
    | error f =>
        rw [hv] at h
        cases h
    | ok v =>
        rw [hv] at h
        cases hfunctions : functionsOf readFile o with
        | error f =>
            rw [hfunctions] at h
            cases h
        | ok functions =>
            rw [hfunctions] at h
            cases h
            exact ⟨v, rfl, rfl⟩
  rw [hrest, Viewport.valid_iff]
  unfold viewportOf at hv
  dsimp only at hv
  split at hv
  · cases hv
  · cases hv
  · rename_i hnone
    cases hv
    exact hnone

/-- A step stores no viewport that is not valid. -/
theorem valid_step (h : s.viewport.Valid) (around : Surroundings) (input : String) :
    (s.step around input).1.viewport.Valid := by
  by_cases hmode : s.mode.IsResizing
  · obtain ⟨d, draft, hresizing⟩ : ∃ d draft, s.mode = .resizing d draft := by
      cases hcase : s.mode with
      | resizing d draft => exact ⟨d, draft, rfl⟩
      | _ =>
          rw [hcase] at hmode
          exact absurd hmode id
    rw [step_resizing hresizing]
    split
    · exact h
    · split
      · rcases s.resize_cases _ with ⟨hvalid, hresize⟩ | ⟨-, hresize⟩
        · rw [hresize]
          exact hvalid
        · rw [hresize]
          exact h
      · exact h
  · by_cases hwindow : s.mode = .command ∧ AsksForWindow input
    · rw [step_window around hwindow.1 hwindow.2]
      exact h
    · have hkeeps := keeps_step around input hmode fun hc hw => hwindow ⟨hc, hw⟩
      rw [hkeeps.viewport]
      exact h

theorem Reachable.valid (h : Reachable s) : s.viewport.Valid := by
  induction h with
  | start hstart => exact valid_start hstart
  | @step s _ around input _ ih => exact valid_step ih around input

/-- The viewport of a session is always valid, so that none of the three numbers is NaN.  The
window command stores all the values that are entered, or it leaves the session as it was: if a
value is no number, if together they are not valid, and as long as an answer is missing.  No
other command changes the viewport, whatever is answered to its questions. -/
theorem viewport_spec (around : Surroundings) (h : Reachable s) :
    s.viewport.Valid ∧
      (s.viewport.scale.isNaN = false ∧ s.viewport.width.isNaN = false ∧
        s.viewport.height.isNaN = false) ∧
      (s.mode = .command → ∀ word answers,
        (AsksForWindow word → Windowed s answers (s.dialogue around (word :: answers))) ∧
        (¬ AsksForWindow word →
          (s.dialogue around (word :: answers)).viewport = s.viewport)) :=
  ⟨h.valid, h.valid.not_nan, fun hmode _ answers =>
    ⟨fun hword => dialogue_window around hmode hword answers,
      fun hword => dialogue_other around hmode hword answers⟩⟩

/-- A width that is no number keeps the scale from being stored. -/
theorem viewport_spec_refused :
    let around : Surroundings := ⟨"now", true⟩
    let s : Session := ⟨.empty, .centered 50 800 600, .command⟩
    Reachable s ∧ s.viewport.Valid ∧
      s.dialogue around ["window", "25", "", " 3", "wide", "600"] = s ∧
      (s.dialogue around ["set", "window", "25"]).viewport = s.viewport := by
  intro around s
  have hvalid : ViewportFault.of? s.viewport = none := by decide
  have hreachable : Reachable s := by
    refine @Reachable.start .none (fun _ => .error "") s "" ?_
    rfl
  obtain ⟨hvalid, -, hcommands⟩ := viewport_spec around hreachable
  have hwindow := (hcommands rfl "window" ["25", "", " 3", "wide", "600"]).1 (by decide +kernel)
  have hset := (hcommands rfl "set" ["window", "25"]).2 (by decide +kernel)
  have hwide : ¬ ∃ x, Entered s.viewport.width "wide" x := by
    rintro ⟨_, hblank | ⟨-, hread⟩⟩
    · exact absurd hblank (by decide)
    · have hrefuses : (Decimal.readReal (Text.trim "wide")).toOption = none := by decide
      rw [hread] at hrefuses
      cases hrefuses
  have hunanswered : ∀ w, ¬ Answered s.viewport ["25", "", " 3", "wide", "600"] w := by
    intro w hanswered
    exact hwide ⟨_, hanswered.2 (.width, "wide") (by decide)⟩
  refine ⟨hreachable, hvalid, ?_, hset⟩
  revert hwindow
  generalize s.dialogue around ["window", "25", "", " 3", "wide", "600"] = t
  intro hwindow
  cases hwindow with
  | stored hanswered _ => exact absurd hanswered (hunanswered _)
  | rejected hanswered _ => rfl
  | refused _ _ => rfl
  | waiting _ hfew => exact absurd hfew (by decide)

end Session

end FormulaPlot
