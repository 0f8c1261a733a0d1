/-
Which candidate is suggested.

The candidates are gone through once, and the best one so far is kept.  Whatever the measure of
resemblance is, what is kept is one of the candidates that were seen.

Of a measure that gives shares, from zero to one, more can be said.  Shares are finite, so they
compare as the numbers that they stand for, and the candidate that is kept after each step is the
first best of those seen so far, `FirstBest`.  A list has only one first best.  A candidate that
differs from the name in case only has the greatest share there is, which no other candidate
reaches, so the first one of this kind is the first best, and it passes the threshold.
-/
import FormulaPlot.Proofs.Number.Arithmetic
import FormulaPlot.Proofs.Number.Special
import FormulaPlot.Text.Similarity

namespace FormulaPlot.Text

variable {measure : String → String → Float} {name candidate : String} {candidates : List String}

/-! ### Only a candidate is suggested -/

/-- The better of two is one of them. -/
theorem better_eq (best next : Float × String) :
    better best next = best ∨ better best next = next := by
  unfold better
  split
  · exact .inr rfl
  · exact .inl rfl

/-- The best of all is the first or one of the others. -/
theorem foldl_better_mem (first : Float × String) (others : List (Float × String)) :
    others.foldl better first ∈ first :: others := by
  induction others generalizing first with
  | nil => exact List.mem_singleton_self first
  | cons next others ih =>
      rw [List.foldl_cons]
      rcases List.mem_cons.mp (ih (better first next)) with hbest | hmem
      · rw [hbest]
        rcases better_eq first next with hfirst | hnext
        · rw [hfirst]
          exact List.mem_cons_self
        · rw [hnext]
          exact List.mem_cons_of_mem _ List.mem_cons_self
      · exact List.mem_cons_of_mem _ (List.mem_cons_of_mem _ hmem)

/-- Only a candidate is suggested. -/
theorem mem_of_mostSimilarBy (h : mostSimilarBy measure name candidates = some candidate) :
    candidate ∈ candidates := by
  unfold mostSimilarBy at h
  split at h
  · cases h
  next first others hscored =>
    have hbest := hscored ▸ foldl_better_mem first others
    obtain ⟨c, hc, heq⟩ := List.mem_map.mp hbest
    dsimp only at h
    split at h
    · rw [← heq] at h
      exact Option.some.inj h ▸ hc
    · cases h

/-! ### Shares -/

/-- How much a candidate resembles the name; upper and lower case do not count. -/
def resemblance (measure : String → String → Float) (name candidate : String) : Float :=
  measure (lowercase name) (lowercase candidate)

/-- On the names that are compared the measure gives shares, and the full share just to names
that are equal but for case. -/
structure GivesShares (measure : String → String → Float) (name : String)
    (candidates : List String) : Prop where
  bounds : ∀ c ∈ candidates, 0 ≤ resemblance measure name c ∧ resemblance measure name c ≤ 1
  eq_one_iff : ∀ c ∈ candidates,
    resemblance measure name c = 1 ↔ lowercase name = lowercase c

variable {x y : Float}

theorem isFinite_of_bounds (h : 0 ≤ x ∧ x ≤ 1) : x.isFinite = true := by
  have hnan : x.isNaN = false := by
    rw [← Bool.not_eq_true]
    intro hnan
    rw [eq_nan hnan] at h
    exact absurd h.1 (by decide)
  have hinf : x.isInf = false := by
    rw [← Bool.not_eq_true]
    intro hinf
    rw [eq_infinity hinf] at h
    split at h
    · exact absurd h.1 (by decide)
    · exact absurd h.2 (by decide)
  rw [isFinite_eq, hnan, hinf]
  rfl

theorem lt_iff_of_finite (hx : x.isFinite = true) (hy : y.isFinite = true) :
    x < y ↔ toRat x < toRat y :=
  decide_eq_true_iff.symm.trans (lt_iff_toRat hx hy)

theorem le_iff_of_finite (hx : x.isFinite = true) (hy : y.isFinite = true) :
    x ≤ y ↔ toRat x ≤ toRat y :=
  decide_eq_true_iff.symm.trans (le_iff_toRat hx hy)

/-- Less than the full share is left of a share that is not full. -/
theorem lt_one_of_ne (h : 0 ≤ x ∧ x ≤ 1) (hne : x ≠ 1) : x < 1 := by
  have hx := isFinite_of_bounds h
  have hone : (1 : Float).isFinite = true := by decide
  have hpos : toRat 0 < toRat 1 := (lt_iff_of_finite (by decide) hone).mp (by decide)
  rw [lt_iff_of_finite hx hone]
  refine lt_of_le_of_ne ((le_iff_of_finite hx hone).mp h.2) fun heq => ?_
  exact hne (eq_of_toRat_eq hx hone heq (ne_of_gt hpos))

/-! ### The first best -/

/-- The first of the candidates with the highest score: none has a higher one, and all earlier
ones have a lower one. -/
def FirstBest (score : String → Float) (candidates : List String) (winner : String) : Prop :=
  ∃ before after, candidates = before ++ winner :: after ∧
    (∀ c ∈ before, score c < score winner) ∧ ∀ c ∈ candidates, score c ≤ score winner

namespace FirstBest

variable {score : String → Float} {winner other : String}

theorem mem (h : FirstBest score candidates winner) : winner ∈ candidates := by
  obtain ⟨before, after, rfl, -, -⟩ := h
  exact List.mem_append_right before List.mem_cons_self

theorem le (h : FirstBest score candidates winner) (hmem : candidate ∈ candidates) :
    score candidate ≤ score winner := by
  obtain ⟨-, -, -, -, hle⟩ := h
  exact hle candidate hmem

theorem not_lt (hfinite : ∀ c ∈ candidates, (score c).isFinite = true)
    (h : FirstBest score candidates winner) (hmem : candidate ∈ candidates) :
    ¬ score winner < score candidate := by
  have hcandidate := hfinite candidate hmem
  have hwinner := hfinite winner h.mem
  rw [lt_iff_of_finite hwinner hcandidate]
  exact not_lt_of_ge ((le_iff_of_finite hcandidate hwinner).mp (h.le hmem))

/-- Of two first bests neither comes before the other, since it would be worse. -/
theorem unique (hfinite : ∀ c ∈ candidates, (score c).isFinite = true)
    (h : FirstBest score candidates winner) (h' : FirstBest score candidates other) :
    winner = other := by
  have hnot := h.not_lt hfinite h'.mem
  have hnot' := h'.not_lt hfinite h.mem
  obtain ⟨before, after, hsplit, hbefore, -⟩ := h
  obtain ⟨before', after', hsplit', hbefore', -⟩ := h'
  rcases List.append_eq_append_iff.mp (hsplit.symm.trans hsplit') with
    ⟨middle, hmiddle, hrest⟩ | ⟨middle, hmiddle, hrest⟩
  · cases middle with
    | nil => exact (List.cons.inj hrest).1
    | cons c middle =>
        obtain ⟨rfl, -⟩ := List.cons.inj hrest
        exact absurd (hbefore' winner (by rw [hmiddle]; simp)) hnot
  · cases middle with
    | nil => exact (List.cons.inj hrest).1.symm
    | cons c middle =>
        obtain ⟨rfl, -⟩ := List.cons.inj hrest
        exact absurd (hbefore other (by rw [hmiddle]; simp)) hnot'

/-- One more candidate that is not better changes nothing. -/
theorem keep (hwinner : (score winner).isFinite = true) (hother : (score other).isFinite = true)
    (h : FirstBest score candidates winner) (hnot : ¬ score winner < score other) :
    FirstBest score (candidates ++ [other]) winner := by
  obtain ⟨before, after, rfl, hbefore, hle⟩ := h
  refine ⟨before, after ++ [other], by simp, hbefore, ?_⟩
  intro c hc
  rcases List.mem_append.mp hc with hc | hc
  · exact hle c hc
  · rw [List.mem_singleton.mp hc, le_iff_of_finite hother hwinner]
    rw [lt_iff_of_finite hwinner hother] at hnot
    exact le_of_not_gt hnot

/-- One more candidate that is better than the first best is the first best. -/
theorem replace (hfinite : ∀ c ∈ candidates, (score c).isFinite = true)
    (hother : (score other).isFinite = true) (h : FirstBest score candidates winner)
    (hlt : score winner < score other) : FirstBest score (candidates ++ [other]) other := by
  have hwinner := hfinite winner h.mem
  rw [lt_iff_of_finite hwinner hother] at hlt
  have hlower : ∀ c ∈ candidates, toRat (score c) < toRat (score other) := by
    intro c hc
    have hle := h.le hc
    rw [le_iff_of_finite (hfinite c hc) hwinner] at hle
    exact lt_of_le_of_lt hle hlt
  refine ⟨candidates, [], rfl, ?_, ?_⟩
  · intro c hc
    exact (lt_iff_of_finite (hfinite c hc) hother).mpr (hlower c hc)
  · intro c hc
    rcases List.mem_append.mp hc with hc | hc
    · exact (le_iff_of_finite (hfinite c hc) hother).mpr (hlower c hc).le
    · rw [List.mem_singleton.mp hc]
      exact (le_iff_of_finite hother hother).mpr le_rfl

end FirstBest

/-! ### What is suggested -/

/-- Going through the scored candidates leaves the first best of them. -/
theorem foldl_better_firstBest (score : String → Float) (first : String) (others : List String)
    (hfinite : ∀ c ∈ first :: others, (score c).isFinite = true) :
    ∃ winner, FirstBest score (first :: others) winner ∧
      (others.map fun c => (score c, c)).foldl better (score first, first) =
        (score winner, winner) := by
  -- What is gone through last is compared with the first best of all before it.
  induction others using List.reverseRecOn with
  | nil =>
      have hfirst := hfinite first List.mem_cons_self
      refine ⟨first, ⟨[], [], rfl, by simp, ?_⟩, rfl⟩
      intro c hc
      rw [List.mem_singleton.mp hc]
      exact (le_iff_of_finite hfirst hfirst).mpr le_rfl
  | append_singleton others next ih =>
      rw [← List.cons_append] at hfinite ⊢
      have hseen : ∀ c ∈ first :: others, (score c).isFinite = true := fun c hc =>
        hfinite c (List.mem_append_left _ hc)
      have hnext := hfinite next (List.mem_append_right _ (List.mem_singleton_self next))
      obtain ⟨winner, hwinner, hfold⟩ := ih hseen
      rw [List.map_append, List.foldl_append, hfold]
      by_cases hlt : score winner < score next
      · exact ⟨next, hwinner.replace hseen hnext hlt, if_pos hlt⟩
      · exact ⟨winner, hwinner.keep (hseen winner hwinner.mem) hnext hlt, if_neg hlt⟩

/-- The first best candidate is suggested if it resembles the name enough. -/
theorem mostSimilarBy_eq
    (hfinite : ∀ c ∈ candidates, (resemblance measure name c).isFinite = true)
    (hne : candidates ≠ []) :
    ∃ winner, FirstBest (resemblance measure name) candidates winner ∧
      mostSimilarBy measure name candidates =
        if 0.3 < resemblance measure name winner then some winner else none := by
  cases candidates with
  | nil => exact absurd rfl hne
  | cons first others =>
      obtain ⟨winner, hwinner, hfold⟩ := foldl_better_firstBest _ first others hfinite
      refine ⟨winner, hwinner, ?_⟩
      unfold resemblance at hfold ⊢
      rw [mostSimilarBy, List.map_cons]
      dsimp only
      rw [hfold]

theorem mostSimilarBy_eq_some_iff
    (hfinite : ∀ c ∈ candidates, (resemblance measure name c).isFinite = true) :
    mostSimilarBy measure name candidates = some candidate ↔
      0.3 < resemblance measure name candidate ∧
        FirstBest (resemblance measure name) candidates candidate := by
  constructor
  · intro h
    obtain ⟨winner, hwinner, heq⟩ :=
      mostSimilarBy_eq hfinite (List.ne_nil_of_mem (mem_of_mostSimilarBy h))
    rw [heq] at h
    split at h
    · next hlt =>
      obtain rfl := Option.some.inj h
      exact ⟨hlt, hwinner⟩
    · cases h
  · rintro ⟨hlt, hbest⟩
    obtain ⟨winner, hwinner, heq⟩ := mostSimilarBy_eq hfinite (List.ne_nil_of_mem hbest.mem)
    obtain rfl := hbest.unique hfinite hwinner
    rw [heq, if_pos hlt]

theorem mostSimilarBy_eq_none_iff
    (hfinite : ∀ c ∈ candidates, (resemblance measure name c).isFinite = true) :
    mostSimilarBy measure name candidates = none ↔
      ∀ c ∈ candidates, ¬ 0.3 < resemblance measure name c := by
  constructor
  · intro hnone c hc hlt
    obtain ⟨winner, hwinner, heq⟩ := mostSimilarBy_eq hfinite (List.ne_nil_of_mem hc)
    have hle := hwinner.le hc
    have hc' := hfinite c hc
    have hwinner' := hfinite winner hwinner.mem
    rw [le_iff_of_finite hc' hwinner'] at hle
    rw [lt_iff_of_finite (by decide) hc'] at hlt
    have hpasses := (lt_iff_of_finite (by decide) hwinner').mpr (lt_of_lt_of_le hlt hle)
    rw [heq, if_pos hpasses] at hnone
    cases hnone
  · intro hnot
    rw [Option.eq_none_iff_forall_ne_some]
    intro winner h
    have hlt := ((mostSimilarBy_eq_some_iff hfinite).mp h).1
    exact hnot winner (mem_of_mostSimilarBy h) hlt

theorem GivesShares.isFinite (h : GivesShares measure name candidates) :
    ∀ c ∈ candidates, (resemblance measure name c).isFinite = true :=
  fun c hc => isFinite_of_bounds (h.bounds c hc)

/-- No candidate before the first one that is equal but for case has a full share. -/
theorem GivesShares.firstBest (h : GivesShares measure name candidates)
    (hfind : candidates.find? (fun c => lowercase c = lowercase name) = some candidate) :
    resemblance measure name candidate = 1 ∧
      FirstBest (resemblance measure name) candidates candidate := by
  have hmem := List.mem_of_find?_eq_some hfind
  obtain ⟨hsame, before, after, hsplit, hbefore⟩ := List.find?_eq_some_iff_append.mp hfind
  have hone : resemblance measure name candidate = 1 :=
    (h.eq_one_iff candidate hmem).mpr (of_decide_eq_true hsame).symm
  refine ⟨hone, before, after, hsplit, ?_, ?_⟩
  · intro c hc
    have hc' : c ∈ candidates := by
      rw [hsplit]
      exact List.mem_append_left _ hc
    have hne : resemblance measure name c ≠ 1 := by
      rw [Ne, h.eq_one_iff c hc']
      intro heq
      have hdiffers := hbefore c hc
      rw [heq, decide_eq_true rfl] at hdiffers
      cases hdiffers
    rw [hone]
    exact lt_one_of_ne (h.bounds c hc') hne
  · intro c hc
    rw [hone]
    exact (h.bounds c hc).2

/-- A measure that gives shares finds the first best candidate.  Nothing is suggested just if no
candidate resembles the name enough.  What is suggested is one of the candidates as it is given,
and of those with the highest share it is the first.  If any candidate equals the name but for
case, the first one that does is suggested. -/
theorem mostSimilarBy_firstBest (h : GivesShares measure name candidates) :
    (mostSimilarBy measure name candidates = none ↔
      ∀ c ∈ candidates, ¬ 0.3 < resemblance measure name c) ∧
    (∀ winner, mostSimilarBy measure name candidates = some winner ↔
      0.3 < resemblance measure name winner ∧
        FirstBest (resemblance measure name) candidates winner) ∧
    ((∃ c ∈ candidates, lowercase c = lowercase name) →
      mostSimilarBy measure name candidates =
        candidates.find? fun c => lowercase c = lowercase name) := by
  refine ⟨mostSimilarBy_eq_none_iff h.isFinite,
    fun winner => mostSimilarBy_eq_some_iff h.isFinite, ?_⟩
  rintro ⟨c, hc, hsame⟩
  obtain ⟨winner, hfind⟩ : ∃ winner,
      candidates.find? (fun c => lowercase c = lowercase name) = some winner := by
    rw [← Option.isSome_iff_exists, List.find?_isSome]
    exact ⟨c, hc, decide_eq_true hsame⟩
  obtain ⟨hone, hbest⟩ := h.firstBest hfind
  rw [hfind, mostSimilarBy_eq_some_iff h.isFinite, hone]
  exact ⟨by decide, hbest⟩

/-- Of two candidates that differ from the name in case only, the first one is suggested. -/
theorem mostSimilarBy_firstBest_sin :
    GivesShares similarity "SIN" ["sinh", "Sin", "sin"] ∧
      mostSimilar "SIN" ["sinh", "Sin", "sin"] = some "Sin" := by
  -- Names are compared as lists of characters; those are quick to compute.
  have hshares : ∀ c ∈ ["sinh", "Sin", "sin"], resemblance similarity "SIN" c = 1 ↔
      (lowercase "SIN").toList = (lowercase c).toList := by decide +kernel
  have h : GivesShares similarity "SIN" ["sinh", "Sin", "sin"] :=
    { bounds := by decide +kernel
      eq_one_iff := fun c hc => (hshares c hc).trans String.toList_inj }
  have hsinh : lowercase "sinh" ≠ lowercase "SIN" := by
    rw [Ne, ← String.toList_inj]
    decide +kernel
  have hsin : lowercase "Sin" = lowercase "SIN" := by
    rw [← String.toList_inj]
    decide +kernel
  refine ⟨h, ?_⟩
  rw [mostSimilar, (mostSimilarBy_firstBest h).2.2 ⟨"Sin", by simp, hsin⟩,
    List.find?_cons_of_neg (by rwa [decide_eq_true_iff]),
    List.find?_cons_of_pos (by rwa [decide_eq_true_iff])]

end FormulaPlot.Text
