import Emend.Proofs.Matching.Exact
import Emend.Proofs.Matching.Query
import Emend.Proofs.Similarity.Metric

namespace Emend

open Score

theorem weighted_le_and_eq_iff {b e x y z : ℚ} (hb : 0 < b) (he : 0 < e) (hx : x ≤ 1) (hy : y ≤ 1)
    (hz : z ≤ 1) :
    b * x + (e * y + e * z) ≤ b + 2 * e ∧
      (b * x + (e * y + e * z) = b + 2 * e ↔ y = 1 ∧ z = 1 ∧ x = 1) := by
  have hbx : b * x ≤ b := mul_le_of_le_one_right hb.le hx
  have hey : e * y ≤ e := mul_le_of_le_one_right he.le hy
  have hez : e * z ≤ e := mul_le_of_le_one_right he.le hz
  refine ⟨by linarith, ?_, ?_⟩
  · intro h
    have hfull {w v : ℚ} (hw : 0 < w) (h : w * v = w) : v = 1 :=
      mul_left_cancel₀ hw.ne' (h.trans (mul_one w).symm)
    exact ⟨hfull he (by linarith), hfull he (by linarith), hfull hb (by linarith)⟩
  · rintro ⟨rfl, rfl, rfl⟩
    ring

structure MatchPolicy.IsPositive (p : MatchPolicy (Rounded .exact)) : Prop where
  body : 0 < p.bodyWeight.val
  endpoint : 0 < p.endpointWeight.val

section

variable {p : MatchPolicy (Rounded .exact)} (hp : p.IsPositive) (query lines : List Text)

include hp

theorem blockScore_le_and_eq_iff :
    (blockScore p query lines).val ≤ p.maxScore.val ∧
      ((blockScore p query lines).val = p.maxScore.val ↔ Agrees query lines) := by
  have hle (s t : Text) : (similarity s t : Rounded .exact).val ≤ 1 :=
    (Rounded.val_similarity_mem s t).2
  have h := weighted_le_and_eq_iff hp.body hp.endpoint (hle (collapse lines) (collapse query))
    (hle (lines.headD []) (query.headD [])) (hle (lines.getLastD []) (query.getLastD []))
  simp only [Rounded.val_similarity_eq_one_iff] at h
  exact h

theorem maxScore_pos : 0 < p.maxScore.val := by
  have hbody := hp.body
  have hendpoint := hp.endpoint
  rw [MatchPolicy.maxScore, Rounded.val_add_exact, Rounded.val_mul_exact, Rounded.val_ofNat_exact]
  positivity

theorem noScore_lt_maxScore : (noScore : Rounded .exact) < p.maxScore := by
  have hpos := maxScore_pos hp
  rw [Rounded.lt_iff, Rounded.val_noScore]
  linarith

end

/-- The earliest of the candidate windows that agree with the query. -/
structure FirstAgreeing {α : Type} (p : MatchPolicy α) (query lines : List Text) (w : Window) :
    Prop where
  mem : w ∈ windows p query lines
  agrees : Agrees query (w.slice lines)
  first : ∀ v ∈ windows p query lines, Agrees query (v.slice lines) → ¬v.before w = true

theorem FirstAgreeing.unique {α : Type} {p : MatchPolicy α} {query lines : List Text}
    {v w : Window} (hv : FirstAgreeing p query lines v) (hw : FirstAgreeing p query lines w) :
    v = w := by
  rcases Window.before_or_eq_or_before v w with h | h | h
  · exact absurd h (hw.first v hv.mem hv.agrees)
  · exact h
  · exact absurd h (hv.first w hw.mem hw.agrees)

section

variable {p : MatchPolicy (Rounded .exact)} (hp : p.IsPositive) {query lines : List Text}
  {w : Window}

include hp

theorem scoreOf_eq_maxScore_iff :
    scoreOf p query lines w = p.maxScore ↔ Agrees query (w.slice lines) :=
  Rounded.ext_iff.trans (blockScore_le_and_eq_iff hp query (w.slice lines)).2

theorem scoreOf_lt_maxScore (h : ¬Agrees query (w.slice lines)) :
    scoreOf p query lines w < p.maxScore := by
  obtain ⟨hle, hiff⟩ := blockScore_le_and_eq_iff hp query (w.slice lines)
  exact lt_of_le_of_ne hle fun heq => h (hiff.1 heq)

theorem scoreOf_le_maxScore : ¬p.maxScore < scoreOf p query lines w :=
  Rounded.not_lt_iff.2 (blockScore_le_and_eq_iff hp query (w.slice lines)).1

theorem FirstAgreeing.wins (h : FirstAgreeing p query lines w) :
    Wins (scoreOf p query lines) (windows p query lines) w := by
  have hfull := (scoreOf_eq_maxScore_iff hp).2 h.agrees
  refine ⟨h.mem, fun v hv => ?_⟩
  rw [hfull]
  refine ⟨scoreOf_le_maxScore hp, fun hbefore => scoreOf_lt_maxScore hp fun hagrees => ?_⟩
  exact h.first v hv hagrees hbefore

theorem firstAgreeing_of_wins (h : Wins (scoreOf p query lines) (windows p query lines) w)
    (hfull : scoreOf p query lines w = p.maxScore) : FirstAgreeing p query lines w where
  mem := h.1
  agrees := (scoreOf_eq_maxScore_iff hp).1 hfull
  first v hv hagrees hbefore := by
    have hlt := (h.2 v hv).2 hbefore
    rw [hfull, (scoreOf_eq_maxScore_iff hp).2 hagrees] at hlt
    exact LawfulScore.lt_irrefl _ hlt

theorem score_prunedBest_le : ¬p.maxScore < (prunedBest p query lines).score := by
  rcases prunedBest_isFrom p query lines with hbest | ⟨u, -, hbest⟩
  · rw [hbest]
    exact not_lt_of_lt (noScore_lt_maxScore hp)
  · rw [hbest]
    exact scoreOf_le_maxScore hp

theorem FirstAgreeing.prunedBest_eq (h : FirstAgreeing p query lines w) :
    prunedBest p query lines = ⟨p.maxScore, some w⟩ := by
  have hfull := (scoreOf_eq_maxScore_iff hp).2 h.agrees
  have hno : ¬scoreOf p query lines w < noScore := by
    rw [hfull]
    exact not_lt_of_lt (noScore_lt_maxScore hp)
  have hwindow := (prunedBest_optimal (Rounded.prunable p query lines)).window_eq_some_iff.2
    ⟨h.wins hp, hno⟩
  rcases prunedBest_isFrom p query lines with hbest | ⟨u, -, hbest⟩
  · rw [hbest] at hwindow
    cases hwindow
  · rw [hbest] at hwindow
    obtain rfl : u = w := Option.some.inj hwindow
    rw [hbest, hfull]

theorem exists_firstAgreeing_of_score (h : (prunedBest p query lines).score = p.maxScore) :
    ∃ w, FirstAgreeing p query lines w := by
  rcases prunedBest_isFrom p query lines with hbest | ⟨u, -, hbest⟩
  · have hno := noScore_lt_maxScore hp
    rw [← h, hbest] at hno
    exact absurd hno (LawfulScore.lt_irrefl _)
  · have hwindow : (prunedBest p query lines).window = some u := by rw [hbest]
    have hwins := (prunedBest_optimal (Rounded.prunable p query lines)).window_eq_some_iff.1 hwindow
    rw [hbest] at h
    exact ⟨u, firstAgreeing_of_wins hp hwins.1 h⟩

theorem score_prunedBest_of_agrees (hw : w ∈ windows p query lines)
    (h : Agrees query (w.slice lines)) : (prunedBest p query lines).score = p.maxScore := by
  have hkeeps := (prunedBest_optimal (Rounded.prunable p query lines)).keeps w hw
  rw [(scoreOf_eq_maxScore_iff hp).2 h] at hkeeps
  exact Rounded.eq_of_not_lt hkeeps.1 (score_prunedBest_le hp)

end

/-- In exact arithmetic with positive weights no match scores above the full score. A match has the
full score just when some candidate window agrees with the query, and then it is the earliest of
these. So a query that stands in the document word for word has the full score, and it is not found
behind any place where it stands. -/
theorem bestMatch_fullScore {p : MatchPolicy (Rounded .exact)} (hp : p.IsPositive)
    {search content : Text} (hsearch : search.blank = false) (htolerance : 0 < p.windowTolerance)
    (hword : content.pieces.length + p.windowTolerance < word) :
    let query := queryLines search
    let lines := content.pieces
    let found := bestMatch p search content
    ¬p.maxScore < found.score ∧
      (found.score = p.maxScore ↔
        ∃ w ∈ windows p query lines, Agrees query (w.slice lines)) ∧
      (found.score = p.maxScore → ∃ w, FirstAgreeing p query lines w ∧
        matchedWindow? p search content = some w ∧ found.block = Text.unlines (w.slice lines)) ∧
      ∀ w : Window, w.Fits lines.length → w.slice lines = query →
        found.score = p.maxScore ∧
          ∃ v, matchedWindow? p search content = some v ∧ ¬w.before v = true := by
  intro query lines found
  obtain ⟨q, qs, hq⟩ := List.exists_cons_of_ne_nil (queryLines_ne_nil hsearch)
  have hfound : found = (prunedBest p query lines).toMatch lines := by
    dsimp only [found, query, lines]
    rw [bestMatch, hq]
  have hscore : found.score = (prunedBest p query lines).score := by rw [hfound]; rfl
  rw [hscore]
  have hagrees {w : Window} (hw : w ∈ windows p query lines) (h : Agrees query (w.slice lines)) :=
    score_prunedBest_of_agrees hp hw h
  have hfirst (h : (prunedBest p query lines).score = p.maxScore) :
      ∃ w, FirstAgreeing p query lines w ∧ matchedWindow? p search content = some w ∧
        found.block = Text.unlines (w.slice lines) := by
    obtain ⟨w, hw⟩ := exists_firstAgreeing_of_score hp h
    have hbest := hw.prunedBest_eq hp
    refine ⟨w, hw, ?_, ?_⟩
    · exact congrArg Best.window hbest
    · rw [hfound, hbest]
      rfl
  refine ⟨score_prunedBest_le hp, ⟨?_, ?_⟩, hfirst, ?_⟩
  · intro h
    obtain ⟨w, hw, -⟩ := hfirst h
    exact ⟨w, hw.mem, hw.agrees⟩
  · rintro ⟨w, hw, h⟩
    exact hagrees hw h
  · intro w hfits hslice
    have hmem : w ∈ windows p query lines := mem_windows_of_slice_eq hfits hslice htolerance hword
    have hsame : Agrees query (w.slice lines) := hslice ▸ ⟨rfl, rfl, rfl⟩
    have hfull := hagrees hmem hsame
    obtain ⟨v, hv, hmatched, -⟩ := hfirst hfull
    exact ⟨hfull, v, hmatched, hv.first w hmem hsame⟩

/-- A comment between the lines does not tell a window from the query, and so the window with it
is found before the lines without. -/
theorem bestMatch_fullScore_commented :
    (bestMatch (.standard : MatchPolicy (Rounded .exact)) "b\nd\n".toList
        "a\nb\n# c\nd\nb\nd".toList).score = MatchPolicy.standard.maxScore ∧
      (bestMatch (.standard : MatchPolicy (Rounded .exact)) "b\nd\n".toList
        "a\nb\n# c\nd\nb\nd".toList).block = "b\n# c\nd".toList := by
  have hpositive : (.standard : MatchPolicy (Rounded .exact)).IsPositive :=
    ⟨by decide +kernel, by decide +kernel⟩
  have hsearch : Text.blank "b\nd\n".toList = false := by decide
  have hword : (Text.pieces "a\nb\n# c\nd\nb\nd".toList).length +
      (.standard : MatchPolicy (Rounded .exact)).windowTolerance < word := by decide
  obtain ⟨-, -, hfirst, hstands⟩ := bestMatch_fullScore hpositive hsearch (by decide) hword
  have hfull := (hstands ⟨4, 5⟩ ⟨by decide, by decide⟩ (by decide)).1
  obtain ⟨w, hw, -, hblock⟩ := hfirst hfull
  have hcommented : FirstAgreeing (.standard : MatchPolicy (Rounded .exact))
      ["b".toList, "d".toList]
      ["a".toList, "b".toList, "# c".toList, "d".toList, "b".toList, "d".toList] ⟨1, 3⟩ :=
    ⟨by decide, by decide, by decide⟩
  obtain rfl : w = ⟨1, 3⟩ := hw.unique hcommented
  exact ⟨hfull, hblock⟩

end Emend
