import Emend.Proofs.Matching.Window
import Emend.Proofs.Score.Lawful

namespace Emend

variable {α : Type} (p : MatchPolicy α) (query lines : List Text)

def windows : List Window := Window.candidates query.length lines.length p.windowTolerance

theorem fits_of_mem_windows {w : Window} (h : w ∈ windows p query lines) : w.Fits lines.length :=
  Window.fits_of_mem_candidates h

variable {p query lines} in
theorem mem_windows_of_slice_eq {w : Window} (hfits : w.Fits lines.length)
    (hslice : w.slice lines = query) (htolerance : 0 < p.windowTolerance)
    (hword : lines.length + p.windowTolerance < word) : w ∈ windows p query lines := by
  have hlength := Window.length_slice hfits
  rw [hslice] at hlength
  obtain ⟨hle, hlt⟩ := hfits
  have hmem := Window.mem_candidates_of_length (k := query.length) (n := lines.length)
    (t := p.windowTolerance) (s := w.start) (by omega) (by omega) htolerance hword
  have hlast : w.start + query.length - 1 = w.last := by omega
  rwa [hlast] at hmem

variable [Score α]

def endpointsOf (w : Window) : α :=
  endpointScore p (similarity ((w.slice lines).headD []) (query.headD []))
    (similarity ((w.slice lines).getLastD []) (query.getLastD []))

def bodyOf (w : Window) : α :=
  p.bodyWeight * similarity (collapse (w.slice lines)) (collapse query)

def scoreOf (w : Window) : α := blockScore p query (w.slice lines)

theorem scoreOf_eq (w : Window) :
    scoreOf p query lines w = bodyOf p query lines w + endpointsOf p query lines w := rfl

def rank (w : Window) : Ranked α := ⟨w, endpointsOf p query lines w⟩

theorem ranked_eq :
    ranked p query lines =
      ((windows p query lines).map (rank p query lines)).mergeSort Ranked.le := by
  unfold ranked
  dsimp only
  congr 1
  refine (List.filterMap_congr (g := some ∘ rank p query lines) fun w hw => ?_).trans
    (congrFun List.filterMap_eq_map _)
  have hf := fits_of_mem_windows p query lines hw
  have hl : w.last < lines.length := hf.2
  have hs : w.start < lines.length := Nat.lt_of_le_of_lt hf.1 hl
  have hfirst : (w.slice lines).headD [] = lines[w.start] := by
    rw [List.headD_eq_head?_getD, Window.head?_slice hf, List.getElem?_eq_getElem hs]
    rfl
  have hlast : (w.slice lines).getLastD [] = lines[w.last] := by
    rw [List.getLastD_eq_getLast?, Window.getLast?_slice hf, List.getElem?_eq_getElem hl]
    rfl
  simp only [List.getElem?_map, List.getElem?_eq_getElem hs, List.getElem?_eq_getElem hl,
    Option.map_some, Function.comp_apply, rank, endpointsOf, hfirst, hlast]

theorem prunedBest_eq :
    prunedBest p query lines =
      pruned (bodyBound p) (bodyOf p query lines) (ranked p query lines) .start := by
  have hbody : (fun w : Window => p.bodyWeight * similarity
      ([' '].intercalate ((w.slice (lines.map weight?)).filterMap id)) (collapse query)) =
      bodyOf p query lines := by
    funext w
    rw [bodyOf, collapse, Window.slice_map, List.filterMap_map]
    rfl
  unfold prunedBest
  dsimp only
  rw [hbody]

def Best.IsFrom (score : Window → α) (ws : List Window) (b : Best α) : Prop :=
  b = .start ∨ ∃ w ∈ ws, b = ⟨score w, some w⟩

theorem Best.IsFrom.offer {score : Window → α} {ws : List Window} {b : Best α}
    (h : b.IsFrom score ws) {w : Window} (hw : w ∈ ws) : (b.offer w (score w)).IsFrom score ws := by
  rw [Best.offer]
  split
  · exact .inr ⟨w, hw, rfl⟩
  · exact h

theorem pruned_isFrom {score body : Window → α} {bound : α} {ws : List Window} {rs : List (Ranked α)}
    (hrs : ∀ r ∈ rs, r.window ∈ ws ∧ body r.window + r.endpoints = score r.window) {b : Best α}
    (h : b.IsFrom score ws) : (pruned bound body rs b).IsFrom score ws := by
  induction rs generalizing b with
  | nil => exact h
  | cons r rs ih =>
      simp only [List.mem_cons, forall_eq_or_imp] at hrs
      rw [pruned]
      split
      · exact h
      · rw [hrs.1.2]
        exact ih hrs.2 (h.offer hrs.1.1)

theorem mem_ranked {r : Ranked α} :
    r ∈ ranked p query lines ↔ ∃ w ∈ windows p query lines, rank p query lines w = r := by
  rw [ranked_eq, List.mem_mergeSort, List.mem_map]

theorem prunedBest_isFrom :
    (prunedBest p query lines).IsFrom (scoreOf p query lines) (windows p query lines) := by
  rw [prunedBest_eq]
  refine pruned_isFrom (fun r hr => ?_) (.inl rfl)
  obtain ⟨w, hw, rfl⟩ := (mem_ranked p query lines).1 hr
  exact ⟨hw, rfl⟩

def matchedWindow? (search content : Text) : Option Window :=
  (prunedBest p (queryLines search) content.pieces).window

/-- A match is the insertion that stands for a blank search text, or the outcome of a search. -/
theorem bestMatch_eq_or (search content : Text) :
    bestMatch p search content = .insertion p.maxScore ∨
      bestMatch p search content =
        (prunedBest p (queryLines search) content.pieces).toMatch content.pieces := by
  rw [bestMatch]
  split
  · exact .inl rfl
  · rename_i q qs h
    exact .inr (by rw [h])

theorem exists_window_of_isFound [LawfulScore α] {search content : Text}
    (h : (bestMatch p search content).isFound = true) :
    ∃ w ∈ windows p (queryLines search) content.pieces,
      matchedWindow? p search content = some w ∧
      bestMatch p search content =
        ⟨Text.unlines (w.slice content.pieces), scoreOf p (queryLines search) content.pieces w⟩ := by
  simp only [Match.isFound, Bool.and_eq_true, decide_eq_true_eq, Bool.not_eq_true'] at h
  obtain ⟨hscore, hinsertion⟩ := h
  rcases bestMatch_eq_or p search content with he | he
  · rw [he] at hinsertion
    simp [Match.isInsertion, Match.insertion] at hinsertion
  · rcases prunedBest_isFrom p (queryLines search) content.pieces with hb | ⟨w, hw, hb⟩
    · rw [he, hb] at hscore
      exact absurd hscore (LawfulScore.lt_irrefl _)
    · refine ⟨w, hw, by rw [matchedWindow?, hb], ?_⟩
      rw [he, hb]
      rfl

end Emend
