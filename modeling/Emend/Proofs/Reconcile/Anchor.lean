import Emend.Proofs.Change
import Emend.Proofs.Matching.Scan
import Emend.Proofs.Resolution
import Emend.Reconcile

namespace Emend

variable {α : Type} [Score α]

/-- The change replaces the text of the window found for the candidate's search text. -/
structure AnchoredAt (p : ReconcilePolicy α) (file : Snapshot) (c ch : Change) (w : Window) :
    Prop where
  matched : matchedWindow? p.matcher c.search file.content = some w
  fits : w.Fits file.content.pieces.length
  path_eq : ch.path = file.path
  search_eq : ch.search = Text.unlines (w.slice file.content.pieces)
  replacement_eq : ch.replacement = alignEnding ch.search c.replacement

variable {p : ReconcilePolicy α} {format : EditFormat} {files : FileSet} {file : Snapshot}
  {c ch : Change}

namespace AnchoredAt

variable {w : Window} (h : AnchoredAt p file c ch w)

include h

theorem occursAt : Text.OccursAt ch.search file.content (w.leading file.content.pieces)
    (w.trailing file.content.pieces) := by
  have ho := Window.occursAt_slice h.fits
  rwa [Text.unlines_pieces, ← h.search_eq] at ho

theorem search_eq_nil_iff :
    ch.search = [] ↔ w.start = w.last ∧ file.content.pieces[w.start]? = some [] := by
  rw [h.search_eq, ← Window.slice_eq_singleton_iff h.fits]
  have hne := Window.slice_ne_nil h.fits
  rcases hl : w.slice file.content.pieces with _ | ⟨l, _ | ⟨m, ls⟩⟩
  · exact absurd hl hne
  · simp
  · simp [Text.unlines_cons]

end AnchoredAt

theorem reconcileChange_of_existing {likeness : α}
    (hfile : files.resolve c.path p.newFileThreshold = .existing file likeness) :
    reconcileChange p format files c = (placeIn p format file c).result := by
  simp only [reconcileChange, place, hfile]

theorem placeIn_of_not_blank (hsearch : c.search.blank = false) :
    placeIn p format file c =
      if (bestMatch p.matcher c.search file.content).isFound ∧
          ¬(bestMatch p.matcher c.search file.content).score ≤ p.matcher.minScore then
        .block file.path (bestMatch p.matcher c.search file.content) c.replacement
      else
        .failed (.noMatch file.path (bestMatch p.matcher c.search file.content).score c.search) := by
  rw [placeIn, hsearch, if_neg Bool.false_ne_true]
  dsimp only
  cases (bestMatch p.matcher c.search file.content).isFound <;>
    by_cases hlow : (bestMatch p.matcher c.search file.content).score ≤ p.matcher.minScore <;>
      simp [hlow]

section

variable [LawfulScore α]

theorem exists_anchoredAt_of_placeIn (hsearch : c.search.blank = false)
    (h : (placeIn p format file c).result = .ok ch) : ∃ w, AnchoredAt p file c ch w := by
  rw [placeIn_of_not_blank hsearch] at h
  split at h
  · rename_i hfound
    obtain ⟨w, hw, hmatched, hbest⟩ := exists_window_of_isFound p.matcher hfound.1
    rw [hbest] at h
    cases h
    exact ⟨w, hmatched, fits_of_mem_windows _ _ _ hw, rfl, rfl, rfl⟩
  · cases h

theorem reconcileChange_eq_ok (h : reconcileChange p format files c = .ok ch) :
    (files.get? c.path = none ∧ ch = c) ∨
      ∃ file likeness, files.resolve c.path p.newFileThreshold = .existing file likeness ∧
        ch.path = file.path ∧
        (c.search.blank = true ∧ format = .wholeFile ∧ ch.search = [] ∨
          c.search.blank = false ∧ ∃ w, AnchoredAt p file c ch w) := by
  cases hresolve : files.resolve c.path p.newFileThreshold with
  | unknown path nearest =>
      rw [reconcileChange, place, hresolve] at h
      cases h
      exact .inl ⟨FileSet.get?_of_resolve_unknown hresolve, rfl⟩
  | existing file likeness =>
      rw [reconcileChange_of_existing hresolve] at h
      refine .inr ⟨file, likeness, rfl, ?_⟩
      cases hblank : c.search.blank with
      | false =>
          obtain ⟨w, hw⟩ := exists_anchoredAt_of_placeIn hblank h
          exact ⟨hw.path_eq, .inr ⟨rfl, w, hw⟩⟩
      | true =>
          rw [placeIn, hblank, if_pos rfl] at h
          split at h
          · rename_i hformat
            cases h
            exact ⟨rfl, .inl ⟨rfl, by simpa [EditFormat.replacesWholeFile] using hformat, rfl⟩⟩
          · cases h

end

end Emend
