import Emend.Proofs.Format.Diff
import Emend.Proofs.Reconcile.Landing

namespace Emend

section

variable {α : Type} [Score α] {p : ReconcilePolicy α} {files : FileSet} {response : Text}
  {ch : Change}

theorem mem_changes_iff :
    ch ∈ (reconcile p files response).changes ↔
      ∃ c ∈ p.editFormat.candidates response, c.isNoop = false ∧
        reconcileChange p p.editFormat files c = .ok ch := by
  have hok (r : Except (ReconcileError α) Change) : r.toOption = some ch ↔ r = .ok ch := by
    cases r <;> simp [Except.toOption]
  simp [reconcile, reconcileChanges, placements, Reconciliation.ofPlacements, reconcileChange, hok,
    and_assoc]

variable [LawfulScore α] {file : Snapshot}

/-- A change of a known file comes from a candidate anchored there, or replaces the whole file. -/
theorem exists_candidate_of_mem_changes (h : ch ∈ (reconcile p files response).changes)
    (hfile : files.get? ch.path = some file) :
    ∃ c ∈ p.editFormat.candidates response,
      (∃ w, AnchoredAt p file c ch w) ∨ p.editFormat = .wholeFile ∧ ch.search = [] := by
  obtain ⟨c, hcandidate, -, hc⟩ := mem_changes_iff.1 h
  refine ⟨c, hcandidate, ?_⟩
  rcases reconcileChange_eq_ok hc with ⟨hnone, rfl⟩ | ⟨file', likeness, hexisting, hpath, hcase⟩
  · rw [hnone] at hfile
    cases hfile
  · have hfile' := FileSet.get?_of_resolve_existing hexisting
    rw [← hpath, hfile] at hfile'
    obtain rfl : file = file' := Option.some.inj hfile'
    rcases hcase with ⟨-, hformat, hnil⟩ | ⟨-, hw⟩
    · exact .inr ⟨hformat, hnil⟩
    · exact .inl hw

theorem anchoredAt_of_mem_changes (h : ch ∈ (reconcile p files response).changes)
    (hfile : files.get? ch.path = some file) :
    (∃ c w, AnchoredAt p file c ch w) ∨ p.editFormat = .wholeFile ∧ ch.search = [] := by
  obtain ⟨c, -, hc⟩ := exists_candidate_of_mem_changes h hfile
  exact hc.imp_left fun hw => ⟨c, hw⟩

end

/-- The search block of a change to a known file is the text of a run of the file's lines, and the
change can be applied; or the block is empty and the response gives whole files. -/
theorem search_of_mem_changes {p : ReconcilePolicy Float} {files : FileSet} {response : Text}
    {ch : Change} {file : Snapshot} (h : ch ∈ (reconcile p files response).changes)
    (hfile : files.get? ch.path = some file) :
    (∃ w : Window, w.Fits file.content.pieces.length ∧
      ch.search = Text.unlines (w.slice file.content.pieces) ∧
      (∃ before rest, file.content = before ++ ch.search ++ rest) ∧
      ∃ updated, ch.apply file.content = .ok updated) ∨
    p.editFormat = .wholeFile ∧ ch.search = [] := by
  rcases anchoredAt_of_mem_changes h hfile with ⟨c, w, hw⟩ | hwhole
  · refine .inl ⟨w, hw.fits, hw.search_eq, ⟨_, _, hw.occursAt⟩, ?_⟩
    by_cases hnil : ch.search = []
    · exact ⟨ch.replacement, Change.apply_of_createsFile (Change.createsFile_iff.2 hnil)⟩
    · obtain ⟨before, rest, -, -, happly⟩ := Change.exists_apply hnil hw.occursAt
      exact ⟨_, happly⟩
  · exact .inr hwhole

def lineDiff : Text := "+++ a.txt\n@@ @@\n-ab\n+c\n".toList

theorem candidates_lineDiff :
    EditFormat.unifiedDiff.candidates lineDiff =
      [.ofDiffLines "a.txt".toList [.removed "ab".toList, .added "c".toList]] :=
  candidates_of_lines (by decide) (by decide) (by decide) (by decide) (by decide) (by decide)
    (by decide)

theorem mem_changes_lineDiff :
    lineEdit ∈ (reconcile (.standard : ReconcilePolicy Float) [echoingFile] lineDiff).changes := by
  refine mem_changes_iff.2 ⟨_, candidates_lineDiff ▸ List.mem_singleton_self _, by decide, ?_⟩
  exact reconcileChange_of_wins _ _ echoingFile _ ⟨1, 1⟩ standard_isFinite (by decide) (by decide)
    (resolve_lineEdit _) (by decide) (by decide +kernel) (by decide +kernel)
    (by decide +kernel) (by decide)

theorem search_lineDiff :
    ∃ w : Window, w.Fits echoingFile.content.pieces.length ∧
      lineEdit.search = Text.unlines (w.slice echoingFile.content.pieces) ∧
      (∃ before rest, echoingFile.content = before ++ lineEdit.search ++ rest) ∧
      ∃ updated, lineEdit.apply echoingFile.content = .ok updated :=
  (search_of_mem_changes mem_changes_lineDiff (by decide)).resolve_right
    fun h => absurd h.2 (by decide)

end Emend
