import Emend.Proofs.Format.EditFormat
import Emend.Proofs.Reconcile.Changes

namespace Emend

/-- The response writes the candidate without text to look for: in a hunk that only adds lines, in
a marker block whose first text is empty, or as a whole file. -/
def EditFormat.WritesNoSearch : EditFormat → (response : Text) → Change → Prop
  | unifiedDiff, response, c => ∃ diff ∈ diffBlocks response, ∃ hunk ∈ Hunk.ofDiff diff,
      hunk.toChange = c ∧ ∀ l ∈ hunk.text.lines, (DiffLine.ofLine l).Adds
  | searchReplace, response, c => ∃ b ∈ MarkerBlock.all response,
      b.toChange? = some c ∧ b.search = []
  | wholeFile, response, c => ∃ b ∈ FileBlock.ofMarkdown response, b.toChange = c

theorem MarkerBlock.search_of_toChange? {b : MarkerBlock} {c : Change}
    (h : b.toChange? = some c) : c.search = b.search := by
  obtain ⟨path, -, rfl⟩ := Option.map_eq_some_iff.1 h
  rfl

theorem EditFormat.search_eq_nil_iff {format : EditFormat} {response : Text} {c : Change}
    (h : c ∈ format.candidates response) : c.search = [] ↔ format.WritesNoSearch response c := by
  cases format with
  | unifiedDiff =>
      obtain ⟨⟨diff, hdiff, hunk, hhunk, rfl⟩, -⟩ := mem_candidates_unifiedDiff.1 h
      constructor
      · intro hnil
        exact ⟨diff, hdiff, hunk, hhunk, rfl, Hunk.search_toChange_eq_nil_iff.1 hnil⟩
      · rintro ⟨-, -, hunk', -, heq, hadds⟩
        rw [← heq]
        exact Hunk.search_toChange_eq_nil_iff.2 hadds
  | searchReplace =>
      obtain ⟨b, hb, hchange, -⟩ := mem_candidates_searchReplace.1 h
      constructor
      · intro hnil
        exact ⟨b, hb, hchange, MarkerBlock.search_of_toChange? hchange ▸ hnil⟩
      · rintro ⟨b', -, hchange', hnil⟩
        rw [MarkerBlock.search_of_toChange? hchange', hnil]
  | wholeFile =>
      obtain ⟨b, hb, rfl, -⟩ := mem_candidates_wholeFile.1 h
      exact iff_of_true rfl ⟨b, hb, rfl⟩

section

variable {α : Type} [Score α] [LawfulScore α] {p : ReconcilePolicy α} {files : FileSet}
  {response : Text} {ch : Change}

theorem mem_candidates_of_unknown_path (h : ch ∈ (reconcile p files response).changes)
    (hpath : files.get? ch.path = none) : ch ∈ p.editFormat.candidates response := by
  obtain ⟨c, hc, -, hok⟩ := mem_changes_iff.1 h
  rcases reconcileChange_eq_ok hok with ⟨-, rfl⟩ | ⟨file, likeness, hexisting, hfile, -⟩
  · exact hc
  · rw [hfile, FileSet.get?_of_resolve_existing hexisting] at hpath
    cases hpath

/-- A change for an unknown path creates the file exactly when the response wrote no text to look
for. Any other can never be applied, although it counts as successful. -/
theorem apply_of_unknown_path (h : ch ∈ (reconcile p files response).changes)
    (hpath : files.get? ch.path = none) :
    (ch.search = [] ↔ p.editFormat.WritesNoSearch response ch) ∧
      (ch.search = [] → ch.createsFile = true ∧ ch.apply [] = .ok ch.replacement) ∧
      (ch.search ≠ [] → ch.apply [] = .error (.searchNotFound ch.path)) := by
  refine ⟨?_, fun hnil => ?_, Change.apply_nil⟩
  · exact EditFormat.search_eq_nil_iff (mem_candidates_of_unknown_path h hpath)
  · have hcreates := Change.createsFile_iff.2 hnil
    exact ⟨hcreates, Change.apply_of_createsFile hcreates⟩

end

def newLineDiff : Text := "+++ b.txt\n@@ @@\n+y\n".toList

def strayDiff : Text := "+++ b.txt\n@@ @@\n-x\n+y\n".toList

theorem mem_changes_newLineDiff :
    (⟨"b.txt".toList, [], "y\n".toList⟩ : Change) ∈
      (reconcile (.standard : ReconcilePolicy Float) [] newLineDiff).changes := by
  have hcandidates : EditFormat.unifiedDiff.candidates newLineDiff =
      [.ofDiffLines "b.txt".toList [.added "y".toList]] :=
    candidates_of_lines (by decide) (by decide) (by decide) (by decide) (by decide) (by decide)
      (by decide)
  exact mem_changes_iff.2 ⟨_, hcandidates ▸ List.mem_singleton_self _, by decide, rfl⟩

theorem mem_changes_strayDiff :
    (⟨"b.txt".toList, "x\n".toList, "y\n".toList⟩ : Change) ∈
      (reconcile (.standard : ReconcilePolicy Float) [] strayDiff).changes := by
  have hcandidates : EditFormat.unifiedDiff.candidates strayDiff =
      [.ofDiffLines "b.txt".toList [.removed "x".toList, .added "y".toList]] :=
    candidates_of_lines (by decide) (by decide) (by decide) (by decide) (by decide) (by decide)
      (by decide)
  exact mem_changes_iff.2 ⟨_, hcandidates ▸ List.mem_singleton_self _, by decide, rfl⟩

theorem apply_newLineDiff :
    (⟨"b.txt".toList, [], "y\n".toList⟩ : Change).apply [] = .ok "y\n".toList :=
  ((apply_of_unknown_path mem_changes_newLineDiff rfl).2.1 rfl).2

theorem not_forall_search_eq_nil :
    ¬∀ (p : ReconcilePolicy Float) (files : FileSet) (response : Text) (ch : Change),
      ch ∈ (reconcile p files response).changes → files.get? ch.path = none → ch.search = [] := by
  intro h
  exact absurd (h _ _ _ _ mem_changes_strayDiff rfl) (by decide)

end Emend
