import Emend.Proofs.Reconcile.Standing

namespace Emend

open Text

/-- A candidate that deletes lines of a known file, with the line feeds that end them, is reconciled
unless their text is the one that stands for an insertion, and the change applies. But the result
is always one line feed longer than the file without the lines: where the lines stood there is an
empty line, at least if their text occurs nowhere else. -/
theorem apply_deletion {p : ReconcilePolicy Float} (hp : p.matcher = .standard)
    (format : EditFormat) {files : FileSet} {file : Snapshot} {likeness : Float} {c : Change}
    {w : Window} (hfile : files.resolve c.path p.newFileThreshold = .existing file likeness)
    (h : Standing file.content w) (hended : w.last + 1 < file.content.pieces.length)
    (hsearch : c.search = terminated (w.slice file.content.pieces)) (hnothing : c.replacement = []) :
    let block := unlines (w.slice file.content.pieces)
    (block = unmatchableBlock → reconcileChange p format files c =
        .error (.noMatch file.path fullScore c.search)) ∧
      (block ≠ unmatchableBlock → reconcileChange p format files c = .ok ⟨file.path, block, []⟩) ∧
      ∃ t, (⟨file.path, block, []⟩ : Change).apply file.content = .ok t ∧
        t.length = (w.without file.content.pieces).length + 1 ∧
        (occurrences block file.content = 1 → t = w.splice file.content.pieces []) := by
  intro block
  have hchange := h.reconcileChange_of_search_eq hp format hfile hsearch
  have halign : alignEnding block c.replacement = [] := by
    rw [hnothing, alignEnding, if_neg (by simp)]
  rw [halign] at hchange
  refine ⟨fun hblock => hchange.trans (if_pos hblock), fun hblock => hchange.trans (if_neg hblock), ?_⟩
  obtain ⟨t, happly, hlen, honce⟩ := h.exists_apply file.path []
  exact ⟨t, happly, hlen.trans (Window.length_splice_nil hended), honce⟩

def threeLineFile : Snapshot := ⟨"a.txt".toList, "a\nb\nc\n".toList⟩

def secondLine : Window := ⟨1, 1⟩

def lineDeletion : Change := ⟨"a.txt".toList, "b\n".toList, []⟩

theorem standing_secondLine : Standing threeLineFile.content secondLine where
  fits := ⟨by decide, by decide⟩
  first_not_blank := by
    rintro l ⟨⟩
    decide
  last_not_blank := by
    rintro l ⟨⟩
    decide
  no_return := by decide
  only := by decide +kernel
  length_lt := by decide
  length_block_le := by decide

theorem resolve_lineDeletion (threshold : Float) :
    FileSet.resolve [threeLineFile] lineDeletion.path threshold =
      .existing threeLineFile (Score.ofNat 1) :=
  FileSet.resolve_of_get? (by decide)

theorem apply_lineDeletion :
    reconcileChange (.standard : ReconcilePolicy Float) .unifiedDiff [threeLineFile] lineDeletion =
        .ok ⟨"a.txt".toList, "b".toList, []⟩ ∧
      (⟨"a.txt".toList, "b".toList, []⟩ : Change).apply threeLineFile.content =
        .ok "a\n\nc\n".toList := by
  obtain ⟨-, hchange, t, happly, -, honce⟩ := apply_deletion (p := .standard) rfl .unifiedDiff
    (resolve_lineDeletion _) standing_secondLine (by decide) (by decide) rfl
  obtain rfl : t = "a\n\nc\n".toList := (honce (by decide)).trans (by decide)
  exact ⟨hchange (by decide), happly⟩

/-- Deleting lines does not always delete their line feeds. -/
theorem not_forall_apply_eq_without :
    ¬∀ (files : FileSet) (file : Snapshot) (c : Change) (w : Window),
      files.get? c.path = some file → Standing file.content w →
      w.last + 1 < file.content.pieces.length →
      c.search = terminated (w.slice file.content.pieces) →
      occurrences c.search file.content = 1 → c.replacement = [] →
      ∃ ch, reconcileChange (.standard : ReconcilePolicy Float) .unifiedDiff files c = .ok ch ∧
        ch.apply file.content = .ok (w.without file.content.pieces) := fun h => by
  obtain ⟨ch, hchange, happly⟩ := h [threeLineFile] threeLineFile lineDeletion secondLine
    (by decide) standing_secondLine (by decide) (by decide) (by decide) rfl
  have hfound := standing_secondLine.reconcileChange_of_search_eq (p := .standard) rfl .unifiedDiff
    (resolve_lineDeletion _) (by decide)
  rw [if_neg (by decide)] at hfound
  obtain rfl := Except.ok.inj (hfound.symm.trans hchange)
  exact absurd (Except.ok.inj happly) (by decide)

end Emend
