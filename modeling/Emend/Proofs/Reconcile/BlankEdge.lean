import Emend.Format.Hunk
import Emend.Proofs.Reconcile.Standing

namespace Emend

open Text

/-- A file's lines around a window, cut where blank ones next to the window end. -/
structure Padding (content : Text) (w : Window) where
  before : List Text
  above : List Text
  below : List Text
  after : List Text
  take_eq : content.pieces.take w.start = before ++ above
  drop_eq : content.pieces.drop (w.last + 1) = below ++ after
  above_blank : ∀ l ∈ above, l.blank = true
  below_blank : ∀ l ∈ below, l.blank = true
  padded : above ++ below ≠ []

namespace Padding

variable {content : Text} {w : Window} (pad : Padding content w)

def around (ls : List Text) : List Text := pad.above ++ ls ++ pad.below

def filled (ls : List Text) : Text := unlines (pad.before ++ ls ++ pad.after)

theorem around_ne_nil (ls : List Text) : pad.around ls ≠ [] := by
  intro hnil
  rw [around] at hnil
  obtain ⟨habove, hbelow⟩ := List.append_eq_nil_iff.1 hnil
  obtain ⟨habove, -⟩ := List.append_eq_nil_iff.1 habove
  exact pad.padded (by rw [habove, hbelow, List.append_nil])

theorem sublist_around (hfits : w.Fits content.pieces.length) :
    (pad.around (w.slice content.pieces)).Sublist content.pieces := by
  have hpieces := Window.take_append_slice_append_drop hfits
  rw [pad.take_eq, pad.drop_eq] at hpieces
  exact List.IsInfix.sublist ⟨pad.before, pad.after, by simpa [around] using hpieces⟩

/-- The blank lines that the window's place keeps are there a second time. -/
theorem splice_around (ls : List Text) :
    w.splice content.pieces (unlines (pad.around ls)) =
      pad.filled (pad.above ++ pad.around ls ++ pad.below) := by
  have hunlines := unlines_append_append (pad.before ++ pad.above) (pad.around_ne_nil ls)
    (pad.below ++ pad.after)
  rw [Window.splice_eq, Window.leading, Window.trailing, pad.take_eq, pad.drop_eq, ← hunlines, filled]
  simp

theorem length_splice_around (ls : List Text) :
    (w.splice content.pieces (unlines (pad.around ls))).length =
      (pad.filled (pad.around ls)).length + (terminated (pad.above ++ pad.below)).length := by
  rw [Window.splice_eq, Window.leading, Window.trailing, pad.take_eq, pad.drop_eq, filled,
    unlines_append_append _ (pad.around_ne_nil ls)]
  simp only [List.length_append, length_preceded, terminated_append]
  omega

end Padding

section

variable {p : ReconcilePolicy Float} {files : FileSet} {file : Snapshot} {likeness : Float}
  {h : Hunk} {w : Window}

/-- A hunk of a known file with blank context lines at its ends is reconciled unless the lines
between them are the text that stands for an insertion, and the change applies. But the result is
always longer than the file with the hunk's new side in the place of its old one, by all the blank
lines: they are there twice, at least if the text between them occurs nowhere else. -/
theorem apply_padded (hp : p.matcher = .standard) (format : EditFormat)
    (hfile : files.resolve h.path p.newFileThreshold = .existing file likeness)
    (hstanding : Standing file.content w) (pad : Padding file.content w) {new : List Text}
    (hold : (h.text.lines.map DiffLine.ofLine).filterMap DiffLine.old? =
      pad.around (w.slice file.content.pieces))
    (hnew : (h.text.lines.map DiffLine.ofLine).filterMap DiffLine.new? = pad.around new) :
    let block := unlines (w.slice file.content.pieces)
    (block = unmatchableBlock → reconcileChange p format files h.toChange =
        .error (.noMatch file.path fullScore h.toChange.search)) ∧
      (block ≠ unmatchableBlock → reconcileChange p format files h.toChange =
        .ok ⟨file.path, block, unlines (pad.around new)⟩) ∧
      ∃ t, (⟨file.path, block, unlines (pad.around new)⟩ : Change).apply file.content = .ok t ∧
        t.length =
          (pad.filled (pad.around new)).length + (terminated (pad.above ++ pad.below)).length ∧
        (occurrences block file.content = 1 →
          t = pad.filled (pad.above ++ pad.around new ++ pad.below)) := by
  intro block
  have hsearch : h.toChange.search = terminated (pad.around (w.slice file.content.pieces)) := by
    rw [Hunk.toChange, Change.ofDiffLines, hold]
  have hsub := pad.sublist_around hstanding.fits
  have hquery : queryLines h.toChange.search = w.slice file.content.pieces := by
    rw [hsearch]
    exact hstanding.queryLines_terminated hsub pad.above_blank pad.below_blank
  have hlength : h.toChange.search.length < word := by
    rw [hsearch]
    exact hstanding.length_terminated_lt hsub
  have hchange := hstanding.reconcileChange_eq hp format hfile hquery hlength
  have halign : alignEnding block h.toChange.replacement = unlines (pad.around new) := by
    rw [Hunk.toChange, Change.ofDiffLines, hnew]
    exact hstanding.alignEnding_terminated (pad.around_ne_nil new)
  rw [halign] at hchange
  refine ⟨fun hblock => hchange.trans (if_pos hblock), fun hblock => hchange.trans (if_neg hblock), ?_⟩
  obtain ⟨t, happly, hlen, honce⟩ := hstanding.exists_apply file.path (unlines (pad.around new))
  exact ⟨t, happly, hlen.trans (pad.length_splice_around new),
    fun hone => (honce hone).trans (pad.splice_around new)⟩

end

def spacedLinesFile : Snapshot := ⟨"a.txt".toList, "a\n\nb\nd\n".toList⟩

def spacedLine : Window := ⟨2, 2⟩

def spacedHunk : Hunk := ⟨"a.txt".toList, " \n-b\n+c\n".toList⟩

def spacedPadding : Padding spacedLinesFile.content spacedLine where
  before := ["a".toList]
  above := [[]]
  below := []
  after := ["d".toList, []]
  take_eq := by decide
  drop_eq := by decide
  above_blank := by decide
  below_blank := by decide
  padded := by decide

theorem standing_spacedLine : Standing spacedLinesFile.content spacedLine where
  fits := ⟨by decide, by decide⟩
  first_not_blank := by
    rintro l ⟨⟩
    decide
  last_not_blank := by
    rintro l ⟨⟩
    decide
  no_return := by decide
  only := by decide +kernel
  length_lt := by decide
  length_block_le := by decide

theorem resolve_spacedHunk (threshold : Float) :
    FileSet.resolve [spacedLinesFile] spacedHunk.path threshold =
      .existing spacedLinesFile (Score.ofNat 1) :=
  FileSet.resolve_of_get? (by decide)

theorem apply_spacedHunk :
    reconcileChange (.standard : ReconcilePolicy Float) .unifiedDiff [spacedLinesFile]
        spacedHunk.toChange = .ok ⟨"a.txt".toList, "b".toList, "\nc".toList⟩ ∧
      (⟨"a.txt".toList, "b".toList, "\nc".toList⟩ : Change).apply spacedLinesFile.content =
        .ok "a\n\n\nc\nd\n".toList := by
  have hnew : (spacedHunk.text.lines.map DiffLine.ofLine).filterMap DiffLine.new? =
      spacedPadding.around ["c".toList] := by decide
  obtain ⟨-, hchange, t, happly, -, honce⟩ := apply_padded (p := .standard) rfl .unifiedDiff
    (resolve_spacedHunk _) standing_spacedLine spacedPadding (by decide) hnew
  obtain rfl : t = "a\n\n\nc\nd\n".toList := (honce (by decide)).trans (by decide)
  exact ⟨hchange (by decide), happly⟩

/-- Blank context lines do not always come out once. -/
theorem not_forall_apply_eq_filled :
    ¬∀ (files : FileSet) (file : Snapshot) (h : Hunk) (w : Window)
      (pad : Padding file.content w) (new : List Text), files.get? h.path = some file →
      Standing file.content w → pad.after ≠ [] →
      occurrences (terminated (w.slice file.content.pieces)) file.content = 1 →
      (h.text.lines.map DiffLine.ofLine).filterMap DiffLine.old? =
        pad.around (w.slice file.content.pieces) →
      (h.text.lines.map DiffLine.ofLine).filterMap DiffLine.new? = pad.around new →
      ∃ ch, reconcileChange (.standard : ReconcilePolicy Float) .unifiedDiff files h.toChange =
          .ok ch ∧ ch.apply file.content = .ok (pad.filled (pad.around new)) := fun h => by
  obtain ⟨ch, hchange, happly⟩ := h [spacedLinesFile] spacedLinesFile spacedHunk spacedLine
    spacedPadding ["c".toList] (by decide) standing_spacedLine (by decide) (by decide) (by decide)
    (by decide)
  have hquery : queryLines spacedHunk.toChange.search =
      spacedLine.slice spacedLinesFile.content.pieces := by decide
  have hfound := standing_spacedLine.reconcileChange_eq (p := .standard) rfl .unifiedDiff
    (resolve_spacedHunk _) hquery (by decide)
  rw [if_neg (by decide)] at hfound
  obtain rfl := Except.ok.inj (hfound.symm.trans hchange)
  exact absurd (Except.ok.inj happly) (by decide)

end Emend
