import Emend.Proofs.Format.Diff
import Emend.Proofs.Reconcile.Standing

namespace Emend

open Text

/-- The hunk can be written as a diff, and its old side is the window's lines. -/
structure HunkAt (content : Text) (hunk : List DiffLine) (w : Window) : Prop where
  fits : w.Fits content.pieces.length
  old_eq : hunk.filterMap DiffLine.old? = w.slice content.pieces
  first_not_blank : ∀ l, (w.slice content.pieces).head? = some l → l.blank = false
  last_not_blank : ∀ l, (w.slice content.pieces).getLast? = some l → l.blank = false
  new_ne_nil : hunk.filterMap DiffLine.new? ≠ []
  isLine : ∀ d ∈ hunk, IsLine d.text
  plain : ∀ d ∈ hunk, d.Plain

/-- The window's text occurs nowhere else, and no other window agrees with it. -/
structure Unmistakable (content : Text) (w : Window) : Prop where
  once : occurrences (unlines (w.slice content.pieces)) content = 1
  ne_unmatchable : unlines (w.slice content.pieces) ≠ unmatchableBlock
  only : ∀ v ∈ windows (.standard : MatchPolicy Float) (w.slice content.pieces) content.pieces,
    v ≠ w → ¬Agrees (w.slice content.pieces) (v.slice content.pieces)

namespace HunkAt

variable {content : Text} {hunk : List DiffLine} {w : Window} (h : HunkAt content hunk w)

include h

theorem slice_isLine : ∀ l ∈ w.slice content.pieces, IsLine l := by
  rw [← h.old_eq]
  intro l hl
  obtain ⟨d, hd, rfl⟩ := DiffLine.mem_of_old hl
  exact h.isLine d hd

theorem search_eq (path : Text) :
    (Change.ofDiffLines path hunk).search = terminated (w.slice content.pieces) := by
  rw [Change.ofDiffLines, h.old_eq]

theorem block_not_blank : (unlines (w.slice content.pieces)).blank = false :=
  blank_unlines_eq_false (Window.slice_ne_nil h.fits) h.first_not_blank

theorem search_not_blank : (terminated (w.slice content.pieces)).blank = false := by
  rw [terminated_eq (Window.slice_ne_nil h.fits), blank_append, h.block_not_blank, Bool.false_and]

theorem block_ne_nil : unlines (w.slice content.pieces) ≠ [] := by
  have hblank := h.block_not_blank
  intro hnil
  rw [hnil] at hblank
  cases hblank

theorem standing (honly : Unmistakable content w) (hlen : content.length < pow2 63)
    (hold : (unlines (hunk.filterMap DiffLine.old?)).length ≤ pow2 48) : Standing content w where
  fits := h.fits
  first_not_blank := h.first_not_blank
  last_not_blank := h.last_not_blank
  no_return l hl := (h.slice_isLine l hl).no_return
  only := honly.only
  length_lt := hlen
  length_block_le := h.old_eq ▸ hold

end HunkAt

section

variable {files : FileSet} {file : Snapshot} {hunk : List DiffLine} {w : Window} {diff : Text}

theorem reconcileChange_ofDiffLines {p : ReconcilePolicy Float} (hp : p.matcher = .standard)
    (format : EditFormat) (hfile : files.get? file.path = some file)
    (hhunk : HunkAt file.content hunk w) (honly : Unmistakable file.content w)
    (hlen : file.content.length < pow2 63)
    (hold : (unlines (hunk.filterMap DiffLine.old?)).length ≤ pow2 48) :
    reconcileChange p format files (.ofDiffLines file.path hunk) =
      .ok ⟨file.path, unlines (hunk.filterMap DiffLine.old?),
        unlines (hunk.filterMap DiffLine.new?)⟩ := by
  have hstanding := hhunk.standing honly hlen hold
  have halign : alignEnding (unlines (w.slice file.content.pieces))
      (Change.ofDiffLines file.path hunk).replacement = unlines (hunk.filterMap DiffLine.new?) :=
    hstanding.alignEnding_terminated hhunk.new_ne_nil
  rw [hstanding.reconcileChange_of_search_eq hp format (FileSet.resolve_of_get? hfile)
    (hhunk.search_eq file.path), if_neg honly.ne_unmatchable, halign, hhunk.old_eq]

/-- A hunk that stands in a known file, once and unmistakably, comes out as the one change from its
old lines to its new ones, and applying that change replaces exactly the window's lines. The bounds
are those of a machine: a text's length fits a word, and doubles still tell the old text from one
that differs in a single character. -/
theorem reconcile_hunk (hfile : files.get? file.path = some file)
    (htrim : file.path.trim = file.path) (hne : file.path ≠ []) (hfeed : '\n' ∉ file.path)
    (hhunk : HunkAt file.content hunk w) (honly : Unmistakable file.content w)
    (hlen : file.content.length < pow2 63)
    (hold : (unlines (hunk.filterMap DiffLine.old?)).length ≤ pow2 48)
    (hdiff : diff = unlines (diffLines file.path hunk) ∨
      diff = terminated (diffLines file.path hunk))
    (hfence : diff.includes fence = false) :
    ∃ ch : Change, reconcile (.standard : ReconcilePolicy Float) files diff = ⟨[ch], []⟩ ∧
      ch = ⟨file.path, unlines (hunk.filterMap DiffLine.old?),
        unlines (hunk.filterMap DiffLine.new?)⟩ ∧
      ch.apply file.content = .ok (unlines (file.content.pieces.take w.start ++
        hunk.filterMap DiffLine.new? ++ file.content.pieces.drop (w.last + 1))) := by
  refine ⟨_, ?_, rfl, ?_⟩
  · have hnoop : (Change.ofDiffLines file.path hunk).isNoop = false := by
      rw [Change.isNoop, hhunk.search_eq, hhunk.search_not_blank, Bool.false_and, Bool.or_false]
      exact blank_eq_false_of_trim htrim hne
    have hcandidates := candidates_of_lines htrim hne hhunk.plain hhunk.isLine
      (lines_of_diffLines htrim hfeed hhunk.isLine hdiff) hfence hnoop
    have hchange := reconcileChange_ofDiffLines (p := .standard) rfl .unifiedDiff hfile hhunk honly
      hlen hold
    have hstandard : (ReconcilePolicy.standard : ReconcilePolicy Float).editFormat = .unifiedDiff :=
      rfl
    rw [reconcile, hstandard, hcandidates, reconcileChanges, placements,
      List.filter_cons_of_pos (by rw [hnoop]; rfl), List.filter_nil, List.map_cons, List.map_nil]
    rw [reconcileChange] at hchange
    simp only [Reconciliation.ofPlacements, List.filterMap_cons, List.filterMap_nil, hchange,
      Except.toOption]
  · have hoccurs := Window.occursAt_slice hhunk.fits
    rw [unlines_pieces] at hoccurs
    have hfirst := isFirst_of_occurrences hoccurs honly.once
    rw [hhunk.old_eq, unlines_append_append _ hhunk.new_ne_nil]
    exact (Change.apply_eq_ok_iff hhunk.block_ne_nil).2 ⟨_, _, hoccurs, hfirst, rfl⟩

end

def twoLineFile : Snapshot := ⟨"a.txt".toList, "one\ntwo\n".toList⟩

def lineHunk : List DiffLine :=
  [.context "one".toList, .removed "two".toList, .added "three".toList]

theorem hunkAt_lineHunk : HunkAt twoLineFile.content lineHunk ⟨0, 1⟩ where
  fits := ⟨by decide, by decide⟩
  old_eq := by decide
  first_not_blank := by
    rintro l ⟨⟩
    decide
  last_not_blank := by
    rintro l ⟨⟩
    decide
  new_ne_nil := by decide
  isLine := by decide
  plain := by decide

theorem unmistakable_twoLineFile : Unmistakable twoLineFile.content ⟨0, 1⟩ where
  once := by decide
  ne_unmatchable := by decide
  only := by decide +kernel

theorem reconcile_lineHunk :
    ∃ ch : Change, reconcile (.standard : ReconcilePolicy Float) [twoLineFile]
        "+++ a.txt\n@@ @@\n one\n-two\n+three\n".toList = ⟨[ch], []⟩ ∧
      ch = ⟨"a.txt".toList, "one\ntwo".toList, "one\nthree".toList⟩ ∧
      ch.apply twoLineFile.content = .ok "one\nthree\n".toList :=
  reconcile_hunk (by decide) (by decide) (by decide) (by decide) hunkAt_lineHunk
    unmistakable_twoLineFile (by decide) (by decide) (.inr (by decide)) (by decide)

end Emend
