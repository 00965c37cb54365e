import Emend.Proofs.Matching.Optimum
import Emend.Proofs.Matching.Query
import Emend.Proofs.Reconcile.Anchor
import Emend.Proofs.Score.Double

namespace Emend

open Text

section

variable {α : Type} [Score α] [LawfulScore α] {p : ReconcilePolicy α} {format : EditFormat}
  {files : FileSet} {file : Snapshot} {likeness : α} {c ch : Change} {w : Window}

theorem exists_anchoredAt
    (hfile : files.resolve c.path p.newFileThreshold = .existing file likeness)
    (hsearch : c.search.blank = false) (h : reconcileChange p format files c = .ok ch) :
    ∃ w, AnchoredAt p file c ch w := by
  rw [reconcileChange_of_existing hfile] at h
  exact exists_anchoredAt_of_placeIn hsearch h

theorem AnchoredAt.wins (hp : p.matcher.IsFinite) (hs : c.search.length < word)
    (hc : file.content.length < word) (h : AnchoredAt p file c ch w) :
    Wins (scoreOf p.matcher (queryLines c.search) file.content.pieces)
      (windows p.matcher (queryLines c.search) file.content.pieces) w :=
  ((window_prunedBest_eq_some_iff hp (counted_pieces hs hc)).1 h.matched).1

theorem bestMatch_of_wins {m : MatchPolicy α} {search content : Text} (hm : m.IsFinite)
    (hs : search.length < word) (hc : content.length < word) (hsearch : search.blank = false)
    (hwins : Wins (scoreOf m (queryLines search) content.pieces)
      (windows m (queryLines search) content.pieces) w)
    (hno : noScore < scoreOf m (queryLines search) content.pieces w) :
    bestMatch m search content =
      ⟨unlines (w.slice content.pieces), scoreOf m (queryLines search) content.pieces w⟩ := by
  have hwindow := (window_prunedBest_eq_some_iff hm (counted_pieces hs hc)).2
    ⟨hwins, not_lt_of_lt hno⟩
  have hbest : prunedBest m (queryLines search) content.pieces =
      ⟨scoreOf m (queryLines search) content.pieces w, some w⟩ := by
    rcases prunedBest_isFrom m (queryLines search) content.pieces with hb | ⟨v, -, hb⟩
    · rw [hb] at hwindow
      cases hwindow
    · rw [hb] at hwindow
      obtain rfl : v = w := Option.some.inj hwindow
      exact hb
  obtain ⟨q, qs, hq⟩ := List.exists_cons_of_ne_nil (queryLines_ne_nil hsearch)
  rw [bestMatch]
  rw [hq] at hbest ⊢
  dsimp only
  rw [hbest]
  rfl

theorem reconcileChange_of_wins (p : ReconcilePolicy α) (format : EditFormat) (file : Snapshot)
    (c : Change) (w : Window) (hp : p.matcher.IsFinite) (hs : c.search.length < word)
    (hc : file.content.length < word)
    (hfile : files.resolve c.path p.newFileThreshold = .existing file likeness)
    (hsearch : c.search.blank = false)
    (hwins : Wins (scoreOf p.matcher (queryLines c.search) file.content.pieces)
      (windows p.matcher (queryLines c.search) file.content.pieces) w)
    (hno : noScore < scoreOf p.matcher (queryLines c.search) file.content.pieces w)
    (hmin : ¬scoreOf p.matcher (queryLines c.search) file.content.pieces w ≤ p.matcher.minScore)
    (hblock : unlines (w.slice file.content.pieces) ≠ unmatchableBlock) :
    reconcileChange p format files c = .ok ⟨file.path, unlines (w.slice file.content.pieces),
      alignEnding (unlines (w.slice file.content.pieces)) c.replacement⟩ := by
  have hbest := bestMatch_of_wins hp hs hc hsearch hwins hno
  rw [reconcileChange_of_existing hfile, placeIn_of_not_blank hsearch, hbest, if_pos]
  · rfl
  · exact ⟨by simp [Match.isFound, Match.isInsertion, hno, hblock], hmin⟩

/-- An edit of a known file becomes a replacement of the whole file exactly when an empty line of
the file wins the search; otherwise all text around the block is kept. -/
theorem createsFile_iff_empty_line_wins (hp : p.matcher.IsFinite)
    (hfile : files.resolve c.path p.newFileThreshold = .existing file likeness)
    (hsearch : c.search.blank = false) (hs : c.search.length < word)
    (hc : file.content.length < word) (h : reconcileChange p format files c = .ok ch) :
    (ch.createsFile = true ↔ ∃ i, file.content.pieces[i]? = some [] ∧
      Wins (scoreOf p.matcher (queryLines c.search) file.content.pieces)
        (windows p.matcher (queryLines c.search) file.content.pieces) ⟨i, i⟩) ∧
    (ch.createsFile = true → ch.apply file.content = .ok ch.replacement) ∧
    (ch.createsFile = false → ∃ before rest, file.content = before ++ ch.search ++ rest ∧
      ch.apply file.content = .ok (before ++ ch.replacement ++ rest)) := by
  obtain ⟨w, hw⟩ := exists_anchoredAt hfile hsearch h
  refine ⟨?_, fun hcreate => Change.apply_of_createsFile hcreate, fun hkeep => ?_⟩
  · rw [Change.createsFile_iff, hw.search_eq_nil_iff]
    constructor
    · rintro ⟨he, hline⟩
      have hwins := hw.wins hp hs hc
      obtain ⟨start, last⟩ := w
      obtain rfl : start = last := he
      exact ⟨start, hline, hwins⟩
    · rintro ⟨i, hline, hwins⟩
      obtain rfl := (hw.wins hp hs hc).unique hwins
      exact ⟨rfl, hline⟩
  · have hne : ch.search ≠ [] := fun hnil => by
      rw [Change.createsFile_iff.2 hnil] at hkeep
      cases hkeep
    obtain ⟨before, rest, hoccurs, -, happly⟩ := Change.exists_apply hne hw.occursAt
    exact ⟨before, rest, hoccurs, happly⟩

/-- An edit with a block can be applied. It lands on the window that the block was taken from
exactly when no occurrence of the block stands further left, or when moving the edit from the
leftmost occurrence to the window makes no difference. -/
theorem apply_eq_splice_iff
    (hfile : files.resolve c.path p.newFileThreshold = .existing file likeness)
    (hsearch : c.search.blank = false) (h : reconcileChange p format files c = .ok ch)
    (hne : ch.search ≠ []) :
    ∃ w, matchedWindow? p.matcher c.search file.content = some w ∧
      w.Fits file.content.pieces.length ∧ ch.search = unlines (w.slice file.content.pieces) ∧
      (∃ t, ch.apply file.content = .ok t) ∧
      (ch.apply file.content = .ok (w.splice file.content.pieces ch.replacement) ↔
        ∃ before gap, w.leading file.content.pieces = before ++ gap ∧
          IsFirst ch.search file.content before ∧ SlidesAlike gap ch.search ch.replacement) := by
  obtain ⟨w, hw⟩ := exists_anchoredAt hfile hsearch h
  obtain ⟨before, rest, hoccurs, hfirst, happly⟩ := Change.exists_apply hne hw.occursAt
  refine ⟨w, hw.matched, hw.fits, hw.search_eq, ⟨_, happly⟩, ?_⟩
  rw [happly, Except.ok.injEq, Window.splice_eq, replace_first_eq_iff hoccurs hfirst hw.occursAt]
  constructor
  · rintro ⟨gap, hgap, hslides⟩
    exact ⟨before, gap, hgap, hfirst, hslides⟩
  · rintro ⟨before', gap, hgap, hfirst', x, hold, hnew⟩
    have hoccurs' : OccursAt ch.search file.content before'
        (x ++ w.trailing file.content.pieces) := by
      have ho := hw.occursAt
      refine ho.trans ?_
      rw [hgap, List.append_assoc before' gap, hold]
      simp
    have hlen : before.length = before'.length :=
      Nat.le_antisymm (hfirst _ _ hoccurs') (hfirst' _ _ hoccurs)
    obtain ⟨rfl, -⟩ := hoccurs.unique hoccurs' hlen
    exact ⟨gap, hgap, x, hold, hnew⟩

end

theorem standard_isFinite : (MatchPolicy.standard : MatchPolicy Float).IsFinite :=
  ⟨Double.finite_iff.2 rfl, Double.finite_iff.2 rfl⟩

def spacedFile : Snapshot := ⟨"a.txt".toList, "\nabc\n".toList⟩

def unrelatedEdit : Change := ⟨"a.txt".toList, "xyz".toList, "new".toList⟩

theorem resolve_unrelatedEdit (threshold : Float) :
    FileSet.resolve [spacedFile] unrelatedEdit.path threshold =
      .existing spacedFile (Score.ofNat 1) :=
  FileSet.resolve_of_get? (by decide)

theorem reconcileChange_unrelatedEdit :
    reconcileChange (.standard : ReconcilePolicy Float) .searchReplace [spacedFile] unrelatedEdit =
      .ok ⟨"a.txt".toList, [], "new".toList⟩ :=
  reconcileChange_of_wins _ _ spacedFile unrelatedEdit ⟨0, 0⟩ standard_isFinite (by decide)
    (by decide) (resolve_unrelatedEdit _) (by decide) (by decide +kernel) (by decide +kernel)
    (by decide +kernel) (by decide)

theorem createsFile_unrelatedEdit :
    reconcileChange (.standard : ReconcilePolicy Float) .searchReplace [spacedFile] unrelatedEdit =
        .ok ⟨"a.txt".toList, [], "new".toList⟩ ∧
      (⟨"a.txt".toList, [], "new".toList⟩ : Change).createsFile = true :=
  ⟨reconcileChange_unrelatedEdit,
    (createsFile_iff_empty_line_wins standard_isFinite
      (resolve_unrelatedEdit _) (by decide) (by decide) (by decide)
      reconcileChange_unrelatedEdit).1.2 ⟨0, by decide, by decide +kernel⟩⟩

/-- Not every edit of a known file that succeeds has a block. -/
theorem not_forall_search_ne_nil :
    ¬∀ (p : ReconcilePolicy Float) (format : EditFormat) (files : FileSet) (file : Snapshot)
      (likeness : Float) (c ch : Change), p.matcher.IsFinite →
      files.resolve c.path p.newFileThreshold = .existing file likeness →
      c.search.blank = false → reconcileChange p format files c = .ok ch → ch.search ≠ [] :=
  fun h => h _ _ _ _ _ _ _ standard_isFinite
    (resolve_unrelatedEdit _) (by decide)
    reconcileChange_unrelatedEdit rfl

def echoingFile : Snapshot := ⟨"a.txt".toList, "xab\nab".toList⟩

def lineEdit : Change := ⟨"a.txt".toList, "ab".toList, "c".toList⟩

theorem resolve_lineEdit (threshold : Float) :
    FileSet.resolve [echoingFile] lineEdit.path threshold = .existing echoingFile (Score.ofNat 1) :=
  FileSet.resolve_of_get? (by decide)

theorem wins_lineEdit :
    Wins (scoreOf (.standard : MatchPolicy Float) (queryLines lineEdit.search)
        echoingFile.content.pieces)
      (windows (.standard : MatchPolicy Float) (queryLines lineEdit.search)
        echoingFile.content.pieces) ⟨1, 1⟩ := by
  decide +kernel

theorem reconcileChange_lineEdit :
    reconcileChange (.standard : ReconcilePolicy Float) .searchReplace [echoingFile] lineEdit =
      .ok lineEdit :=
  reconcileChange_of_wins _ _ echoingFile lineEdit ⟨1, 1⟩ standard_isFinite (by decide) (by decide)
    (resolve_lineEdit _) (by decide) wins_lineEdit (by decide +kernel)
    (by decide +kernel) (by decide)

theorem matchedWindow?_lineEdit :
    matchedWindow? (.standard : MatchPolicy Float) lineEdit.search echoingFile.content =
      some ⟨1, 1⟩ :=
  (window_prunedBest_eq_some_iff standard_isFinite (counted_pieces (by decide) (by decide))).2
    ⟨wins_lineEdit, by decide +kernel⟩

theorem apply_lineEdit_eq_splice_iff :
    lineEdit.apply echoingFile.content =
        .ok (Window.splice ⟨1, 1⟩ echoingFile.content.pieces lineEdit.replacement) ↔
      ∃ before gap, Window.leading ⟨1, 1⟩ echoingFile.content.pieces = before ++ gap ∧
        IsFirst lineEdit.search echoingFile.content before ∧
        SlidesAlike gap lineEdit.search lineEdit.replacement := by
  obtain ⟨w, hw, -, -, -, hiff⟩ := apply_eq_splice_iff
    (resolve_lineEdit _) (by decide)
    reconcileChange_lineEdit (by decide)
  obtain rfl : ⟨1, 1⟩ = w := Option.some.inj (matchedWindow?_lineEdit.symm.trans hw)
  exact hiff

/-- Not every edit lands on the window that its block was taken from. -/
theorem not_forall_apply_eq_splice :
    ¬∀ (p : ReconcilePolicy Float) (format : EditFormat) (files : FileSet) (file : Snapshot)
      (likeness : Float) (c ch : Change) (w : Window), p.matcher.IsFinite →
      files.resolve c.path p.newFileThreshold = .existing file likeness → c.search.blank = false →
      reconcileChange p format files c = .ok ch → ch.search ≠ [] →
      matchedWindow? p.matcher c.search file.content = some w →
      ch.apply file.content = .ok (w.splice file.content.pieces ch.replacement) := fun h => by
  have hland := h _ _ _ _ _ _ _ _ standard_isFinite
    (resolve_lineEdit _) (by decide)
    reconcileChange_lineEdit (by decide) matchedWindow?_lineEdit
  have hstray : lineEdit.apply echoingFile.content = .ok "xc\nab".toList := rfl
  rw [hstray] at hland
  exact absurd (Except.ok.inj hland) (by decide)

end Emend
