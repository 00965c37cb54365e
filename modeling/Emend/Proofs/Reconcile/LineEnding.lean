import Emend.Proofs.Format.CodeBlock
import Emend.Proofs.Reconcile.Changes
import Emend.Proofs.Text.LineEnding

namespace Emend

open Text

theorem DiffLine.suffix_of_new? {l new : Text} (h : (ofLine l).new? = some new) : new <:+ l := by
  unfold ofLine at h
  split at h
  · cases h
  · cases h
    exact List.suffix_cons _ _
  · cases h
    exact List.suffix_cons _ _
  · cases h
    exact List.suffix_rfl

theorem Hunk.exists_body_of_mem_ofLines {path : Text} {gathered ls : List Text} {hunk : Hunk}
    (h : hunk ∈ ofLines path (terminated gathered) ls) :
    ∃ body, (∀ m ∈ body, m ∈ gathered ∨ m ∈ ls) ∧ hunk.text = terminated body := by
  induction ls generalizing path gathered with
  | nil =>
      obtain rfl := List.mem_singleton.1 h
      exact ⟨gathered, fun _ => .inl, rfl⟩
  | cons l ls ih =>
      have hclosed (h : hunk ∈ closed path (terminated gathered)) :
          ∃ body, (∀ m ∈ body, m ∈ gathered ∨ m ∈ l :: ls) ∧ hunk.text = terminated body := by
        unfold closed at h
        split at h
        · cases h
        · obtain rfl := List.mem_singleton.1 h
          exact ⟨gathered, fun _ => .inl, rfl⟩
      have hlater {name : Text} {gathered' : List Text} (hsub : gathered' ⊆ gathered ++ [l])
          (h : hunk ∈ ofLines name (terminated gathered') ls) :
          ∃ body, (∀ m ∈ body, m ∈ gathered ∨ m ∈ l :: ls) ∧ hunk.text = terminated body := by
        obtain ⟨body, hbody, htext⟩ := ih h
        refine ⟨body, fun m hm => ?_, htext⟩
        rcases hbody m hm with hm | hm
        · exact (List.mem_append.1 (hsub hm)).imp_right fun hm => by simp [List.mem_singleton.1 hm]
        · exact .inr (List.mem_cons_of_mem l hm)
      unfold ofLines at h
      split at h
      · exact hlater (List.subset_append_left _ _) h
      · exact (List.mem_append.1 h).elim hclosed (hlater (List.nil_subset _))
      · exact (List.mem_append.1 h).elim hclosed (hlater (List.nil_subset _))
      · have hmore : hunk ∈ ofLines path (terminated (gathered ++ [l])) ls := by
          simpa [terminated] using h
        exact hlater (List.Subset.refl _) hmore

theorem DiffLine.isLine_of_new? {l new : Text} (hfeed : '\n' ∉ l)
    (hreturns : ¬['\r', '\r'] <:+: l) (h : (ofLine (dropReturn l)).new? = some new) :
    IsLine new := by
  have hsuffix := suffix_of_new? h
  refine ⟨fun hmem => hfeed ((start_dropReturn l).subset (hsuffix.subset hmem)), fun hlast => ?_⟩
  obtain ⟨init, rfl⟩ := List.getLast?_eq_some_iff.1 hlast
  obtain ⟨front, hfront⟩ := hsuffix
  exact getLast?_dropReturn hreturns (by rw [← hfront]; simp)

theorem infix_of_mem_diffBlocks {response diff : Text} (h : diff ∈ diffBlocks response) :
    diff <:+: response := by
  unfold diffBlocks at h
  split at h
  · obtain rfl := List.mem_singleton.1 h
    exact List.infix_rfl
  · obtain ⟨skipped, lead, rest, -, hresponse⟩ := exists_append_of_mem_codeBlocks h
    exact ⟨skipped ++ fence ++ lead, rest, hresponse.symm⟩

theorem exists_lines_of_mem_candidates {response : Text} {c : Change}
    (h : c ∈ EditFormat.unifiedDiff.candidates response) (hreturns : ¬['\r', '\r'] <:+: response) :
    ∃ ls, (∀ l ∈ ls, IsLine l) ∧ c.replacement = terminated ls := by
  obtain ⟨⟨diff, hdiff, hunk, hhunk, rfl⟩, -⟩ := EditFormat.mem_candidates_unifiedDiff.1 h
  have hgathered : hunk ∈ Hunk.ofLines [] (terminated []) diff.lines := hhunk
  obtain ⟨body, hbody, htext⟩ := Hunk.exists_body_of_mem_ofLines hgathered
  have hlines (l : Text) (hl : l ∈ body) : '\n' ∉ l ∧ l <:+: diff :=
    exists_piece_of_mem_lines ((hbody l hl).resolve_left List.not_mem_nil)
  refine ⟨_, fun new hnew => ?_, rfl⟩
  rw [htext, lines_terminated_eq_map fun l hl => (hlines l hl).1, List.map_map,
    List.filterMap_map, List.mem_filterMap] at hnew
  obtain ⟨l, hl, hnew⟩ := hnew
  obtain ⟨hfeed, hline⟩ := hlines l hl
  refine DiffLine.isLine_of_new? hfeed (fun htwo => hreturns ?_) hnew
  exact htwo.trans (hline.trans (infix_of_mem_diffBlocks hdiff))

theorem exists_lines_of_alignEnding (block : Text) (ls : List Text) :
    ∃ ms, (∀ m ∈ ms, m ∈ ls ∨ m = []) ∧
      alignEnding block (terminated ls) ++ ['\n'] = terminated ms := by
  rcases List.eq_nil_or_concat ls with rfl | ⟨init, last, rfl⟩
  · exact ⟨[[]], by simp, by simp [alignEnding]⟩
  · unfold alignEnding
    split
    · exact ⟨init ++ [last], fun m hm => .inl (by simpa using hm), by simp [terminated]⟩
    · refine ⟨init ++ [last] ++ [[]], fun m hm => ?_, by simp [terminated]⟩
      exact (List.mem_append.1 hm).imp (by simpa using ·) List.mem_singleton.1

variable {α : Type} [Score α] {p : ReconcilePolicy α} {files : FileSet} {response : Text}
  {c ch : Change} {file : Snapshot}

theorem not_infix_of_anchoredAt {w : Window} (hw : AnchoredAt p file c ch w)
    (hc : c ∈ EditFormat.unifiedDiff.candidates response)
    (hreturns : ¬['\r', '\r'] <:+: response) : ¬['\r', '\n'] <:+: ch.replacement ++ ['\n'] := by
  obtain ⟨ls, hls, hlines⟩ := exists_lines_of_mem_candidates hc hreturns
  obtain ⟨ms, hms, hended⟩ := exists_lines_of_alignEnding ch.search ls
  rw [hw.replacement_eq, hlines, hended]
  refine not_infix_terminated fun m hm => ?_
  rcases hms m hm with hm | rfl
  · exact hls m hm
  · exact ⟨by simp, by simp⟩

/-- An edit can leave a bare line feed in what it writes or right behind it, and nowhere else. When
the response has no two carriage returns in a row, every line feed there is bare, unless it is the
first character and stands behind a carriage return of the text in front. -/
theorem line_endings_of_mem_changes [LawfulScore α]
    (hformat : p.editFormat = .unifiedDiff) (h : ch ∈ (reconcile p files response).changes)
    (hfile : files.get? ch.path = some file) (hcrlf : IsCrlf file.content) :
    ∃ before rest updated, ch.apply file.content = .ok updated ∧
      updated = before ++ ch.replacement ++ rest ∧
      (ch.search = [] ∧ before = [] ∧ rest = [] ∨ OccursAt ch.search file.content before rest) ∧
      (∀ a b, updated = a ++ '\n' :: b → a.getLast? = some '\r' ∨
        before.length ≤ a.length ∧ a.length ≤ before.length + ch.replacement.length) ∧
      (¬['\r', '\r'] <:+: response →
        (IsCrlf updated ↔ ∀ a b, ch.replacement ++ rest.take 1 = a ++ '\n' :: b →
          a = [] ∧ before.getLast? = some '\r')) := by
  obtain ⟨c, hc, hplaced⟩ := exists_candidate_of_mem_changes h hfile
  rw [hformat] at hc hplaced
  obtain ⟨w, hw⟩ := hplaced.resolve_right fun hwhole => by cases hwhole.1
  obtain ⟨before, old, rest, happly, hold, hoccurs⟩ : ∃ before old rest,
      ch.apply file.content = .ok (before ++ ch.replacement ++ rest) ∧
        file.content = before ++ old ++ rest ∧
        (ch.search = [] ∧ before = [] ∧ rest = [] ∨
          OccursAt ch.search file.content before rest) := by
    by_cases hnil : ch.search = []
    · refine ⟨[], file.content, [], ?_, by simp, .inl ⟨hnil, rfl, rfl⟩⟩
      rw [Change.apply_of_createsFile (Change.createsFile_iff.2 hnil)]
      simp
    · obtain ⟨before, rest, hoccurs, -, happly⟩ := Change.exists_apply hnil hw.occursAt
      exact ⟨before, ch.search, rest, happly, hoccurs, .inr hoccurs⟩
  rw [hold] at hcrlf
  refine ⟨before, rest, _, happly, rfl, hoccurs, fun a b => bare_feed_of_replace hcrlf,
    fun hreturns => ?_⟩
  rw [isCrlf_replace_iff hcrlf, crlfAfter_iff_of_not_infix]
  exact not_infix_append_take (not_infix_of_anchoredAt hw hc hreturns) rest

def crlfDiff : Text := "+++ a.txt\r\n@@ @@\r\n-b\r\n+c\r\n".toList

theorem candidates_crlfDiff :
    EditFormat.unifiedDiff.candidates crlfDiff =
      [.ofDiffLines "a.txt".toList [.removed "b".toList, .added "c".toList]] :=
  candidates_of_lines (by decide) (by decide) (by decide) (by decide) (by decide) (by decide)
    (by decide)

def openFile : Snapshot := ⟨"a.txt".toList, "a\r\nb".toList⟩

theorem mem_changes_openFile :
    ⟨"a.txt".toList, "b".toList, "c".toList⟩ ∈
      (reconcile (.standard : ReconcilePolicy Float) [openFile] crlfDiff).changes := by
  refine mem_changes_iff.2 ⟨_, candidates_crlfDiff ▸ List.mem_singleton_self _, by decide, ?_⟩
  exact reconcileChange_of_wins _ _ openFile _ ⟨1, 1⟩ standard_isFinite (by decide) (by decide)
    (FileSet.resolve_of_get? (by decide)) (by decide) (by decide +kernel) (by decide +kernel)
    (by decide +kernel) (by decide)

theorem line_endings_openFile :
    ∃ before rest updated,
      Change.apply ⟨"a.txt".toList, "b".toList, "c".toList⟩ openFile.content = .ok updated ∧
        updated = before ++ "c".toList ++ rest ∧
        ("b".toList = [] ∧ before = [] ∧ rest = [] ∨
          OccursAt "b".toList openFile.content before rest) ∧
        (∀ a b, updated = a ++ '\n' :: b → a.getLast? = some '\r' ∨
          before.length ≤ a.length ∧ a.length ≤ before.length + "c".toList.length) ∧
        (¬['\r', '\r'] <:+: crlfDiff →
          (IsCrlf updated ↔ ∀ a b, "c".toList ++ rest.take 1 = a ++ '\n' :: b →
            a = [] ∧ before.getLast? = some '\r')) :=
  line_endings_of_mem_changes rfl mem_changes_openFile (by decide) (by decide)

def endedFile : Snapshot := ⟨"a.txt".toList, "a\r\nb\r\n".toList⟩

theorem mem_changes_endedFile :
    ⟨"a.txt".toList, "b\r".toList, "c".toList⟩ ∈
      (reconcile (.standard : ReconcilePolicy Float) [endedFile] crlfDiff).changes := by
  refine mem_changes_iff.2 ⟨_, candidates_crlfDiff ▸ List.mem_singleton_self _, by decide, ?_⟩
  exact reconcileChange_of_wins _ _ endedFile _ ⟨1, 1⟩ standard_isFinite (by decide) (by decide)
    (FileSet.resolve_of_get? (by decide)) (by decide) (by decide +kernel) (by decide +kernel)
    (by decide +kernel) (by decide)

/-- Not every edit of such a file keeps its line endings. -/
theorem not_forall_isCrlf_apply :
    ¬∀ (p : ReconcilePolicy Float) (files : FileSet) (response : Text) (ch : Change)
      (file : Snapshot) (updated : Text), p.editFormat = .unifiedDiff → IsCrlf response →
      ch ∈ (reconcile p files response).changes → files.get? ch.path = some file →
      IsCrlf file.content → ch.apply file.content = .ok updated → IsCrlf updated := fun h => by
  have hkept := h _ _ _ _ endedFile "a\r\nc\n".toList rfl (by decide) mem_changes_endedFile
    (by decide) (by decide) rfl
  exact absurd hkept (by decide)

end Emend
