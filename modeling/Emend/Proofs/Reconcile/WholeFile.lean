import Emend.Proofs.FileSet
import Emend.Proofs.Format.FileBlock
import Emend.Proofs.Reconcile.Changes

namespace Emend

namespace FileBlock

variable {response : Text} {b : FileBlock}

theorem ofFenced?_eq_some {raw : Fenced} (h : ofFenced? raw = some b) :
    looksLikePath b.path = true ∧ b.code = trimBody raw.body := by
  rw [ofFenced?, Option.ite_none_left_eq_some] at h
  generalize raw.before.lines.reverse.find? _ = header at h
  cases header with
  | none => cases h.2
  | some header =>
      have hpath := h.2
      dsimp only [bind, Option.bind] at hpath
      cases hlooks : pathOfHeader? header with
      | none =>
          rw [hlooks] at hpath
          cases hpath
      | some path =>
          rw [hlooks] at hpath
          cases hpath
          exact ⟨looksLikePath_of_pathOfHeader? hlooks, rfl⟩

theorem isNoop_toChange (h : b ∈ ofMarkdown response) : b.toChange.isNoop = (b.code == []) := by
  obtain ⟨raw, -, hraw⟩ := List.mem_filterMap.1 h
  obtain ⟨hlooks, hcode⟩ := ofFenced?_eq_some hraw
  have hpath : b.path.blank = false := by
    cases hp : b.path with
    | nil => exact absurd hp (ne_nil_of_looksLikePath hlooks)
    | cons c path => simp [Text.blank, not_blank_of_looksLikePath hlooks c (by simp [hp])]
  have hblank : b.code.blank = (b.code == []) := by
    rw [Bool.eq_iff_iff, beq_iff_eq]
    constructor
    · intro hall
      rw [hcode] at hall ⊢
      exact Text.trimEnd_eq_nil_of_blank hall
    · intro hnil
      rw [hnil]
      rfl
  have hfeed : isBlank '\n' = true := by decide
  have hended : Text.blank (b.code ++ ['\n']) = b.code.blank := by simp [Text.blank, hfeed]
  rw [toChange, Change.isNoop, hpath, hended, hblank]
  rfl

end FileBlock

theorem EditFormat.candidates_wholeFile (response : Text) :
    wholeFile.candidates response =
      ((FileBlock.ofMarkdown response).filter (·.code != [])).map FileBlock.toChange := by
  have hid : Extracted.candidate? ∘ Extracted.candidate = some := rfl
  rw [candidates, extract, List.filterMap_map, hid, List.filterMap_some, List.filter_map]
  congr 1
  apply List.filter_congr
  intro b hb
  simp [FileBlock.isNoop_toChange hb, bne]

namespace FileSet

variable {α : Type} [Score α] {files : FileSet} {threshold : α} {stated other : Text}
  {file : Snapshot}

/-- No file has the path, and the closest one is similar enough to be meant. -/
def FoldsOnto (files : FileSet) (threshold : α) (stated : Text) (file : Snapshot) : Prop :=
  files.get? stated = none ∧ files.closest? stated = some file ∧
    ¬similarity stated file.path < threshold

/-- Two paths stand for one file, although at most one of them is the file's. -/
def Collide (files : FileSet) (threshold : α) (stated other : Text) : Prop :=
  ∃ file, files.FoldsOnto threshold stated file ∧
      (other = file.path ∨ files.FoldsOnto threshold other file) ∨
    files.FoldsOnto threshold other file ∧ stated = file.path

theorem resolve_of_foldsOnto (h : files.FoldsOnto threshold stated file) :
    (files.resolve stated threshold).path = file.path := by
  obtain ⟨hnone, hclosest, hlike⟩ := h
  simp [resolve, hnone, hclosest, hlike, Resolution.path]

theorem resolve_of_not_foldsOnto (h : ∀ file, ¬files.FoldsOnto threshold stated file) :
    (files.resolve stated threshold).path = stated := by
  rw [resolve]
  cases hget : files.get? stated with
  | some f => exact path_of_get? hget
  | none =>
      cases hclosest : files.closest? stated with
      | none => rfl
      | some f =>
          have hlike : similarity stated f.path < threshold := by
            by_contra hlike
            exact h f ⟨hget, hclosest, hlike⟩
          simp [hlike, Resolution.path]

theorem FoldsOnto.get? (h : files.FoldsOnto threshold stated file) :
    files.get? file.path = some file := get?_closest? h.2.1

theorem path_resolve_eq_iff (hne : stated ≠ other) :
    (files.resolve stated threshold).path = (files.resolve other threshold).path ↔
      files.Collide threshold stated other := by
  by_cases hs : ∃ f, files.FoldsOnto threshold stated f
  · obtain ⟨f, hf⟩ := hs
    rw [resolve_of_foldsOnto hf]
    constructor
    · intro heq
      by_cases ho : ∃ g, files.FoldsOnto threshold other g
      · obtain ⟨g, hg⟩ := ho
        rw [resolve_of_foldsOnto hg] at heq
        -- Of the files with one path only the first is found.
        have hfg : f = g := Option.some.inj (hf.get?.symm.trans (heq ▸ hg.get?))
        exact ⟨f, .inl ⟨hf, .inr (hfg ▸ hg)⟩⟩
      · rw [resolve_of_not_foldsOnto (not_exists.1 ho)] at heq
        exact ⟨f, .inl ⟨hf, .inl heq.symm⟩⟩
    · rintro ⟨g, ⟨hg, rfl | hg'⟩ | ⟨hg, rfl⟩⟩
      · rw [resolve, hg.get?]
        exact congrArg Snapshot.path (Option.some.inj (hf.2.1.symm.trans hg.2.1))
      · rw [resolve_of_foldsOnto hg']
        exact congrArg Snapshot.path (Option.some.inj (hf.2.1.symm.trans hg.2.1))
      · cases hf.1.symm.trans hg.get?
  · rw [resolve_of_not_foldsOnto (not_exists.1 hs)]
    constructor
    · intro heq
      by_cases ho : ∃ g, files.FoldsOnto threshold other g
      · obtain ⟨g, hg⟩ := ho
        rw [resolve_of_foldsOnto hg] at heq
        exact ⟨g, .inr ⟨hg, heq⟩⟩
      · rw [resolve_of_not_foldsOnto (not_exists.1 ho)] at heq
        exact absurd heq hne
    · rintro ⟨g, ⟨hg, -⟩ | ⟨hg, heq⟩⟩
      · exact absurd ⟨g, hg⟩ hs
      · rw [resolve_of_foldsOnto hg, heq]

end FileSet

section

variable {α : Type} [Score α] {p : ReconcilePolicy α} {files : FileSet} {response : Text}

theorem result_place_of_search_eq_nil {c : Change} (h : c.search = []) :
    (place p .wholeFile files c).result =
      .ok ⟨(files.resolve c.path p.newFileThreshold).path, [], c.replacement⟩ := by
  have hblank : c.search.blank = true := by rw [h]; rfl
  rw [place]
  split
  · rename_i path nearest hunknown
    have hpath : (files.resolve c.path p.newFileThreshold).path = c.path := by
      apply FileSet.resolve_of_not_foldsOnto
      intro file hfolds
      rw [FileSet.resolve, hfolds.1, hfolds.2.1] at hunknown
      dsimp only at hunknown
      rw [if_neg hfolds.2.2] at hunknown
      cases hunknown
    rw [hunknown, Resolution.path] at hpath
    rw [hunknown, Resolution.path, hpath, ← h]
    rfl
  · rename_i file likeness hexisting
    rw [hexisting, placeIn, if_pos hblank]
    rfl

def FileBlock.changeFor (p : ReconcilePolicy α) (files : FileSet) (b : FileBlock) : Change :=
  ⟨(files.resolve b.path p.newFileThreshold).path, [], b.code ++ ['\n']⟩

theorem reconcile_wholeFile (hformat : p.editFormat = .wholeFile) :
    reconcile p files response =
      ⟨((FileBlock.ofMarkdown response).filter (·.code != [])).map (FileBlock.changeFor p files),
        []⟩ := by
  have hnoop : ∀ c ∈ EditFormat.wholeFile.candidates response, (!c.isNoop) = true := by
    intro c hc
    obtain ⟨-, -, -, hnoop⟩ := EditFormat.mem_candidates_wholeFile.1 hc
    rw [hnoop]
    rfl
  rw [reconcile, hformat, reconcileChanges, placements, List.filter_eq_self.2 hnoop,
    EditFormat.candidates_wholeFile, List.map_map]
  have hresult (b : FileBlock) : (place p .wholeFile files b.toChange).result =
      .ok (b.changeFor p files) := result_place_of_search_eq_nil rfl
  simp only [Reconciliation.ofPlacements, List.filterMap_map]
  congr 1
  · rw [← List.filterMap_eq_map]
    congr 1
    funext b
    simp [hresult, Except.toOption]
  · rw [List.filterMap_eq_nil_iff]
    intro b _
    simp [hresult]

/-- Shown files that come back as they were shown are written back unchanged, one change each. -/
theorem reconcile_formatFiles (hformat : p.editFormat = .wholeFile) (hnodup : files.paths.Nodup)
    (h : ∀ f ∈ files, f.Showable) :
    let r := reconcile p files (Prompt.formatFiles files)
    r.failures = [] ∧ r.changes = files.map (fun f => ⟨f.path, [], f.content⟩) ∧
      files.applyAll r.changes = (files, files.map fun f => .ok f.content) := by
  have hfeed : ∀ f ∈ files, f.block.code ++ ['\n'] = f.content ∧ f.block.code ≠ [] := by
    intro f hf
    obtain ⟨body, c, hcontent, -⟩ := (h f hf).ending
    rw [Snapshot.block, hcontent, List.dropLast_append_of_ne_nil (by simp)]
    simp
  have hblocks : (files.map Snapshot.block).filter (·.code != []) = files.map Snapshot.block := by
    rw [List.filter_eq_self]
    intro b hb
    obtain ⟨f, hf, rfl⟩ := List.mem_map.1 hb
    simpa using (hfeed f hf).2
  have hchanges : (reconcile p files (Prompt.formatFiles files)).changes =
      files.map (fun f => ⟨f.path, [], f.content⟩) := by
    rw [reconcile_wholeFile hformat, FileBlock.ofMarkdown_formatFiles h, hblocks, List.map_map]
    apply List.map_congr_left
    intro f hf
    have hget := FileSet.get?_of_mem hnodup hf
    have hpath : (files.resolve f.block.path p.newFileThreshold).path = f.path := by
      rw [Snapshot.block, FileSet.resolve_of_get? hget]
      rfl
    rw [Function.comp_apply, FileBlock.changeFor, (hfeed f hf).1, hpath]
  refine ⟨by rw [reconcile_wholeFile hformat], hchanges, ?_⟩
  rw [hchanges]
  exact FileSet.applyAll_of_get? fun f hf => FileSet.get?_of_mem hnodup hf

def wholeFilePolicy : ReconcilePolicy Float :=
  { ReconcilePolicy.standard with editFormat := .wholeFile }

def shownFiles : FileSet :=
  [⟨"src/app.ts".toList, "  const a = 1;\n\nconst b = `é`;\n".toList⟩,
    ⟨"README.md".toList, "# Title\n".toList⟩]

theorem showable_shownFiles : ∀ f ∈ shownFiles, f.Showable := by
  intro f hf
  rcases List.mem_pair.1 hf with rfl | rfl
  · refine ⟨by decide, by decide, by decide, ?_,
      ⟨"  const a = 1;\n\nconst b = `é`".toList, ';', by decide, by decide⟩⟩
    rintro l ⟨⟩
    decide
  · refine ⟨by decide, by decide, by decide, ?_, ⟨"# Titl".toList, 'e', by decide, by decide⟩⟩
    rintro l ⟨⟩
    decide

theorem applyAll_shownFiles :
    (reconcile wholeFilePolicy shownFiles (Prompt.formatFiles shownFiles)).failures = [] ∧
      (shownFiles.applyAll (reconcile wholeFilePolicy shownFiles
        (Prompt.formatFiles shownFiles)).changes).1 = shownFiles := by
  obtain ⟨hfailures, -, happlied⟩ :=
    reconcile_formatFiles (p := wholeFilePolicy) rfl (by decide) showable_shownFiles
  exact ⟨hfailures, congrArg Prod.fst happlied⟩

/-- Blocks with different paths are written to different files exactly when no two of the paths
collide. In that case each block is in the end the whole of its file. -/
theorem nodup_targets_iff (hformat : p.editFormat = .wholeFile)
    (hstated : ((FileBlock.ofMarkdown response).map FileBlock.path).Nodup) :
    let blocks := (FileBlock.ofMarkdown response).filter (·.code != [])
    let r := reconcile p files response
    r.failures = [] ∧
      ((r.changes.map Change.path).Nodup ↔
        blocks.Pairwise fun b b' => ¬files.Collide p.newFileThreshold b.path b'.path) ∧
      ((r.changes.map Change.path).Nodup →
        (files.applyAll r.changes).2 = r.changes.map (fun c => .ok c.replacement) ∧
        ∀ b ∈ blocks, ∃ c ∈ r.changes, c.replacement = b.code ++ ['\n'] ∧
          c.path = (files.resolve b.path p.newFileThreshold).path ∧
          (files.applyAll r.changes).1.get? c.path = some ⟨c.path, b.code ++ ['\n']⟩) := by
  intro blocks r
  have hr : r = ⟨blocks.map (FileBlock.changeFor p files), []⟩ := reconcile_wholeFile hformat
  have hdistinct : blocks.Pairwise fun b b' => b.path ≠ b'.path :=
    (List.pairwise_map.1 hstated).filter _
  have hsearch : ∀ c ∈ r.changes, c.search = [] := by
    intro c hc
    rw [hr] at hc
    obtain ⟨b, -, rfl⟩ := List.mem_map.1 hc
    rfl
  refine ⟨by rw [hr], ?_, fun hnodup => ⟨FileSet.applyAll_snd hsearch, fun b hb => ?_⟩⟩
  · have hpaths : (r.changes.map Change.path).Nodup ↔ blocks.Pairwise fun b b' =>
        (files.resolve b.path p.newFileThreshold).path ≠
          (files.resolve b'.path p.newFileThreshold).path := by
      rw [hr, List.map_map, List.Nodup, List.pairwise_map]
      rfl
    rw [hpaths]
    constructor
    · intro hne
      exact (hdistinct.and hne).imp fun ⟨hb, hres⟩ hc => hres ((FileSet.path_resolve_eq_iff hb).2 hc)
    · intro hne
      exact (hdistinct.and hne).imp fun ⟨hb, hc⟩ hres => hc ((FileSet.path_resolve_eq_iff hb).1 hres)
  · have hc : b.changeFor p files ∈ r.changes := by
      rw [hr]
      exact List.mem_map_of_mem hb
    exact ⟨_, hc, rfl, rfl, FileSet.get?_applyAll hsearch hnodup hc⟩

end

def oneFile : FileSet := [⟨"src/app.ts".toList, "a\n".toList⟩]

/-- The second path is the known one without its directory. -/
def foldedBlocks : Text := "[src/app.ts]\n```\nx\n```\n[app.ts]\n```\ny\n```\n".toList

def separateBlocks : Text := "[src/app.ts]\n```\nx\n```\n[lib/new.py]\n```\ny\n```\n".toList

def emptyBlock : Text := "[lib/new.py]\n```\n```\n".toList

theorem changes_foldedBlocks : (reconcile wholeFilePolicy oneFile foldedBlocks).changes =
    [⟨"src/app.ts".toList, [], "x\n".toList⟩, ⟨"src/app.ts".toList, [], "y\n".toList⟩] := by
  rw [reconcile_wholeFile rfl]
  decide +kernel

theorem changes_separateBlocks : (reconcile wholeFilePolicy oneFile separateBlocks).changes =
    [⟨"src/app.ts".toList, [], "x\n".toList⟩, ⟨"lib/new.py".toList, [], "y\n".toList⟩] := by
  rw [reconcile_wholeFile rfl]
  decide +kernel

theorem get?_applyAll_separateBlocks :
    (oneFile.applyAll (reconcile wholeFilePolicy oneFile separateBlocks).changes).1.get?
      "lib/new.py".toList = some ⟨"lib/new.py".toList, "y\n".toList⟩ := by
  obtain ⟨-, -, happlied⟩ :=
    @nodup_targets_iff Float _ wholeFilePolicy oneFile separateBlocks rfl (by decide +kernel)
  have hnodup :
      ((reconcile wholeFilePolicy oneFile separateBlocks).changes.map Change.path).Nodup := by
    rw [changes_separateBlocks]
    decide
  have hblock : (⟨"lib/new.py".toList, "y".toList⟩ : FileBlock) ∈
      (FileBlock.ofMarkdown separateBlocks).filter (·.code != []) := by
    decide +kernel
  obtain ⟨c, -, -, hpath, hget⟩ := (happlied hnodup).2 _ hblock
  have htarget : c.path = "lib/new.py".toList := by
    rw [hpath]
    decide +kernel
  rwa [htarget] at hget

/-- Different paths do not make different files, and an empty block makes no file. -/
theorem not_forall_nodup_targets :
    (¬∀ (p : ReconcilePolicy Float) (files : FileSet) (response : Text),
      p.editFormat = .wholeFile → files.paths.Nodup →
      ((FileBlock.ofMarkdown response).map FileBlock.path).Nodup →
        ((reconcile p files response).changes.map Change.path).Nodup) ∧
    ¬∀ (p : ReconcilePolicy Float) (files : FileSet) (response : Text),
      p.editFormat = .wholeFile → files.paths.Nodup →
      ((FileBlock.ofMarkdown response).map FileBlock.path).Nodup →
        ∀ b ∈ FileBlock.ofMarkdown response,
          ∃ f ∈ (files.applyAll (reconcile p files response).changes).1,
            f.content = b.code ++ ['\n'] := by
  constructor
  · intro h
    have hnodup := h wholeFilePolicy oneFile foldedBlocks rfl (by decide) (by decide +kernel)
    rw [changes_foldedBlocks] at hnodup
    exact absurd hnodup (by decide)
  · intro h
    have hnone : (reconcile wholeFilePolicy oneFile emptyBlock).changes = [] := by
      rw [reconcile_wholeFile rfl]
      decide +kernel
    have hfile := h wholeFilePolicy oneFile emptyBlock rfl (by decide) (by decide +kernel)
      ⟨"lib/new.py".toList, []⟩ (by decide +kernel)
    rw [hnone] at hfile
    exact absurd hfile (by decide)

end Emend
