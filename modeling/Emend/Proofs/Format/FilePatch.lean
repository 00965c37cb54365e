import Emend.Proofs.Format.Diff

namespace Emend

namespace FilePatch

/-- What a diff can say about a file: a path on a line of its own, and lines that are not taken for
headers. -/
structure Writable (p : FilePatch) : Prop where
  trim : p.path.trim = p.path
  ne_nil : p.path ≠ []
  no_feed : '\n' ∉ p.path
  isLine : ∀ hunk ∈ p.hunks, ∀ d ∈ hunk, Text.IsLine d.text
  plain : ∀ hunk ∈ p.hunks, ∀ d ∈ hunk, d.Plain

def changes (p : FilePatch) : List Change := p.hunks.map (.ofDiffLines p.path)

def sectionLines (hunk : List DiffLine) : List Text :=
  "@@ ... @@".toList :: hunk.map DiffLine.render

def lines (p : FilePatch) : List Text :=
  ("--- ".toList ++ p.path) :: ("+++ ".toList ++ p.path) :: p.hunks.flatMap sectionLines

/-- The hunks that reading gives for the file. The first one has no lines. -/
def readHunks (p : FilePatch) : List Hunk :=
  ⟨p.path, []⟩ :: p.hunks.map fun hunk => ⟨p.path, Text.terminated (hunk.map DiffLine.render)⟩

theorem render_eq (p : FilePatch) : p.render = Text.terminated p.lines := by
  have hhunks : p.hunks.flatMap renderHunk = Text.terminated (p.hunks.flatMap sectionLines) := by
    rw [Text.terminated, List.flatMap_assoc]
    rfl
  rw [render, hhunks, Text.terminated, Text.terminated, ← List.flatMap_append]
  rfl

theorem flatMap_render (ps : List FilePatch) :
    ps.flatMap render = Text.terminated (ps.flatMap lines) := by
  rw [Text.terminated, List.flatMap_assoc]
  exact List.flatMap_congr fun p _ => p.render_eq

variable {p : FilePatch} (h : p.Writable)

include h

theorem Writable.isLine_lines : ∀ l ∈ p.lines, Text.IsLine l := by
  simp only [lines, sectionLines, List.mem_cons, List.mem_flatMap, List.mem_map]
  rintro l (rfl | rfl | ⟨hunk, hhunk, rfl | ⟨d, hd, rfl⟩⟩)
  · exact isLine_append_path (by decide) h.trim h.no_feed
  · exact isLine_append_path (by decide) h.trim h.no_feed
  · exact ⟨by decide, by decide⟩
  · exact DiffLine.isLine_render (h.isLine hunk hhunk d hd)

theorem Writable.mark_render {hunk : List DiffLine} (hhunk : hunk ∈ p.hunks) :
    ∀ l ∈ hunk.map DiffLine.render, DiffMark.ofLine l = .body := by
  intro l hl
  obtain ⟨d, hd, rfl⟩ := List.mem_map.1 hl
  exact (h.plain hunk hhunk d hd).mark

omit h in
theorem nil_notMem_lines : [] ∉ p.lines := by
  simp only [lines, sectionLines, List.mem_cons, List.mem_flatMap, List.mem_map]
  rintro (hl | hl | ⟨hunk, -, hl | ⟨d, -, hl⟩⟩)
  · cases hl
  · cases hl
  · cases hl
  · obtain ⟨c, -, -, hrender⟩ := d.render_eq_cons
    rw [hrender] at hl
    cases hl

omit h in
theorem filter_toChange_readHunks (hisLine : ∀ hunk ∈ p.hunks, ∀ d ∈ hunk, Text.IsLine d.text) :
    (p.readHunks.map Hunk.toChange).filter (!·.isNoop) = p.changes.filter (!·.isNoop) := by
  have hempty : (!(Hunk.toChange ⟨p.path, []⟩).isNoop) = false := by
    simp [Hunk.toChange, Change.ofDiffLines, Change.isNoop, Text.blank, Text.lines, Text.pieces,
      Text.linesOfPieces]
  have hchanges : (p.hunks.map fun hunk => (⟨p.path, Text.terminated (hunk.map DiffLine.render)⟩ :
      Hunk)).map Hunk.toChange = p.changes := by
    rw [List.map_map]
    exact List.map_congr_left fun hunk hhunk => Hunk.toChange_render (hisLine hunk hhunk)
  rw [readHunks, List.map_cons, List.filter_cons, hempty, hchanges]
  rfl

omit h in
theorem isLine_of_mem_lines {ps : List FilePatch} (h : ∀ p ∈ ps, p.Writable) :
    ∀ l ∈ ps.flatMap lines, Text.IsLine l := by
  intro l hl
  obtain ⟨p, hp, hl⟩ := List.mem_flatMap.1 hl
  exact (h p hp).isLine_lines l hl

omit h in
theorem lines_flatMap_render {ps : List FilePatch} (h : ∀ p ∈ ps, p.Writable) :
    Text.lines (ps.flatMap render) = ps.flatMap lines := by
  rw [flatMap_render, Text.lines_terminated (isLine_of_mem_lines h)]

end FilePatch

namespace Hunk

open FilePatch

theorem ofLines_section {path : Text} (hne : path ≠ []) {hunk : List DiffLine}
    (hmark : ∀ l ∈ hunk.map DiffLine.render, DiffMark.ofLine l = .body) (text : Text)
    (rest : List Text) :
    ofLines path text (sectionLines hunk ++ rest) =
      ⟨path, text⟩ :: ofLines path (Text.terminated (hunk.map DiffLine.render)) rest := by
  have hsection : DiffMark.ofLine "@@ ... @@".toList = .section := rfl
  rw [sectionLines, List.cons_append, ofLines, hsection]
  dsimp only
  rw [ofLines_body hmark, closed, if_neg hne]
  rfl

theorem ofLines_sections {path : Text} (hne : path ≠ []) {hunks : List (List DiffLine)}
    (hmark : ∀ hunk ∈ hunks, ∀ l ∈ hunk.map DiffLine.render, DiffMark.ofLine l = .body)
    {rest : List Text} {more : List Hunk}
    (hrest : ∀ text, ofLines path text rest = ⟨path, text⟩ :: more) (text : Text) :
    ofLines path text (hunks.flatMap sectionLines ++ rest) =
      ⟨path, text⟩ ::
        (hunks.map fun hunk => ⟨path, Text.terminated (hunk.map DiffLine.render)⟩) ++ more := by
  induction hunks generalizing text with
  | nil => exact hrest text
  | cons hunk hunks ih =>
      rw [List.forall_mem_cons] at hmark
      -- The section line hands out `text`, and the hunk's own lines wait for the next one.
      rw [List.flatMap_cons, List.append_assoc, ofLines_section hne hmark.1, ih hmark.2]
      rfl

theorem ofLines_lines {p : FilePatch} (h : p.Writable) {rest : List Text} {more : List Hunk}
    (hrest : ∀ text, ofLines p.path text rest = ⟨p.path, text⟩ :: more) (path text : Text) :
    ofLines path text (p.lines ++ rest) = closed path text ++ (p.readHunks ++ more) := by
  have hold : DiffMark.ofLine ("--- ".toList ++ p.path) = .oldFile := rfl
  rw [FilePatch.lines, List.cons_append, ofLines, hold]
  dsimp only
  rw [List.cons_append, ofLines, mark_path h.trim]
  dsimp only
  rw [ofLines_sections h.ne_nil (fun hunk hhunk => h.mark_render hhunk) hrest]
  rfl

theorem ofLines_files {ps : List FilePatch} (h : ∀ p ∈ ps, p.Writable) {path : Text}
    (hne : path ≠ []) (text : Text) :
    ofLines path text (ps.flatMap FilePatch.lines) = ⟨path, text⟩ :: ps.flatMap readHunks := by
  induction ps generalizing path text with
  | nil => rfl
  | cons p ps ih =>
      rw [List.forall_mem_cons] at h
      -- What has been gathered when the next file starts belongs to the file before it.
      rw [List.flatMap_cons, ofLines_lines h.1 (ih h.2 h.1.ne_nil), closed, if_neg hne]
      rfl

theorem ofDiff_render {ps : List FilePatch} (h : ∀ p ∈ ps, p.Writable) (hne : ps ≠ []) :
    ofDiff (ps.flatMap render) = ps.flatMap readHunks := by
  cases ps with
  | nil => exact absurd rfl hne
  | cons p ps =>
      rw [List.forall_mem_cons] at h
      rw [ofDiff, lines_flatMap_render (List.forall_mem_cons.2 h), List.flatMap_cons (f := FilePatch.lines),
        ofLines_lines h.1 (ofLines_files h.2 h.1.ne_nil), closed, if_pos rfl]
      rfl

end Hunk

section

variable {ps : List FilePatch}

theorem changesOfDiff_congr {diff diff' : Text} (h : diff.lines = diff'.lines) :
    changesOfDiff diff = changesOfDiff diff' := by
  rw [changesOfDiff, changesOfDiff, Hunk.ofDiff, Hunk.ofDiff, h]

theorem filter_changesOfDiff (h : ∀ p ∈ ps, p.Writable) :
    (changesOfDiff (ps.flatMap FilePatch.render)).filter (!·.isNoop) =
      (ps.flatMap FilePatch.changes).filter (!·.isNoop) := by
  cases ps with
  | nil => rfl
  | cons p ps =>
      rw [changesOfDiff, Hunk.ofDiff_render h (List.cons_ne_nil p ps), List.map_flatMap,
        List.filter_flatMap, List.filter_flatMap]
      exact List.flatMap_congr fun q hq => FilePatch.filter_toChange_readHunks (h q hq).isLine

theorem getLast?_unlines {ls : List Text} {l : Text} (h : ls.getLast? = some l) (hne : l ≠ []) :
    (Text.unlines ls).getLast? = l.getLast? := by
  obtain ⟨init, rfl⟩ : ∃ init, ls = init ++ [l] := List.getLast?_eq_some_iff.1 h
  rw [Text.unlines_append_cons, Text.preceded_nil, List.append_nil, List.getLast?_append]
  rw [List.getLast?_eq_some_getLast hne]
  rfl

theorem nil_notMem_flatMap_lines (ps : List FilePatch) : [] ∉ ps.flatMap FilePatch.lines := by
  intro hnil
  obtain ⟨p, -, hnil⟩ := List.mem_flatMap.1 hnil
  exact FilePatch.nil_notMem_lines hnil

theorem trimBody_render {p : FilePatch} {ps : List FilePatch}
    (hlast : ∀ l c, ((p :: ps).flatMap FilePatch.lines).getLast? = some l →
      l.getLast? = some c → isBlank c = false) :
    trimBody ((p :: ps).flatMap FilePatch.render) =
      Text.unlines ((p :: ps).flatMap FilePatch.lines) := by
  obtain ⟨s, hs⟩ : ∃ s, (p :: ps).flatMap FilePatch.render = '-' :: s := ⟨_, rfl⟩
  have hlines : (p :: ps).flatMap FilePatch.lines ≠ [] := nofun
  obtain ⟨l, hl⟩ := Option.ne_none_iff_exists'.1 (List.getLast?_eq_none_iff.not.2 hlines)
  have hne : l ≠ [] := by
    rintro rfl
    exact nil_notMem_flatMap_lines _ (List.mem_of_getLast? hl)
  rw [hs, trimBody_cons (by decide), ← hs, FilePatch.flatMap_render, Text.terminated_eq hlines,
    Text.trimEnd_append_of_blank (by decide), Text.trimEnd_eq_self]
  intro c hc
  rw [getLast?_unlines hl hne] at hc
  exact hlast l c hl hc

theorem lines_trimBody_render (h : ∀ p ∈ ps, p.Writable)
    (hlast : ∀ l c, (ps.flatMap FilePatch.lines).getLast? = some l → l.getLast? = some c →
      isBlank c = false) :
    Text.lines (trimBody (ps.flatMap FilePatch.render)) =
      Text.lines (ps.flatMap FilePatch.render) := by
  cases ps with
  | nil => rfl
  | cons p ps =>
      rw [trimBody_render hlast, FilePatch.lines_flatMap_render h]
      apply Text.lines_unlines (FilePatch.isLine_of_mem_lines h)
      intro hnil
      exact nil_notMem_flatMap_lines _ (List.mem_of_getLast? hnil)

theorem getLast?_flatMap_render (ps : List FilePatch) {c : Char}
    (h : (ps.flatMap FilePatch.render).getLast? = some c) : c = '\n' := by
  rw [FilePatch.flatMap_render] at h
  cases hlines : ps.flatMap FilePatch.lines with
  | nil =>
      rw [hlines] at h
      cases h
  | cons l ls =>
      rw [hlines, Text.terminated_eq (List.cons_ne_nil l ls), List.getLast?_concat] at h
      exact (Option.some.inj h).symm

/-- Whatever is written of any files comes back as one change for each hunk that does something, for
the hunk's own file, from the hunk's old lines to its new ones, and nothing else comes back. So it
is for a response that is the text, and for one that has it in a block. -/
theorem candidates_flatMap_render (h : ∀ p ∈ ps, p.Writable) :
    let diff := ps.flatMap FilePatch.render
    let changes := (ps.flatMap FilePatch.changes).filter (!·.isNoop)
    (changesOfDiff diff).filter (!·.isNoop) = changes ∧
    (Text.includes diff fence = false →
      EditFormat.unifiedDiff.candidates diff = changes ∧
      ((∀ l c, (Text.lines diff).getLast? = some l → l.getLast? = some c → isBlank c = false) →
        ∀ before after : Text, before.includes fence = false → before.getLast? ≠ some '\x60' →
          after.includes fence = false →
          EditFormat.unifiedDiff.candidates
            (before ++ fence ++ ("diff\n".toList ++ diff) ++ fence ++ after) = changes)) := by
  intro diff changes
  have hchanges : (changesOfDiff diff).filter (!·.isNoop) = changes := filter_changesOfDiff h
  refine ⟨hchanges, fun hfence => ⟨?_, fun hlast before after hbefore htick hafter => ?_⟩⟩
  · rw [EditFormat.candidates_unifiedDiff, diffBlocks_of_no_fence hfence, List.flatMap_singleton,
      hchanges]
  · have hblocks := codeBlocks_diff hbefore htick hfence
      (fun c hc => getLast?_flatMap_render ps hc) hafter
    rw [FilePatch.lines_flatMap_render h] at hlast
    rw [EditFormat.candidates_unifiedDiff, diffBlocks, hblocks, List.flatMap_singleton,
      changesOfDiff_congr (lines_trimBody_render h hlast), hchanges]

end

/-- The second hunk says nothing. -/
def twoPatches : List FilePatch :=
  [⟨"src/a.py".toList, [[.removed "a = 1".toList, .added "a = 10".toList], [.context []]]⟩,
    ⟨"src/b.py".toList, [[.context "def f():".toList, .removed "    return 1".toList,
      .added "    return 2".toList]]⟩]

theorem writable_twoPatches : ∀ p ∈ twoPatches, p.Writable := by
  rintro p hp
  rcases List.mem_pair.1 hp with rfl | rfl
  · exact ⟨by decide, by decide, by decide, by decide, by decide⟩
  · exact ⟨by decide, by decide, by decide, by decide, by decide⟩

theorem candidates_twoPatches :
    EditFormat.unifiedDiff.candidates ("Bump both.\n".toList ++ fence ++
        ("diff\n".toList ++ twoPatches.flatMap FilePatch.render) ++ fence ++ "\n".toList) =
      [⟨"src/a.py".toList, "a = 1\n".toList, "a = 10\n".toList⟩,
        ⟨"src/b.py".toList, "def f():\n    return 1\n".toList,
          "def f():\n    return 2\n".toList⟩] := by
  have hlast : ∀ l c, (Text.lines (twoPatches.flatMap FilePatch.render)).getLast? = some l →
      l.getLast? = some c → isBlank c = false := by
    rw [FilePatch.lines_flatMap_render writable_twoPatches]
    rintro l c ⟨⟩ hc
    cases hc
    decide
  have hfence : Text.includes (twoPatches.flatMap FilePatch.render) fence = false := by
    decide +kernel
  exact ((candidates_flatMap_render writable_twoPatches).2 hfence).2 hlast _ _ (by decide)
    (by decide) (by decide)

end Emend
