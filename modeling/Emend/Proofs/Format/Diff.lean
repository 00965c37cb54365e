import Emend.Proofs.Format.EditFormat
import Emend.Proofs.Format.Fence

namespace Emend

namespace DiffLine

def text : DiffLine → Text
  | context l | removed l | added l => l

/-- With its mark in front, the line cannot be taken for a header. -/
def Plain : DiffLine → Prop
  | context l => l.trimStart.startsWith ['+', '+', '+'] = false ∧
      l.trimStart.startsWith ['@', '@'] = false
  | removed l => l.startsWith ['-', '-'] = false
  | added l => l.startsWith ['+', '+'] = false

instance : (d : DiffLine) → Decidable d.Plain
  | context _ => inferInstanceAs (Decidable (_ ∧ _))
  | removed _ => inferInstanceAs (Decidable (_ = _))
  | added _ => inferInstanceAs (Decidable (_ = _))

@[simp] theorem ofLine_render (d : DiffLine) : ofLine d.render = d := by
  cases d <;> rfl

theorem render_eq_cons (d : DiffLine) : ∃ c, c ≠ '\n' ∧ c ≠ '\r' ∧ d.render = c :: d.text := by
  cases d
  · exact ⟨' ', by decide, by decide, rfl⟩
  · exact ⟨'-', by decide, by decide, rfl⟩
  · exact ⟨'+', by decide, by decide, rfl⟩

theorem isLine_render {d : DiffLine} (h : Text.IsLine d.text) : Text.IsLine d.render := by
  obtain ⟨c, hfeed, hreturn, hrender⟩ := d.render_eq_cons
  rw [hrender]
  refine ⟨by simp [h.no_feed, hfeed.symm], ?_⟩
  rw [List.getLast?_cons]
  cases hl : d.text.getLast? with
  | none => simpa using hreturn
  | some e => simpa [hl] using h.no_return

theorem after?_eq_none_of_startsWith {s pat : Text} (h : s.startsWith pat = false) :
    Text.after? pat s = none := by
  simpa [Text.startsWith] using h

theorem Plain.mark {d : DiffLine} (h : d.Plain) : DiffMark.ofLine d.render = .body := by
  cases d with
  | context l =>
      obtain ⟨hplus, hat⟩ := h
      have hplus' := after?_eq_none_of_startsWith hplus
      have hstart : Text.trimStart (' ' :: l) = l.trimStart := rfl
      have hminus : Text.startsWith (' ' :: l) ['-', '-', '-'] = false := rfl
      simp only [DiffMark.ofLine, render, hminus, hstart, hplus', hat, Bool.false_eq_true, if_false]
  | removed l =>
      have hstart : Text.trimStart ('-' :: l) = '-' :: l := rfl
      have hminus : Text.startsWith ('-' :: l) ['-', '-', '-'] = Text.startsWith l ['-', '-'] := rfl
      have hplus : Text.after? ['+', '+', '+'] ('-' :: l) = none := rfl
      have hat : Text.startsWith ('-' :: l) ['@', '@'] = false := rfl
      have hl : l.startsWith ['-', '-'] = false := h
      simp only [DiffMark.ofLine, render, hminus, hstart, hplus, hat, hl, Bool.false_eq_true,
        if_false]
  | added l =>
      have hstart : Text.trimStart ('+' :: l) = '+' :: l := rfl
      have hminus : Text.startsWith ('+' :: l) ['-', '-', '-'] = false := rfl
      have hplus : Text.after? ['+', '+', '+'] ('+' :: l) = Text.after? ['+', '+'] l := rfl
      have hat : Text.startsWith ('+' :: l) ['@', '@'] = false := rfl
      have hl := after?_eq_none_of_startsWith (s := l) h
      simp only [DiffMark.ofLine, render, hminus, hstart, hplus, hat, hl, Bool.false_eq_true,
        if_false]

theorem mem_of_old {hunk : List DiffLine} {l : Text} (h : l ∈ hunk.filterMap old?) :
    ∃ d ∈ hunk, d.text = l := by
  obtain ⟨d, hd, hl⟩ := List.mem_filterMap.1 h
  refine ⟨d, hd, ?_⟩
  cases d <;> cases hl <;> rfl

end DiffLine

namespace Hunk

variable {path text : Text}

theorem ofLines_body {ls : List Text} (h : ∀ l ∈ ls, DiffMark.ofLine l = .body) (rest : List Text) :
    ofLines path text (ls ++ rest) = ofLines path (text ++ Text.terminated ls) rest := by
  induction ls generalizing text with
  | nil => simp
  | cons l ls ih =>
      simp only [List.mem_cons, forall_eq_or_imp] at h
      rw [List.cons_append, ofLines, h.1]
      dsimp only
      rw [ih h.2, Text.terminated_cons]
      simp

theorem toChange_render {hunk : List DiffLine} (h : ∀ d ∈ hunk, Text.IsLine d.text) :
    (⟨path, Text.terminated (hunk.map DiffLine.render)⟩ : Hunk).toChange =
      .ofDiffLines path hunk := by
  have hlines : ∀ l ∈ hunk.map DiffLine.render, Text.IsLine l := by
    intro l hl
    obtain ⟨d, hd, rfl⟩ := List.mem_map.1 hl
    exact DiffLine.isLine_render (h d hd)
  have hround : hunk.map (DiffLine.ofLine ∘ DiffLine.render) = hunk := by
    simp [Function.comp_def]
  rw [toChange, Text.lines_terminated hlines, List.map_map, hround]

end Hunk

theorem mark_path {path : Text} (h : path.trim = path) :
    DiffMark.ofLine ("+++ ".toList ++ path) = .newFile path := by
  have hstart : Text.trimStart ("+++ ".toList ++ path) = "+++ ".toList ++ path := rfl
  have hname : Text.after? ['+', '+', '+'] ("+++ ".toList ++ path) = some (' ' :: path) := rfl
  have htrim : Text.trim (' ' :: path) = path := h
  have hminus : Text.startsWith ("+++ ".toList ++ path) ['-', '-', '-'] = false := rfl
  simp only [DiffMark.ofLine, hminus, hstart, hname, htrim, Bool.false_eq_true, if_false]

theorem isLine_append_path {mark path : Text} (hmark : Text.IsLine mark) (h : path.trim = path)
    (hfeed : '\n' ∉ path) : Text.IsLine (mark ++ path) := by
  refine ⟨by simp [hmark.no_feed, hfeed], ?_⟩
  rw [List.getLast?_append]
  cases hl : path.getLast? with
  | none => exact hmark.no_return
  | some c =>
      have hblank := Text.getLast?_not_blank h hl
      rintro ⟨⟩
      cases hblank

def diffLines (path : Text) (hunk : List DiffLine) : List Text :=
  ("+++ ".toList ++ path) :: "@@ @@".toList :: hunk.map DiffLine.render

section

variable {path diff : Text} {hunk : List DiffLine}

/-- The section line closes a hunk without lines; the hunk itself comes after it. -/
theorem ofDiff_of_lines (hpath : path.trim = path) (hne : path ≠ [])
    (hplain : ∀ d ∈ hunk, d.Plain) (hlines : diff.lines = diffLines path hunk) :
    Hunk.ofDiff diff = [⟨path, []⟩, ⟨path, Text.terminated (hunk.map DiffLine.render)⟩] := by
  have hbody : ∀ l ∈ hunk.map DiffLine.render, DiffMark.ofLine l = .body := by
    intro l hl
    obtain ⟨d, hd, rfl⟩ := List.mem_map.1 hl
    exact (hplain d hd).mark
  have hsection : DiffMark.ofLine "@@ @@".toList = .section := rfl
  have hrest : Hunk.ofLines path [] (hunk.map DiffLine.render ++ []) =
      Hunk.ofLines path ([] ++ Text.terminated (hunk.map DiffLine.render)) [] :=
    Hunk.ofLines_body hbody []
  rw [List.append_nil, List.nil_append] at hrest
  rw [Hunk.ofDiff, hlines, diffLines, Hunk.ofLines, mark_path hpath]
  dsimp only
  rw [Hunk.ofLines, hsection]
  dsimp only
  rw [hrest, Hunk.closed, Hunk.closed, if_pos rfl, if_neg hne]
  rfl

theorem changesOfDiff_of_lines (hpath : path.trim = path) (hne : path ≠ [])
    (hplain : ∀ d ∈ hunk, d.Plain) (hisLine : ∀ d ∈ hunk, Text.IsLine d.text)
    (hlines : diff.lines = diffLines path hunk) :
    changesOfDiff diff = [⟨path, [], []⟩, .ofDiffLines path hunk] := by
  rw [changesOfDiff, ofDiff_of_lines hpath hne hplain hlines, List.map_cons, List.map_cons,
    List.map_nil, Hunk.toChange_render hisLine]
  rfl

/-- The diff's text, with or without a final line feed, is read as its lines. -/
theorem lines_of_diffLines (hpath : path.trim = path) (hfeed : '\n' ∉ path)
    (hisLine : ∀ d ∈ hunk, Text.IsLine d.text)
    (hdiff : diff = Text.unlines (diffLines path hunk) ∨
      diff = Text.terminated (diffLines path hunk)) : diff.lines = diffLines path hunk := by
  have hall : ∀ l ∈ diffLines path hunk, Text.IsLine l := by
    simp only [diffLines, List.mem_cons, List.mem_map]
    rintro l (rfl | rfl | ⟨d, hd, rfl⟩)
    · exact isLine_append_path (by decide) hpath hfeed
    · exact ⟨by decide, by decide⟩
    · exact DiffLine.isLine_render (hisLine d hd)
  have hnil : [] ∉ diffLines path hunk := by
    simp only [diffLines, List.mem_cons, List.mem_map, not_or, not_exists, not_and]
    refine ⟨nofun, nofun, fun d _ => ?_⟩
    obtain ⟨c, -, -, hrender⟩ := d.render_eq_cons
    rw [hrender]
    exact List.cons_ne_nil _ _
  rcases hdiff with rfl | rfl
  · exact Text.lines_unlines hall fun h => hnil (List.mem_of_getLast? h)
  · exact Text.lines_terminated hall

theorem candidates_of_lines (hpath : path.trim = path) (hne : path ≠ [])
    (hplain : ∀ d ∈ hunk, d.Plain) (hisLine : ∀ d ∈ hunk, Text.IsLine d.text)
    (hlines : diff.lines = diffLines path hunk) (hfence : diff.includes fence = false)
    (hnoop : (Change.ofDiffLines path hunk).isNoop = false) :
    EditFormat.unifiedDiff.candidates diff = [.ofDiffLines path hunk] := by
  have hempty : (⟨path, [], []⟩ : Change).isNoop = true := by
    simp [Change.isNoop, Text.blank]
  rw [EditFormat.candidates_unifiedDiff, diffBlocks_of_no_fence hfence, List.flatMap_singleton,
    changesOfDiff_of_lines hpath hne hplain hisLine hlines]
  simp [hempty, hnoop]

end

end Emend
