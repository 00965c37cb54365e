import Emend.Format.EditFormat
import Emend.Proofs.Text.Lines

namespace Emend

def MarkerBlock.toChange? (b : MarkerBlock) : Option Change :=
  (pathOfHeader? b.header).map fun path => ⟨path, b.search, b.replacement⟩

namespace EditFormat

variable {response : Text} {c : Change}

theorem candidates_unifiedDiff (response : Text) :
    unifiedDiff.candidates response =
      ((diffBlocks response).flatMap changesOfDiff).filter (!·.isNoop) := by
  rw [candidates, extract, extractDiffs, List.filterMap_map, ← List.filterMap_eq_filter]
  apply List.filterMap_congr
  intro d _
  rw [Function.comp_apply, Option.guard]
  cases d.isNoop <;> rfl

theorem mem_candidates_unifiedDiff :
    c ∈ unifiedDiff.candidates response ↔
      (∃ diff ∈ diffBlocks response, ∃ hunk ∈ Hunk.ofDiff diff, hunk.toChange = c) ∧
        c.isNoop = false := by
  rw [candidates_unifiedDiff, List.mem_filter, Bool.not_eq_true']
  simp only [List.mem_flatMap, changesOfDiff, List.mem_map]

theorem candidate?_extract? (b : MarkerBlock) :
    b.extract?.bind Extracted.candidate? = b.toChange?.filter (!·.isNoop) := by
  unfold MarkerBlock.extract? MarkerBlock.toChange?
  cases pathOfHeader? b.header with
  | none => rfl
  | some path =>
      rw [Option.map_some, Option.filter_some]
      dsimp only
      generalize (⟨path, b.search, b.replacement⟩ : Change) = c
      cases c.isNoop with
      | true => rfl
      | false => rfl

theorem candidates_searchReplace (response : Text) :
    searchReplace.candidates response =
      ((MarkerBlock.all response).filterMap MarkerBlock.toChange?).filter (!·.isNoop) := by
  have hextract : searchReplace.candidates response =
      ((MarkerBlock.all response).filterMap MarkerBlock.extract?).filterMap
        Extracted.candidate? := rfl
  rw [hextract, List.filterMap_filterMap, List.filter_filterMap]
  exact List.filterMap_congr fun b _ => candidate?_extract? b

theorem mem_candidates_searchReplace :
    c ∈ searchReplace.candidates response ↔
      ∃ b ∈ MarkerBlock.all response, b.toChange? = some c ∧ c.isNoop = false := by
  rw [candidates_searchReplace, List.mem_filter, List.mem_filterMap, Bool.not_eq_true']
  constructor
  · rintro ⟨⟨b, hb, hchange⟩, hnoop⟩
    exact ⟨b, hb, hchange, hnoop⟩
  · rintro ⟨b, hb, hchange, hnoop⟩
    exact ⟨⟨b, hb, hchange⟩, hnoop⟩

theorem mem_candidates_wholeFile :
    c ∈ wholeFile.candidates response ↔
      ∃ b ∈ FileBlock.ofMarkdown response, b.toChange = c ∧ c.isNoop = false := by
  have hid : Extracted.candidate? ∘ Extracted.candidate = some := rfl
  rw [candidates, extract, List.filterMap_map, hid, List.filterMap_some, List.mem_filter,
    List.mem_map, Bool.not_eq_true']
  constructor
  · rintro ⟨⟨b, hb, hc⟩, hnoop⟩
    exact ⟨b, hb, hc, hnoop⟩
  · rintro ⟨b, hb, hc, hnoop⟩
    exact ⟨⟨b, hb, hc⟩, hnoop⟩

end EditFormat

theorem Text.terminated_eq_nil_iff {ls : List Text} : Text.terminated ls = [] ↔ ls = [] := by
  cases ls with
  | nil => exact iff_of_true rfl rfl
  | cons l ls =>
      rw [Text.terminated_cons, List.append_eq_nil_iff]
      exact iff_of_false (fun h => List.cons_ne_nil _ _ h.2) (List.cons_ne_nil _ _)

def DiffLine.Adds (d : DiffLine) : Prop := d.old? = none

theorem Hunk.search_toChange_eq_nil_iff {hunk : Hunk} :
    hunk.toChange.search = [] ↔ ∀ l ∈ hunk.text.lines, (DiffLine.ofLine l).Adds := by
  rw [toChange, Change.ofDiffLines, Text.terminated_eq_nil_iff, List.filterMap_map,
    List.filterMap_eq_nil_iff]
  rfl

end Emend
