import Emend.Format.EditFormat
import Emend.Proofs.Text.Blank
import Emend.Proofs.Text.Occurrence

namespace Emend

namespace Text

theorem cut?_append {pat s : Text} (h : s.includes pat = false)
    (hlast : ∀ c, s.getLast? = some c → c ∉ pat) (rest : Text) :
    cut? pat (s ++ pat ++ rest) = some (s, rest) := by
  rw [cut?_eq_some_iff]
  refine ⟨rfl, fun other rest' ho => ?_⟩
  by_contra hlt
  have hother : other <+: s ++ pat ++ rest := ⟨pat ++ rest', by rw [ho, List.append_assoc]⟩
  have hs : s <+: s ++ pat ++ rest := ⟨pat ++ rest, by rw [List.append_assoc]⟩
  obtain ⟨gap, rfl⟩ := List.prefix_of_prefix_length_le hother hs (by omega)
  have hgap : gap ++ (pat ++ rest) = pat ++ rest' := by
    rw [OccursAt] at ho
    simpa using ho
  -- The earlier occurrence ends beyond `s`, and then it holds the last character of `s`, or inside.
  rcases List.prefix_or_prefix_of_prefix ⟨pat ++ rest, hgap⟩ (List.prefix_append pat rest')
    with hshort | ⟨tail, rfl⟩
  · have hne : gap ≠ [] := by
      rintro rfl
      simp at hlt
    have hmem := hshort.subset (List.getLast_mem hne)
    exact hlast _ (by rw [List.getLast?_append, List.getLast?_eq_some_getLast hne]; rfl) hmem
  · have hoccurs : OccursAt pat (other ++ (pat ++ tail)) other tail := (List.append_assoc ..).symm
    exact cut?_ne_none hoccurs (includes_eq_false_iff.1 h)

end Text

theorem fencedFrom_of_none {language before s : Text} (h : Text.cut? (fence ++ language) s = none) :
    fencedFrom language before s = [] := by
  rw [fencedFrom]
  split
  · rfl
  · rename_i hsome
    rw [h] at hsome
    cases hsome

theorem fencedFrom_of_cut {language before s skipped opened raw rest : Text}
    (h : Text.cut? (fence ++ language) s = some (skipped, opened))
    (h' : Text.cut? fence opened = some (raw, rest)) :
    fencedFrom language before s =
      .ofRaw (before ++ skipped) raw ::
        fencedFrom language (before ++ skipped ++ fence ++ language ++ raw ++ fence) rest := by
  rw [fencedFrom]
  split
  · rename_i hnone
    rw [h] at hnone
    cases hnone
  · rename_i hsome
    rw [h] at hsome
    cases hsome
    split
    · rename_i hnone
      rw [h'] at hnone
      cases hnone
    · rename_i hsome
      rw [h'] at hsome
      cases hsome
      rfl

theorem diffBlocks_of_no_fence {response : Text} (h : response.includes fence = false) :
    diffBlocks response = [response] := by
  have hcut : Text.cut? (fence ++ []) response = none := by
    rw [List.append_nil, Text.includes_eq_false_iff.1 h]
  rw [diffBlocks, codeBlocks, fenced, fencedFrom_of_none hcut]
  rfl

theorem fence_ne_feed {c : Char} (h : c = '\n') : c ∉ fence := by
  rw [h]
  decide

/-- A response with one block: prose without a fence, the block, and more such prose. -/
theorem fenced_eq_singleton {before raw after : Text} (hbefore : before.includes fence = false)
    (hlast : before.getLast? ≠ some '\x60') (hraw : raw.includes fence = false)
    (hfeed : raw.getLast? = some '\n') (hafter : after.includes fence = false) :
    fenced [] (before ++ fence ++ raw ++ fence ++ after) = [.ofRaw before raw] := by
  have hopen : Text.cut? (fence ++ []) (before ++ fence ++ raw ++ fence ++ after) =
      some (before, raw ++ fence ++ after) := by
    rw [List.append_nil, ← Text.cut?_append hbefore ?_ (raw ++ fence ++ after)]
    · simp
    · rintro c hc hmem
      have hfence : ∀ d ∈ fence, d = '\x60' := by simp [fence]
      exact hlast (hfence c hmem ▸ hc)
  have hclose : Text.cut? fence (raw ++ fence ++ after) = some (raw, after) := by
    apply Text.cut?_append hraw
    intro c hc
    exact fence_ne_feed (Option.some.inj (hc.symm.trans hfeed))
  rw [fenced, fencedFrom_of_cut hopen hclose, fencedFrom_of_none]
  · rfl
  · rw [List.append_nil]
    exact Text.includes_eq_false_iff.1 hafter

theorem splitTag_diff (body : Text) :
    splitTag ("diff\n".toList ++ body) = ("diff".toList, body) := rfl

theorem includes_diff_tag (body : Text) :
    Text.includes ("diff\n".toList ++ body) fence = body.includes fence := by
  rw [Text.includes, Text.includes]
  simp [Text.cut?, Text.after?, fence]

theorem codeBlocks_diff {before body after : Text} (hbefore : before.includes fence = false)
    (hlast : before.getLast? ≠ some '\x60') (hbody : body.includes fence = false)
    (hfeed : ∀ c, body.getLast? = some c → c = '\n') (hafter : after.includes fence = false) :
    codeBlocks [] (before ++ fence ++ ("diff\n".toList ++ body) ++ fence ++ after) =
      [trimBody body] := by
  have hend : ("diff\n".toList ++ body).getLast? = some '\n' := by
    rw [List.getLast?_append]
    cases h : body.getLast? with
    | none => rfl
    | some c => rw [hfeed c h]; rfl
  rw [codeBlocks, fenced_eq_singleton hbefore hlast (by rw [includes_diff_tag, hbody]) hend hafter,
    List.map_singleton, Fenced.ofRaw, splitTag_diff]

theorem trimBody_cons {c : Char} (h : isBlank c = false) (s : Text) :
    trimBody (c :: s) = Text.trimEnd (c :: s) := by
  rw [trimBody, List.takeWhile_cons_of_neg (by simp [h]), List.dropWhile_cons_of_neg (by simp [h])]
  rfl

end Emend
