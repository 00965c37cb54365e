import Emend.Proofs.Format.Fence
import Emend.Proofs.Text.Blank

namespace Emend

namespace Text

variable {pat lead trail : Text}

theorem after?_append_of_notMem (h : ∀ c ∈ trail, c ∉ pat) (s : Text) :
    after? pat (s ++ trail) = (after? pat s).map (· ++ trail) := by
  induction pat generalizing s with
  | nil => rfl
  | cons p pat ih =>
      have htail : ∀ c ∈ trail, c ∉ pat := fun c hc hmem => h c hc (List.mem_cons_of_mem p hmem)
      cases s with
      | nil =>
          cases trail with
          | nil => rfl
          | cons c trail =>
              have hne : p ≠ c := fun heq => h c (by simp) (by simp [heq])
              simp [after?, hne]
      | cons c s =>
          by_cases hc : p = c
          · simpa [after?, hc] using ih htail s
          · simp [after?, hc]

theorem cut?_of_notMem (hne : pat ≠ []) (h : ∀ c ∈ lead, c ∉ pat) : cut? pat lead = none := by
  rw [← Option.not_isSome_iff_eq_none, Option.isSome_iff_exists]
  rintro ⟨⟨before, rest⟩, hcut⟩
  obtain ⟨c, hc⟩ := List.exists_mem_of_ne_nil pat hne
  exact h c (by simp [eq_append_of_cut? hcut, hc]) hc

theorem cut?_append_of_notMem (hne : pat ≠ []) (h : ∀ c ∈ trail, c ∉ pat) (s : Text) :
    cut? pat (s ++ trail) = (cut? pat s).map fun p => (p.1, p.2 ++ trail) := by
  induction s with
  | nil => rw [cut?_nil hne, List.nil_append, cut?_of_notMem hne h, Option.map_none]
  | cons c s ih =>
      rw [List.cons_append, cut?, ← List.cons_append, after?_append_of_notMem h, cut?, ih]
      cases after? pat (c :: s) with
      | some rest => rfl
      | none => simp [Function.comp_def]

theorem cut?_notMem_append (hne : pat ≠ []) (h : ∀ c ∈ lead, c ∉ pat) (s : Text) :
    cut? pat (lead ++ s) = (cut? pat s).map fun p => (lead ++ p.1, p.2) := by
  induction lead with
  | nil => simp
  | cons c lead ih =>
      rw [List.forall_mem_cons] at h
      have hstart : after? pat (c :: (lead ++ s)) = none := by
        cases pat with
        | nil => exact absurd rfl hne
        | cons p pat =>
            have hp : p ≠ c := fun heq => h.1 (by simp [heq])
            simp [after?, hp]
      rw [List.cons_append, cut?, hstart, ih h.2, Option.map_map]
      rfl

end Text

theorem notMem_fence_of_blank {t : Text} (h : t.blank = true) : ∀ c ∈ t, c ∉ fence := by
  intro c hc hmem
  have hfence : ∀ d ∈ fence, d = '\x60' := by simp [fence]
  have hblank : isBlank '\x60' = false := rfl
  exact absurd (List.all_eq_true.1 h c hc) (by simp [hfence c hmem, hblank])

theorem fencedFrom_of_open {language before s skipped opened : Text}
    (h : Text.cut? (fence ++ language) s = some (skipped, opened))
    (h' : Text.cut? fence opened = none) : fencedFrom language before s = [] := by
  rw [fencedFrom]
  split
  · rfl
  · rename_i hsome
    rw [h] at hsome
    cases hsome
    split
    · rfl
    · rename_i hsome
      rw [h'] at hsome
      cases hsome

theorem bodies_fencedFrom_append {trail : Text} (h : ∀ c ∈ trail, c ∉ fence)
    (before before' s : Text) :
    (fencedFrom [] before (s ++ trail)).map Fenced.body =
      (fencedFrom [] before' s).map Fenced.body := by
  have hcut := Text.cut?_append_of_notMem (by simp [fence]) h
  fun_induction fencedFrom [] before' s generalizing before with
  | case1 before' s hnone =>
      rw [fencedFrom_of_none]
      rw [List.append_nil] at hnone ⊢
      rw [hcut, hnone, Option.map_none]
  | case2 before' s skipped opened hopen hnone =>
      have hopen' : Text.cut? (fence ++ []) (s ++ trail) = some (skipped, opened ++ trail) := by
        rw [List.append_nil] at hopen ⊢
        rw [hcut, hopen, Option.map_some]
      rw [fencedFrom_of_open hopen' (by rw [hcut, hnone, Option.map_none])]
  | case3 before' s skipped opened hopen raw rest hclose hlt ih =>
      have hopen' : Text.cut? (fence ++ []) (s ++ trail) = some (skipped, opened ++ trail) := by
        rw [List.append_nil] at hopen ⊢
        rw [hcut, hopen, Option.map_some]
      have hclose' : Text.cut? fence (opened ++ trail) = some (raw, rest ++ trail) := by
        rw [hcut, hclose, Option.map_some]
      rw [fencedFrom_of_cut hopen' hclose', List.map_cons, List.map_cons, ih]
      rfl

theorem bodies_fencedFrom_notMem_append {lead : Text} (h : ∀ c ∈ lead, c ∉ fence)
    (before before' s : Text) :
    (fencedFrom [] before (lead ++ s)).map Fenced.body =
      (fencedFrom [] before' s).map Fenced.body := by
  have hcut : Text.cut? (fence ++ []) (lead ++ s) =
      (Text.cut? (fence ++ []) s).map fun p => (lead ++ p.1, p.2) :=
    Text.cut?_notMem_append (by simp [fence]) (by simpa using h) s
  cases hopen : Text.cut? (fence ++ []) s with
  | none =>
      rw [hopen, Option.map_none] at hcut
      rw [fencedFrom_of_none hcut, fencedFrom_of_none hopen]
  | some p =>
      obtain ⟨skipped, opened⟩ := p
      rw [hopen, Option.map_some] at hcut
      cases hclose : Text.cut? fence opened with
      | none => rw [fencedFrom_of_open hcut hclose, fencedFrom_of_open hopen hclose]
      | some p =>
          obtain ⟨raw, rest⟩ := p
          have hrest := bodies_fencedFrom_append (List.forall_mem_nil (· ∉ fence))
          simp only [List.append_nil] at hrest
          rw [fencedFrom_of_cut hcut hclose, fencedFrom_of_cut hopen hclose, List.map_cons,
            List.map_cons, hrest]
          rfl

theorem codeBlocks_trim (s : Text) : codeBlocks [] s.trim = codeBlocks [] s := by
  obtain ⟨lead, trail, hlead, htrail, hs⟩ := s.exists_append_of_trim
  have hbodies : (fenced [] s).map Fenced.body = (fenced [] s.trim).map Fenced.body := by
    conv_lhs => rw [hs]
    rw [fenced, bodies_fencedFrom_append (notMem_fence_of_blank htrail) [] [],
      bodies_fencedFrom_notMem_append (notMem_fence_of_blank hlead) [] [], fenced]
  have hmap := congrArg (List.map trimBody) hbodies
  rw [List.map_map, List.map_map] at hmap
  exact hmap.symm

theorem exists_append_of_mem_fencedFrom {language before s : Text} {b : Fenced}
    (h : b ∈ fencedFrom language before s) :
    ∃ skipped raw rest, s = skipped ++ (fence ++ language ++ raw) ++ fence ++ rest ∧
      b.body = (splitTag raw).2 := by
  fun_induction fencedFrom language before s with
  | case1 before s hnone => cases h
  | case2 before s skipped opened hopen hnone => cases h
  | case3 before s skipped opened hopen raw rest hclose hlt ih =>
      rw [Text.eq_append_of_cut? hopen, Text.eq_append_of_cut? hclose]
      rcases List.mem_cons.1 h with rfl | h
      · exact ⟨skipped, raw, rest, by simp, rfl⟩
      · obtain ⟨skipped', raw', rest', hrest, hbody⟩ := ih h
        refine ⟨skipped ++ (fence ++ language) ++ raw ++ fence ++ skipped', raw', rest', ?_, hbody⟩
        rw [hrest]
        simp

def isBeside (c : Char) : Bool := isTagChar c || isBlank c

theorem exists_append_of_splitTag (raw : Text) :
    ∃ tag : Text, tag.all isBeside = true ∧ raw = tag ++ (splitTag raw).2 := by
  rw [splitTag]
  split
  · exact ⟨[], rfl, rfl⟩
  · rename_i first rest hcut
    split
    · rename_i hfirst
      obtain ⟨trail, htrail, hsplit⟩ := first.exists_append_of_dropEndWhile isBlank
      refine ⟨first ++ ['\n'], ?_, Text.eq_append_of_cut? hcut⟩
      have htag : first.all isBeside = true := by
        rw [hsplit, List.all_append, Bool.and_eq_true]
        refine ⟨List.all_eq_true.2 fun c hc => ?_, List.all_eq_true.2 fun c hc => ?_⟩
        · simp [isBeside, List.all_eq_true.1 hfirst c hc]
        · simp [isBeside, htrail c hc]
      rw [List.all_append, htag]
      rfl
    · exact ⟨[], rfl, rfl⟩

theorem exists_append_of_trimBody (body : Text) :
    ∃ lead trail : Text, lead.blank = true ∧ body = lead ++ trimBody body ++ trail := by
  let indent := ((body.takeWhile isBlank).reverse.takeWhile (· != '\n')).reverse
  let lead := ((body.takeWhile isBlank).reverse.dropWhile (· != '\n')).reverse
  have hspaces : body.takeWhile isBlank = lead ++ indent := by
    rw [← List.reverse_append, List.takeWhile_append_dropWhile, List.reverse_reverse]
  obtain ⟨trail, -, htrail⟩ :=
    Text.exists_append_of_dropEndWhile isBlank (indent ++ body.dropWhile isBlank)
  refine ⟨lead, trail, ?_, ?_⟩
  · have hall : (body.takeWhile isBlank).all isBlank = true := List.all_takeWhile
    rw [hspaces, List.all_append, Bool.and_eq_true] at hall
    exact hall.1
  · calc
      body = body.takeWhile isBlank ++ body.dropWhile isBlank :=
        List.takeWhile_append_dropWhile.symm
      _ = lead ++ (indent ++ body.dropWhile isBlank) := by rw [hspaces, List.append_assoc]
      _ = lead ++ trimBody body ++ trail := by
        conv_lhs => rw [htrail]
        rw [← List.append_assoc]
        rfl

/-- A block stands between two fences, after nothing but a tag and white space. -/
theorem exists_append_of_mem_codeBlocks {s b : Text} (h : b ∈ codeBlocks [] s) :
    ∃ skipped lead rest : Text, lead.all isBeside = true ∧
      s = skipped ++ fence ++ lead ++ b ++ rest := by
  obtain ⟨raw, hraw, rfl⟩ := List.mem_map.1 h
  obtain ⟨skipped, inside, rest, hs, hbody⟩ := exists_append_of_mem_fencedFrom hraw
  obtain ⟨tag, htag, hinside⟩ := exists_append_of_splitTag inside
  obtain ⟨lead, trail, hlead, hlines⟩ := exists_append_of_trimBody raw.body
  refine ⟨skipped, tag ++ lead, trail ++ fence ++ rest, ?_, ?_⟩
  · rw [List.all_append, htag, Bool.true_and, List.all_eq_true]
    intro c hc
    simp [isBeside, List.all_eq_true.1 hlead c hc]
  · rw [hs, hinside, ← hbody]
    conv_lhs => rw [hlines]
    simp

end Emend
