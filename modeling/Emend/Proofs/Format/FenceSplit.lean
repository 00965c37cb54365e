import Emend.Proofs.Format.CodeBlock
import Emend.Proofs.Format.FileBlock

namespace Emend

namespace Text

/-- The pieces into which a text falls at the leftmost `pat`, at the leftmost one behind it, and so
on. -/
inductive Splits (pat : Text) : Text → List Text → Prop
  | last {s : Text} (h : ¬pat <:+: s) : Splits pat s [s]
  | cut {s piece rest : Text} {ps : List Text} (hoccurs : OccursAt pat s piece rest)
      (hfirst : IsFirst pat s piece) (hrest : Splits pat rest ps) : Splits pat s (piece :: ps)

namespace Splits

variable {pat s : Text} {ps : List Text}

theorem eq_of_cut?_eq_none (h : Splits pat s ps) (hcut : cut? pat s = none) : ps = [s] := by
  cases h with
  | last => rfl
  | cut hoccurs => exact absurd hcut (cut?_ne_none hoccurs)

theorem exists_of_cut? (h : Splits pat s ps) {piece rest : Text}
    (hcut : cut? pat s = some (piece, rest)) : ∃ ps', ps = piece :: ps' ∧ Splits pat rest ps' := by
  cases h with
  | last h => exact absurd ⟨piece, rest, (eq_append_of_cut? hcut).symm⟩ h
  | cut hoccurs hfirst hrest =>
      have hsame := (cut?_eq_some_iff.2 ⟨hoccurs, hfirst⟩).symm.trans hcut
      cases hsame
      exact ⟨_, rfl, hrest⟩

theorem unique (h : Splits pat s ps) {qs : List Text} (h' : Splits pat s qs) : ps = qs := by
  induction h generalizing qs with
  | last h => exact (h'.eq_of_cut?_eq_none (cut?_eq_none_iff.2 h)).symm
  | cut hoccurs hfirst _ ih =>
      obtain ⟨qs', rfl, hrest⟩ := h'.exists_of_cut? (cut?_eq_some_iff.2 ⟨hoccurs, hfirst⟩)
      rw [ih hrest]

theorem ne_nil (h : Splits pat s ps) : ps ≠ [] := by
  cases h <;> exact List.cons_ne_nil _ _

end Splits

theorem exists_splits {pat : Text} (hne : pat ≠ []) (s : Text) : ∃ ps, Splits pat s ps := by
  induction hlen : s.length using Nat.strong_induction_on generalizing s with
  | _ n ih =>
      cases hcut : cut? pat s with
      | none => exact ⟨[s], .last (cut?_eq_none_iff.1 hcut)⟩
      | some p =>
          obtain ⟨piece, rest⟩ := p
          obtain ⟨c, pat, rfl⟩ := List.exists_cons_of_ne_nil hne
          obtain ⟨ps, hps⟩ := ih rest.length (hlen ▸ length_lt_of_cut? hcut) rest rfl
          obtain ⟨hoccurs, hfirst⟩ := cut?_eq_some_iff.1 hcut
          exact ⟨piece :: ps, .cut hoccurs hfirst hps⟩

/-- The text without the blank lines at its start and the white space at its end. -/
def trimLines (s : Text) : Text := (unlines (s.pieces.dropWhile blank)).trimEnd

end Text

def untagged (piece : Text) : Text :=
  match piece.pieces with
  | first :: second :: more =>
      if first.trimEnd.all isTagChar then Text.unlines (second :: more) else piece
  | _ => piece

def blockText (piece : Text) : Text := (untagged piece).trimLines

theorem untagged_of_no_feed {piece : Text} (h : '\n' ∉ piece) : untagged piece = piece := by
  rw [untagged, Text.pieces_of_no_feed h]

theorem untagged_append_cons {first : Text} (h : '\n' ∉ first) (rest : Text) :
    untagged (first ++ '\n' :: rest) =
      if first.trimEnd.all isTagChar then rest else first ++ '\n' :: rest := by
  obtain ⟨second, more, hrest⟩ := List.exists_cons_of_ne_nil rest.pieces_ne_nil
  rw [untagged, Text.pieces_append_cons h, hrest]
  dsimp only
  rw [← hrest, Text.unlines_pieces]

theorem splitTag_snd (piece : Text) : (splitTag piece).2 = untagged piece := by
  rw [splitTag]
  cases hcut : Text.cut? ['\n'] piece with
  | none =>
      have hfeed : '\n' ∉ piece := by
        rw [← List.singleton_infix_iff]
        exact Text.cut?_eq_none_iff.1 hcut
      rw [untagged_of_no_feed hfeed]
  | some p =>
      obtain ⟨first, rest⟩ := p
      have hfeed : '\n' ∉ first := by
        rw [← List.singleton_infix_iff]
        exact Text.not_infix_of_cut? (List.cons_ne_nil _ _) hcut
      have hpiece : piece = first ++ '\n' :: rest := by
        rw [Text.eq_append_of_cut? hcut, List.append_assoc]
        rfl
      rw [hpiece, untagged_append_cons hfeed]
      dsimp only
      split <;> rfl

theorem takeWhile_append_cons {p : Char → Bool} {c : Char} (h : p c = false) (s t : Text) :
    (s ++ c :: t).takeWhile p = s.takeWhile p := by
  induction s with
  | nil => exact List.takeWhile_cons_of_neg (by simp [h])
  | cons d s ih =>
      rw [List.cons_append, List.takeWhile_cons, List.takeWhile_cons, ih]

theorem trimBody_append_cons {lead : Text} (hblank : lead.blank = true) (s : Text) :
    trimBody (lead ++ '\n' :: s) = trimBody s := by
  have hlead : ∀ c ∈ lead, isBlank c = true := List.all_eq_true.1 hblank
  have hfeed : isBlank '\n' = true := by decide
  have hspaces : (lead ++ '\n' :: s).takeWhile isBlank = lead ++ '\n' :: s.takeWhile isBlank := by
    rw [List.takeWhile_append_of_pos hlead, List.takeWhile_cons_of_pos hfeed]
  have hrest : (lead ++ '\n' :: s).dropWhile isBlank = s.dropWhile isBlank := by
    rw [List.dropWhile_append_of_pos hlead, List.dropWhile_cons_of_pos hfeed]
  -- The indent is cut off at its last line feed, so the lines before that one do not matter.
  have hindent : (lead ++ '\n' :: s.takeWhile isBlank).reverse.takeWhile (· != '\n') =
      (s.takeWhile isBlank).reverse.takeWhile (· != '\n') := by
    rw [List.reverse_append, List.reverse_cons, List.append_assoc, List.singleton_append]
    exact takeWhile_append_cons (by decide) _ _
  rw [trimBody, trimBody, hspaces, hrest, hindent]

theorem trimBody_of_blank {s : Text} (h : s.blank = true) : trimBody s = [] := by
  rw [trimBody]
  apply Text.trimEnd_eq_nil_of_blank
  rw [Text.blank, List.all_eq_true]
  intro c hc
  have hmem := Text.mem_of_mem_trimEnd hc
  rw [List.mem_append, List.mem_reverse] at hmem
  apply List.all_eq_true.1 h
  rcases hmem with hmem | hmem
  · have := (List.takeWhile_sublist _).subset hmem
    exact (List.takeWhile_sublist _).subset (List.mem_reverse.1 this)
  · exact (List.dropWhile_sublist _).subset hmem

theorem trimBody_unlines {ls : List Text} (h : ∀ l ∈ ls, '\n' ∉ l) :
    trimBody (Text.unlines ls) = (Text.unlines (ls.dropWhile Text.blank)).trimEnd := by
  induction ls with
  | nil => rfl
  | cons l ls ih =>
      by_cases hblank : l.blank = true
      · rw [List.dropWhile_cons_of_pos hblank]
        cases ls with
        | nil => rw [Text.unlines_singleton, trimBody_of_blank hblank]; rfl
        | cons m ls =>
            have hsplit : Text.unlines (l :: m :: ls) = l ++ '\n' :: Text.unlines (m :: ls) := by
              rw [Text.unlines_cons, Text.unlines_cons, Text.preceded_cons, List.cons_append]
            rw [hsplit, trimBody_append_cons hblank, ih (List.forall_mem_cons.1 h).2]
      · rw [List.dropWhile_cons_of_neg hblank]
        apply trimBody_of_first_line
        intro m hm
        rw [Text.pieces_unlines (List.cons_ne_nil _ _) h] at hm
        cases hm
        exact Bool.eq_false_iff.2 hblank

theorem trimBody_eq (s : Text) : trimBody s = s.trimLines := by
  rw [Text.trimLines, ← trimBody_unlines fun _ => Text.no_feed_of_mem_pieces, Text.unlines_pieces]

theorem codeBlocks_eq (language markdown : Text) :
    codeBlocks language markdown =
      ((fencedFrom language [] markdown).map Fenced.body).map Text.trimLines := by
  rw [codeBlocks, fenced, List.map_map]
  exact List.map_congr_left fun b _ => trimBody_eq b.body

theorem body_ofRaw (before raw : Text) : (Fenced.ofRaw before raw).body = untagged raw := splitTag_snd raw

theorem getElem?_bodies {s : Text} {ps : List Text} (h : Text.Splits fence s ps) (before : Text)
    (k : Nat) :
    ((fencedFrom [] before s).map Fenced.body)[k]? =
      if 2 * k + 2 < ps.length then ps[2 * k + 1]?.map untagged else none := by
  fun_induction fencedFrom [] before s generalizing ps k with
  | case1 before s hnone =>
      rw [List.append_nil] at hnone
      rw [h.eq_of_cut?_eq_none hnone, if_neg (by simp)]
      rfl
  | case2 before s skipped opened hopen hnone =>
      rw [List.append_nil] at hopen
      obtain ⟨ps, rfl, hrest⟩ := h.exists_of_cut? hopen
      rw [hrest.eq_of_cut?_eq_none hnone, if_neg (by simp)]
      rfl
  | case3 before s skipped opened hopen raw rest hclose hlt ih =>
      rw [List.append_nil] at hopen
      obtain ⟨ps, rfl, hopened⟩ := h.exists_of_cut? hopen
      obtain ⟨ps, rfl, hrest⟩ := hopened.exists_of_cut? hclose
      have hpos := List.length_pos_of_ne_nil hrest.ne_nil
      cases k with
      | zero =>
          rw [if_pos (by simp only [List.length_cons]; omega)]
          rw [List.map_cons, body_ofRaw]
          rfl
      | succ k =>
          have hlength : 2 * (k + 1) + 2 < (skipped :: raw :: ps).length ↔ 2 * k + 2 < ps.length := by
            simp only [List.length_cons]
            omega
          have hplace : (skipped :: raw :: ps)[2 * (k + 1) + 1]? = ps[2 * k + 1]? := rfl
          rw [List.map_cons, List.getElem?_cons_succ, ih hrest, hplace]
          exact if_congr hlength.symm rfl rfl

/-- A stretch of a text up to the end of a block: what stands before the block, and what stands
between its fences. -/
structure Stretch where
  gap : Text
  inside : Text

def Stretch.text (language : Text) (r : Stretch) : Text :=
  r.gap ++ (fence ++ language) ++ r.inside ++ fence

theorem exists_stretches (language before s : Text) :
    ∃ (stretches : List Stretch) (rest : Text),
      s = stretches.flatMap (Stretch.text language) ++ rest ∧
      (fencedFrom language before s).map Fenced.body = stretches.map (untagged ·.inside) ∧
      ∀ r ∈ stretches, ¬fence <:+: r.inside := by
  fun_induction fencedFrom language before s with
  | case1 before s hnone => exact ⟨[], s, rfl, rfl, List.forall_mem_nil _⟩
  | case2 before s skipped opened hopen hnone => exact ⟨[], s, rfl, rfl, List.forall_mem_nil _⟩
  | case3 before s skipped opened hopen raw rest hclose hlt ih =>
      obtain ⟨stretches, last, hrest, hbodies, hinside⟩ := ih
      refine ⟨⟨skipped, raw⟩ :: stretches, last, ?_, ?_, ?_⟩
      · rw [Text.eq_append_of_cut? hopen, Text.eq_append_of_cut? hclose, List.flatMap_cons]
        conv_lhs => rw [hrest]
        simp [Stretch.text]
      · rw [List.map_cons, List.map_cons, hbodies, body_ofRaw]
      · rw [List.forall_mem_cons]
        exact ⟨Text.not_infix_of_cut? (by decide) hclose, hinside⟩

theorem blockText_isInfix (piece : Text) : blockText piece <:+: piece := by
  obtain ⟨tag, -, hpiece⟩ := exists_append_of_splitTag piece
  obtain ⟨lead, trail, -, hbody⟩ := exists_append_of_trimBody (splitTag piece).2
  rw [trimBody_eq, splitTag_snd] at hbody
  rw [splitTag_snd, hbody] at hpiece
  refine ⟨tag ++ lead, trail, ?_⟩
  conv_rhs => rw [hpiece]
  simp [blockText]

theorem length_stretches_le (language : Text) (stretches : List Stretch) :
    stretches.length * (2 * fence.length + language.length) ≤
      (stretches.flatMap (Stretch.text language)).length := by
  induction stretches with
  | nil => exact Nat.le_of_eq (Nat.zero_mul _)
  | cons r stretches ih =>
      have hr : 2 * fence.length + language.length ≤ (r.text language).length := by
        simp only [Stretch.text, List.length_append]
        omega
      rw [List.length_cons, List.flatMap_cons, List.length_append, Nat.succ_mul]
      omega

/-- The blocks of a text are every second of the pieces into which the fences split it, but not the
last piece, which no fence closes; each without its tag line, the blank lines at its start and the
white space at its end. In whatever language blocks are looked for, they come to an end, they stand
in stretches of the text that follow one another, and none holds a fence. -/
theorem codeBlocks_split (markdown : Text) :
    (∃ ps, Text.Splits fence markdown ps ∧ (∀ qs, Text.Splits fence markdown qs → qs = ps) ∧
      ∀ k, (codeBlocks [] markdown)[k]? =
        if 2 * k + 2 < ps.length then ps[2 * k + 1]?.map blockText else none) ∧
    ∀ language, ∃ (stretches : List Stretch) (rest : Text),
      markdown = stretches.flatMap (Stretch.text language) ++ rest ∧
      codeBlocks language markdown = stretches.map (blockText ·.inside) ∧
      (∀ r ∈ stretches, blockText r.inside <:+: r.inside) ∧
      (∀ b ∈ codeBlocks language markdown, ¬fence <:+: b) ∧
      (codeBlocks language markdown).length * (2 * fence.length + language.length) ≤
        markdown.length := by
  constructor
  · have hfence : fence ≠ [] := List.cons_ne_nil _ _
    obtain ⟨ps, hps⟩ := Text.exists_splits hfence markdown
    refine ⟨ps, hps, fun qs hqs => hqs.unique hps, fun k => ?_⟩
    rw [codeBlocks_eq, List.getElem?_map, getElem?_bodies hps]
    split
    · rw [Option.map_map]
      rfl
    · rfl
  · intro language
    obtain ⟨stretches, rest, hmarkdown, hbodies, hinside⟩ := exists_stretches language [] markdown
    have hblocks : codeBlocks language markdown = stretches.map (blockText ·.inside) := by
      rw [codeBlocks_eq, hbodies, List.map_map]
      rfl
    refine ⟨stretches, rest, hmarkdown, hblocks, fun r _ => blockText_isInfix r.inside, ?_, ?_⟩
    · intro b hb hfence
      rw [hblocks] at hb
      obtain ⟨r, hr, rfl⟩ := List.mem_map.1 hb
      exact hinside r hr (hfence.trans (blockText_isInfix r.inside))
    · have hle := length_stretches_le language stretches
      rw [hblocks, List.length_map, hmarkdown, List.length_append]
      omega

end Emend
