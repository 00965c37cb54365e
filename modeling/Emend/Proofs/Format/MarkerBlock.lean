import Emend.Proofs.Format.EditFormat
import Emend.Proofs.Text.Occurrence

namespace Emend

theorem looksLikePath_of_pathOfHeader? {header path : Text} (h : pathOfHeader? header = some path) :
    looksLikePath path = true := by
  simp only [pathOfHeader?, Option.ite_none_right_eq_some, Option.some.injEq] at h
  exact h.2 ▸ h.1

theorem ne_nil_of_looksLikePath {path : Text} (h : looksLikePath path = true) : path ≠ [] := by
  rintro rfl
  cases h

theorem not_blank_of_looksLikePath {path : Text} (h : looksLikePath path = true) :
    ∀ c ∈ path, isBlank c = false := by
  simp only [looksLikePath, Bool.and_eq_true, Bool.not_eq_true', List.any_eq_false] at h
  intro c hc
  exact Bool.eq_false_iff.2 (h.1.1.2 c hc)

namespace MarkerBlock

section

variable {c : Char} {s rest : Text} {n : Nat}

theorem run?_append (hmin : 5 ≤ n) (hmax : n ≤ 7) (hrest : rest.head? ≠ some c) :
    run? c (List.replicate n c ++ rest) = some rest := by
  have hstop : rest.takeWhile (· == c) = [] := by
    cases rest with
    | nil => rfl
    | cons d rest =>
        rw [List.takeWhile_cons_of_neg]
        simpa using hrest
  have htake : (List.replicate n c ++ rest).takeWhile (· == c) = List.replicate n c := by
    rw [List.takeWhile_append_of_pos, hstop, List.append_nil]
    intro d hd
    rw [List.eq_of_mem_replicate hd, beq_self_eq_true]
  rw [run?, htake, List.length_replicate, if_pos ⟨hmin, hmax⟩,
    List.drop_left' List.length_replicate]

theorem eq_append_of_run? (h : run? c s = some rest) :
    ∃ n, 5 ≤ n ∧ s = List.replicate n c ++ rest := by
  simp only [run?] at h
  split at h
  · rename_i hn
    have hrun : s.takeWhile (· == c) = List.replicate (s.takeWhile (· == c)).length c := by
      rw [List.eq_replicate_iff]
      exact ⟨rfl, fun d hd => beq_iff_eq.1 (List.all_eq_true.1 List.all_takeWhile d hd)⟩
    have hsplit := List.prefix_iff_eq_append.1 (List.takeWhile_prefix (· == c) (l := s))
    refine ⟨_, hn.1, ?_⟩
    rw [← hrun, ← Option.some.inj h, hsplit]
  · cases h

theorem opener?_append (hmin : 5 ≤ n) (hmax : n ≤ 7) (rest : Text) :
    opener? (List.replicate n '<' ++ (" SEARCH\n".toList ++ rest)) = some rest := by
  rw [opener?, run?_append hmin hmax (by simp), Option.bind_some]
  exact Text.after?_append "SEARCH\n".toList rest

theorem separator?_append (hmin : 5 ≤ n) (hmax : n ≤ 7) (rest : Text) :
    separator? (List.replicate n '=' ++ '\n' :: rest) = some rest := by
  rw [separator?, run?_append hmin hmax (by simp), Option.bind_some]
  rfl

theorem closer?_append (hmin : 5 ≤ n) (hmax : n ≤ 7) (rest : Text) :
    closer? (List.replicate n '>' ++ (" REPLACE".toList ++ rest)) = some rest := by
  rw [closer?, run?_append hmin hmax (by simp), Option.bind_some]
  exact Text.after?_append "REPLACE".toList rest

theorem eq_append_of_separator? (h : separator? s = some rest) :
    ∃ n, 5 ≤ n ∧ s = List.replicate n '=' ++ '\n' :: rest := by
  obtain ⟨t, ht, hfeed⟩ := Option.bind_eq_some_iff.1 h
  obtain ⟨n, hn, rfl⟩ := eq_append_of_run? ht
  rw [Text.eq_append_of_after? hfeed]
  exact ⟨n, hn, rfl⟩

theorem eq_append_of_closer? (h : closer? s = some rest) :
    ∃ n, 5 ≤ n ∧ (s = List.replicate n '>' ++ ("REPLACE".toList ++ rest) ∨
      s = List.replicate n '>' ++ (" REPLACE".toList ++ rest)) := by
  obtain ⟨t, ht, hafter⟩ := Option.bind_eq_some_iff.1 h
  obtain ⟨n, hn, rfl⟩ := eq_append_of_run? ht
  refine ⟨n, hn, ?_⟩
  have hword := Text.eq_append_of_after? hafter
  unfold dropSpace at hword
  split at hword
  · rw [hword]
    exact .inr rfl
  · rw [hword]
    exact .inl rfl

end

def linesOf (t : Text) : Text := if t = [] then [] else t ++ ['\n']

section

variable {marker? : Text → Option Text} {t z rest : Text}

theorem dropFeed_of_head? (h : z.head? ≠ some '\n') : dropFeed z = z := by
  unfold dropFeed
  split
  · exact absurd rfl h
  · rfl

theorem upTo?_of_marker (hfeed : z.head? ≠ some '\n') (h : marker? z = some rest) :
    upTo? marker? z = some ([], rest) := by
  cases z with
  | nil => rw [upTo?, h, Option.map_some]
  | cons c z => rw [upTo?, dropFeed_of_head? hfeed, h]

theorem upTo?_append (h : marker? z = some rest)
    (hnone : ∀ y, y <:+ t → marker? (y ++ '\n' :: z) = none) :
    upTo? marker? (t ++ '\n' :: z) = some (t, rest) := by
  induction t with
  | nil =>
      have hdrop : dropFeed ('\n' :: z) = z := rfl
      rw [List.nil_append, upTo?, hdrop, h]
  | cons c t ih =>
      -- A line feed at the front is dropped, and the marker is tried on a shorter suffix.
      have hhere : marker? (dropFeed (c :: (t ++ '\n' :: z))) = none := by
        unfold dropFeed
        split
        · rename_i heq
          cases heq
          exact hnone t (List.suffix_cons _ t)
        · exact hnone (c :: t) List.suffix_rfl
      rw [List.cons_append, upTo?, hhere]
      dsimp only
      rw [ih fun y hy => hnone y (hy.trans (List.suffix_cons c t)), Option.map_some]

/-- A text is read up to the marker after it when the marker fits at no earlier place. -/
theorem upTo?_linesOf (hfeed : z.head? ≠ some '\n') (h : marker? z = some rest)
    (hnone : ∀ y, y <:+ t → marker? (y ++ '\n' :: z) = none) :
    upTo? marker? (linesOf t ++ z) = some (t, rest) := by
  by_cases ht : t = []
  · rw [linesOf, if_pos ht, List.nil_append, upTo?_of_marker hfeed h, ht]
  · rw [linesOf, if_neg ht, List.append_assoc]
    exact upTo?_append h hnone

theorem start_of_no_feed {w y : Text} (hw : '\n' ∉ w) (h : y ++ '\n' :: z = w ++ rest) :
    w <+: y := by
  rcases List.append_eq_append_iff.1 h with ⟨gap, rfl, hgap⟩ | ⟨tail, rfl, -⟩
  · cases gap with
    | nil => rw [List.append_nil]
    | cons c gap =>
        rw [← (List.cons.inj hgap).1] at hw
        exact absurd (List.mem_append_right _ (List.mem_cons_self ..)) hw
  · exact List.prefix_append w tail

theorem marks_suffix {n : Nat} (hn : 5 ≤ n) (c : Char) (word : Text) :
    List.replicate 5 c ++ word <:+ List.replicate n c ++ word := by
  refine ⟨List.replicate (n - 5) c, ?_⟩
  rw [← List.append_assoc, List.replicate_append_replicate, Nat.sub_add_cancel hn]

theorem separator?_eq_none (ht : ∀ l ∈ t.pieces, l.endsWith "=====".toList = false) {y : Text}
    (hy : y <:+ t) : separator? (y ++ '\n' :: z) = none := by
  rw [Option.eq_none_iff_forall_ne_some]
  intro rest h
  obtain ⟨n, hn, heq⟩ := eq_append_of_separator? h
  -- The run ends a line of `y`, hence a line of the whole text.
  have hrun : List.replicate n '=' ∈ Text.pieces y := Text.mem_pieces_of_feed (by simp) heq
  obtain ⟨before, rfl⟩ := hy
  obtain ⟨l, hl, hsuffix⟩ := Text.exists_suffix_of_mem_pieces hrun before
  have hmarks : "=====".toList <:+ List.replicate n '=' := by
    simpa using marks_suffix hn '=' []
  have hend := Text.endsWith_iff.2 (hmarks.trans hsuffix)
  rw [ht l hl] at hend
  cases hend

theorem infix_of_marks {n : Nat} {y word : Text} (hn : 5 ≤ n) (hword : '\n' ∉ word)
    (hy : y <:+ t) (h : y ++ '\n' :: z = List.replicate n '>' ++ (word ++ rest)) :
    List.replicate 5 '>' ++ word <:+: t := by
  have hmarker : '\n' ∉ List.replicate n '>' ++ word := by simp [hword]
  have hstart : List.replicate n '>' ++ word <+: y := start_of_no_feed hmarker (by simpa using h)
  exact (marks_suffix hn '>' word).isInfix.trans (hstart.isInfix.trans hy.isInfix)

/-- A closing marker lies on one line, so it is found inside a text or not before its end. -/
theorem closer?_eq_none (hjoined : t.includes ">>>>>REPLACE".toList = false)
    (hspaced : t.includes ">>>>> REPLACE".toList = false) {y : Text} (hy : y <:+ t) :
    closer? (y ++ '\n' :: z) = none := by
  rw [Option.eq_none_iff_forall_ne_some]
  intro rest h
  obtain ⟨n, hn, heq | heq⟩ := eq_append_of_closer? h
  · exact Text.not_infix_of_includes hjoined (infix_of_marks hn (by decide) hy heq)
  · exact Text.not_infix_of_includes hspaced (infix_of_marks hn (by decide) hy heq)

end

/-- What a block can say: its texts hold no marker, and they are not both blank. -/
structure Writable (b : MarkerBlock) : Prop where
  header : pathOfHeader? b.header = some b.header
  search : ∀ l ∈ b.search.pieces, l.endsWith "=====".toList = false
  joined : b.replacement.includes ">>>>>REPLACE".toList = false
  spaced : b.replacement.includes ">>>>> REPLACE".toList = false
  not_blank : ¬(b.search.blank = true ∧ b.replacement.blank = true)

theorem render_append (n : Nat) (b : MarkerBlock) (rest : Text) :
    b.render n ++ rest =
      b.header ++ '\n' :: (List.replicate n '<' ++ (" SEARCH\n".toList ++ (linesOf b.search ++
        (List.replicate n '=' ++ '\n' :: (linesOf b.replacement ++
          (List.replicate n '>' ++ (" REPLACE".toList ++ '\n' :: rest))))))) := by
  have hclose : " REPLACE\n".toList = " REPLACE".toList ++ ['\n'] := rfl
  simp only [render, hclose, List.append_assoc, List.cons_append, List.nil_append]
  rfl

variable {b : MarkerBlock} {n : Nat}

theorem Writable.looksLikePath (h : b.Writable) : looksLikePath b.header = true :=
  looksLikePath_of_pathOfHeader? h.header

theorem Writable.no_feed (h : b.Writable) : '\n' ∉ b.header := by
  intro hmem
  cases not_blank_of_looksLikePath h.looksLikePath '\n' hmem

theorem takeWhile_header {header : Text} (h : '\n' ∉ header) (s : Text) :
    (header ++ '\n' :: s).takeWhile (· != '\n') = header := by
  rw [List.takeWhile_append_of_pos, List.takeWhile_cons_of_neg (by simp), List.append_nil]
  intro c hc
  rw [bne_iff_ne]
  rintro rfl
  exact h hc

theorem nextLine?_append {l : Text} (h : '\n' ∉ l) (s : Text) :
    nextLine? (l ++ '\n' :: s) = some s := by
  induction l with
  | nil => rw [List.nil_append, nextLine?, if_pos rfl]
  | cons c l ih =>
      rw [List.mem_cons, not_or] at h
      rw [List.cons_append, nextLine?, if_neg (Ne.symm h.1), ih h.2]

theorem dropFenceLine_marks (hmin : 5 ≤ n) (s : Text) :
    dropFenceLine (List.replicate n '<' ++ s) = List.replicate n '<' ++ s := by
  obtain ⟨m, rfl⟩ := Nat.exists_eq_add_of_le' hmin
  rfl

theorem head?_marks {c : Char} (hmin : 5 ≤ n) (hc : c ≠ '\n') (s : Text) :
    (List.replicate n c ++ s).head? ≠ some '\n' := by
  obtain ⟨m, rfl⟩ := Nat.exists_eq_add_of_le' hmin
  rintro ⟨⟩
  exact hc rfl

theorem texts?_append (h : b.Writable) (hmin : 5 ≤ n) (hmax : n ≤ 7) (rest : Text) :
    texts? (List.replicate n '<' ++ (" SEARCH\n".toList ++ (linesOf b.search ++
      (List.replicate n '=' ++ '\n' :: (linesOf b.replacement ++
        (List.replicate n '>' ++ (" REPLACE".toList ++ rest))))))) =
      some ((b.search, b.replacement), rest) := by
  have hsearch (s : Text) : upTo? separator? (linesOf b.search ++
      (List.replicate n '=' ++ '\n' :: s)) = some (b.search, s) := by
    apply upTo?_linesOf (head?_marks hmin (by decide) _) (separator?_append hmin hmax s)
    exact fun y hy => separator?_eq_none h.search hy
  have hreplacement : upTo? closer? (linesOf b.replacement ++
      (List.replicate n '>' ++ (" REPLACE".toList ++ rest))) = some (b.replacement, rest) := by
    apply upTo?_linesOf (head?_marks hmin (by decide) _) (closer?_append hmin hmax rest)
    exact fun y hy => closer?_eq_none h.joined h.spaced hy
  unfold texts?
  rw [opener?_append hmin hmax]
  dsimp only
  rw [hsearch]
  dsimp only
  rw [hreplacement, Option.map_some]

theorem at?_append (h : b.Writable) (hmin : 5 ≤ n) (hmax : n ≤ 7) (rest : Text) :
    at? (b.render n ++ rest) = some (b, '\n' :: rest) := by
  rw [render_append, at?, takeWhile_header h.no_feed, nextLine?_append h.no_feed,
    if_neg (ne_nil_of_looksLikePath h.looksLikePath)]
  dsimp only
  rw [dropFenceLine_marks hmin, texts?_append h hmin hmax, Option.map_some]

theorem all_of_at? {s rest : Text} (h : at? s = some (b, '\n' :: rest)) : all s = b :: all rest := by
  have hresume : nextLine? (resume s) = some rest := by
    rw [resume, h]
    rfl
  rw [all, h]
  split
  · rename_i hnone
    rw [hresume] at hnone
    cases hnone
  · rename_i hsome
    rw [hresume] at hsome
    cases hsome
    rfl

theorem all_nil : all [] = [] := by
  rw [all]
  rfl

theorem all_flatMap_render {bs : List (MarkerBlock × Nat)}
    (h : ∀ p ∈ bs, p.1.Writable ∧ 5 ≤ p.2 ∧ p.2 ≤ 7) :
    all (bs.flatMap fun p => p.1.render p.2) = bs.map Prod.fst := by
  induction bs with
  | nil => exact all_nil
  | cons p bs ih =>
      rw [List.forall_mem_cons] at h
      obtain ⟨⟨hblock, hmin, hmax⟩, hrest⟩ := h
      rw [List.flatMap_cons, all_of_at? (at?_append hblock hmin hmax _), ih hrest, List.map_cons]

theorem Writable.toChange? (h : b.Writable) :
    b.toChange? = some ⟨b.header, b.search, b.replacement⟩ := by
  rw [MarkerBlock.toChange?, h.header, Option.map_some]

theorem Writable.isNoop (h : b.Writable) :
    (⟨b.header, b.search, b.replacement⟩ : Change).isNoop = false := by
  have hheader : b.header.blank = false := by
    obtain ⟨c, hc⟩ := List.exists_mem_of_ne_nil _ (ne_nil_of_looksLikePath h.looksLikePath)
    rw [Text.blank, List.all_eq_false]
    exact ⟨c, hc, by simp [not_blank_of_looksLikePath h.looksLikePath c hc]⟩
  have htexts := h.not_blank
  rw [← Bool.and_eq_true, Bool.not_eq_true] at htexts
  rw [Change.isNoop, hheader, htexts]
  rfl

end MarkerBlock

/-- Blocks come back as they were written, each with the path in its header, however many
characters its markers have. -/
theorem candidates_markerBlocks {bs : List (MarkerBlock × Nat)}
    (h : ∀ p ∈ bs, p.1.Writable ∧ 5 ≤ p.2 ∧ p.2 ≤ 7) :
    EditFormat.searchReplace.candidates (bs.flatMap fun p => p.1.render p.2) =
      bs.map fun p => ⟨p.1.header, p.1.search, p.1.replacement⟩ := by
  have hchanges : (bs.map Prod.fst).filterMap MarkerBlock.toChange? =
      bs.map fun p => ⟨p.1.header, p.1.search, p.1.replacement⟩ := by
    rw [List.filterMap_map, ← List.filterMap_eq_map]
    apply List.filterMap_congr
    intro p hp
    rw [Function.comp_apply, (h p hp).1.toChange?, Function.comp_apply]
  rw [EditFormat.candidates_searchReplace, MarkerBlock.all_flatMap_render h, hchanges,
    List.filter_eq_self]
  intro c hc
  obtain ⟨p, hp, rfl⟩ := List.mem_map.1 hc
  rw [(h p hp).1.isNoop]
  rfl

/-- The first block puts a text into an empty file, blank lines at its ends included. -/
def twoBlocks : List (MarkerBlock × Nat) :=
  [(⟨"src/a.py".toList, [], "\na = 1\n\n".toList⟩, 7),
    (⟨"src/b.py".toList, "==== a\n\n".toList, []⟩, 5)]

theorem writable_twoBlocks : ∀ p ∈ twoBlocks, p.1.Writable ∧ 5 ≤ p.2 ∧ p.2 ≤ 7 := by
  rintro p hp
  rcases List.mem_pair.1 hp with rfl | rfl
  · exact ⟨⟨by decide, by decide, by decide, by decide, by decide⟩, by decide, by decide⟩
  · exact ⟨⟨by decide, by decide, by decide, by decide, by decide⟩, by decide, by decide⟩

theorem candidates_twoBlocks :
    EditFormat.searchReplace.candidates (twoBlocks.flatMap fun p => p.1.render p.2) =
      [⟨"src/a.py".toList, [], "\na = 1\n\n".toList⟩,
        ⟨"src/b.py".toList, "==== a\n\n".toList, []⟩] :=
  candidates_markerBlocks writable_twoBlocks

end Emend
