import Emend.Matching.Match
import Emend.Proofs.Text.Blank
import Emend.Proofs.Text.LineEnding
import Emend.Proofs.Text.Lines
import Mathlib.Data.List.TakeWhile

namespace Emend

namespace Text

theorem blank_of_dropReturn {l : Text} (h : (dropReturn l).blank = true) : l.blank = true := by
  rw [dropReturn] at h
  split at h
  · rename_i hlast
    obtain ⟨init, rfl⟩ : ∃ init, l = init ++ ['\r'] := List.getLast?_eq_some_iff.1 hlast
    rw [List.dropLast_concat] at h
    rw [blank_append, h]
    rfl
  · exact h

theorem blank_dropReturn {l : Text} (h : l.blank = true) : (dropReturn l).blank = true :=
  List.all_eq_true.2 fun c hc => List.all_eq_true.1 h c ((start_dropReturn l).subset hc)

theorem blank_preceded {ls : List Text} (h : ∀ l ∈ ls, l.blank = true) :
    (preceded ls).blank = true := by
  induction ls with
  | nil => rfl
  | cons l ls ih =>
      simp only [List.mem_cons, forall_eq_or_imp] at h
      have hfeed : blank ('\n' :: l) = true := by
        rw [blank, List.all_cons]
        exact Bool.and_eq_true_iff.2 ⟨by decide, h.1⟩
      rw [preceded_cons, blank_append, hfeed, ih h.2]
      rfl

theorem blank_unlines {ls : List Text} (h : ∀ l ∈ ls, l.blank = true) :
    (unlines ls).blank = true := by
  cases ls with
  | nil => rfl
  | cons l ls =>
      simp only [List.mem_cons, forall_eq_or_imp] at h
      rw [unlines_cons, blank_append, h.1, blank_preceded h.2]
      rfl

theorem blank_unlines_eq_false {ls : List Text} (hne : ls ≠ [])
    (h : ∀ l, ls.head? = some l → l.blank = false) : (unlines ls).blank = false := by
  obtain ⟨l, rest, rfl⟩ := List.exists_cons_of_ne_nil hne
  rw [unlines_cons, blank_append, h l rfl, Bool.false_and]

theorem blank_of_mem_pieces {ps : List Text} (h : ∀ l ∈ linesOfPieces ps, l.blank = true) :
    ∀ l ∈ ps, l.blank = true := by
  induction ps with
  | nil => exact h
  | cons l ps ih =>
      cases ps with
      | nil =>
          intro m hm
          obtain rfl := List.mem_singleton.1 hm
          by_cases hnil : m = []
          · rw [hnil]
            rfl
          · exact h m (by simp [linesOfPieces, hnil])
      | cons m ps =>
          simp only [linesOfPieces, List.mem_cons, forall_eq_or_imp] at h
          intro k hk
          rcases List.mem_cons.1 hk with rfl | hk
          · exact blank_of_dropReturn h.1
          · exact ih h.2 k hk

theorem blank_of_blank_lines {s : Text} (h : ∀ l ∈ s.lines, l.blank = true) : s.blank = true := by
  rw [← unlines_pieces s]
  exact blank_unlines (blank_of_mem_pieces h)

end Text

theorem queryLines_ne_nil {search : Text} (h : search.blank = false) : queryLines search ≠ [] := by
  intro hnil
  have hlines : ∀ l ∈ search.lines, l.blank = true := by
    rw [queryLines] at hnil
    rw [List.reverse_eq_nil_iff, List.dropWhile_eq_nil_iff] at hnil
    intro l hl
    rw [← List.takeWhile_append_dropWhile (p := Text.blank) (l := search.lines)] at hl
    rcases List.mem_append.1 hl with hl | hl
    · exact List.mem_takeWhile_imp hl
    · exact hnil l (List.mem_reverse.2 hl)
  rw [Text.blank_of_blank_lines hlines] at h
  cases h

theorem blank_eq_false_of_queryLines {search : Text} (h : queryLines search ≠ []) :
    search.blank = false := by
  by_contra hblank
  rw [Bool.not_eq_false] at hblank
  have hlines : ∀ l ∈ search.lines, l.blank = true := fun l hl =>
    List.all_eq_true.2 fun c hc =>
      List.all_eq_true.1 hblank c ((Text.exists_piece_of_mem_lines hl).2.subset hc)
  refine h ?_
  rw [queryLines]
  rw [List.dropWhile_eq_nil_iff.2 hlines]
  rfl

theorem dropWhile_blank {ls : List Text} (h : ∀ l, ls.head? = some l → l.blank = false) :
    ls.dropWhile Text.blank = ls := by
  cases ls with
  | nil => rfl
  | cons l ls => exact List.dropWhile_cons_of_neg (by simp [h l rfl])

theorem queryLines_of_padded {search : Text} {above core below : List Text}
    (hlines : search.lines = above ++ core ++ below) (habove : ∀ l ∈ above, l.blank = true)
    (hbelow : ∀ l ∈ below, l.blank = true) (hne : core ≠ [])
    (hfirst : ∀ l, core.head? = some l → l.blank = false)
    (hlast : ∀ l, core.getLast? = some l → l.blank = false) : queryLines search = core := by
  have hstart : search.lines.dropWhile Text.blank = core ++ below := by
    rw [hlines, List.append_assoc, List.dropWhile_append_of_pos habove]
    exact dropWhile_blank (by rwa [List.head?_append_of_ne_nil _ hne])
  have hend : (core ++ below).reverse.dropWhile Text.blank = core.reverse := by
    rw [List.reverse_append, List.dropWhile_append_of_pos fun l hl => hbelow l (List.mem_reverse.1 hl)]
    exact dropWhile_blank (by rwa [List.head?_reverse])
  rw [queryLines]
  rw [hstart, hend, List.reverse_reverse]

end Emend
