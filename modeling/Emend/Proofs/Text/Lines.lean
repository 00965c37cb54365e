import Emend.Text.Basic
import Mathlib.Data.List.Basic

namespace Emend.Text

def preceded (ls : List Text) : Text := ls.flatMap ('\n' :: ·)

@[simp] theorem unlines_nil : unlines [] = [] := rfl

@[simp] theorem unlines_singleton (l : Text) : unlines [l] = l := by simp [unlines]

@[simp] theorem terminated_nil : terminated [] = [] := rfl

@[simp] theorem terminated_cons (l : Text) (ls : List Text) :
    terminated (l :: ls) = l ++ '\n' :: terminated ls := by
  simp [terminated]

theorem terminated_append (ls ms : List Text) :
    terminated (ls ++ ms) = terminated ls ++ terminated ms := List.flatMap_append

@[simp] theorem preceded_nil : preceded [] = [] := rfl

@[simp] theorem preceded_cons (l : Text) (ls : List Text) :
    preceded (l :: ls) = '\n' :: l ++ preceded ls := by
  simp [preceded]

theorem unlines_cons (l : Text) (ls : List Text) : unlines (l :: ls) = l ++ preceded ls := by
  induction ls generalizing l with
  | nil => simp
  | cons m ls ih =>
      have h : unlines (l :: m :: ls) = l ++ '\n' :: unlines (m :: ls) := by
        simp [unlines, List.intercalate]
      rw [h, ih, preceded_cons]
      simp

theorem unlines_append_cons (as : List Text) (b : Text) (cs : List Text) :
    unlines (as ++ b :: cs) = terminated as ++ b ++ preceded cs := by
  induction as with
  | nil => simp [unlines_cons]
  | cons a as ih =>
      have h : preceded (as ++ b :: cs) = '\n' :: unlines (as ++ b :: cs) := by
        cases as <;> simp [unlines_cons]
      rw [List.cons_append, unlines_cons, h, ih]
      simp

theorem unlines_append_append (as : List Text) {bs : List Text} (hbs : bs ≠ []) (cs : List Text) :
    unlines (as ++ bs ++ cs) = terminated as ++ unlines bs ++ preceded cs := by
  cases bs with
  | nil => exact absurd rfl hbs
  | cons b bs =>
      rw [List.append_assoc, List.cons_append, unlines_append_cons, unlines_cons]
      simp [preceded]

theorem terminated_eq {ls : List Text} (hls : ls ≠ []) : terminated ls = unlines ls ++ ['\n'] := by
  induction ls with
  | nil => exact absurd rfl hls
  | cons l ls ih =>
      cases ls with
      | nil => simp
      | cons m ls =>
          rw [terminated_cons, ih (by simp), unlines_cons l, preceded_cons, unlines_cons]
          simp

theorem pieces_append_cons {l : Text} (hl : '\n' ∉ l) (s : Text) :
    pieces (l ++ '\n' :: s) = l :: pieces s := by
  induction l with
  | nil => simp [pieces]
  | cons c l ih =>
      simp only [List.mem_cons, not_or] at hl
      simp [pieces, ih hl.2, Ne.symm hl.1]

theorem pieces_of_no_feed {l : Text} (hl : '\n' ∉ l) : pieces l = [l] := by
  induction l with
  | nil => rfl
  | cons c l ih =>
      simp only [List.mem_cons, not_or] at hl
      simp [pieces, ih hl.2, Ne.symm hl.1]

theorem no_feed_of_mem_pieces {s l : Text} (h : l ∈ s.pieces) : '\n' ∉ l := by
  induction s generalizing l with
  | nil => simp_all [pieces]
  | cons c s ih =>
      by_cases hc : c = '\n'
      · simp only [pieces, hc, if_true, List.mem_cons] at h
        rcases h with rfl | h
        · simp
        · exact ih h
      · cases hs : pieces s with
        | nil => exact absurd hs (pieces_ne_nil s)
        | cons m ms =>
            simp only [pieces, hc, if_false, hs, List.mem_cons] at h
            rcases h with rfl | h
            · have hm := ih (l := m) (by simp [hs])
              simp [hm, Ne.symm hc]
            · exact ih (by simp [hs, h])

theorem pieces_terminated_append {ls : List Text} (hls : ∀ l ∈ ls, '\n' ∉ l) (s : Text) :
    pieces (terminated ls ++ s) = ls ++ pieces s := by
  induction ls with
  | nil => simp
  | cons l ls ih =>
      simp only [List.mem_cons, forall_eq_or_imp] at hls
      rw [terminated_cons, List.append_assoc, List.cons_append, pieces_append_cons hls.1, ih hls.2,
        List.cons_append]

theorem pieces_unlines {ls : List Text} (hne : ls ≠ []) (hls : ∀ l ∈ ls, '\n' ∉ l) :
    pieces (unlines ls) = ls := by
  rcases List.eq_nil_or_concat ls with rfl | ⟨init, last, rfl⟩
  · exact absurd rfl hne
  · have hlast : '\n' ∉ last := hls last (by simp)
    have hinit : ∀ l ∈ init, '\n' ∉ l := fun l hl => hls l (by simp [hl])
    rw [List.concat_eq_append, unlines_append_cons, preceded_nil, List.append_nil,
      pieces_terminated_append hinit, pieces_of_no_feed hlast]

theorem pieces_append_feed (s t : Text) : pieces (s ++ '\n' :: t) = pieces s ++ pieces t := by
  have h := pieces_terminated_append (fun l hl => no_feed_of_mem_pieces (s := s) hl) t
  rwa [terminated_eq (pieces_ne_nil s), unlines_pieces, List.append_assoc] at h

theorem mem_pieces_of_feed {s t l rest : Text} (hl : '\n' ∉ l)
    (h : s ++ '\n' :: t = l ++ '\n' :: rest) : l ∈ pieces s := by
  have hpieces : pieces s ++ pieces t = l :: pieces rest := by
    rw [← pieces_append_feed, h, pieces_append_cons hl]
  cases hs : pieces s with
  | nil => exact absurd hs (pieces_ne_nil s)
  | cons m ms =>
      rw [hs] at hpieces
      rw [(List.cons.inj hpieces).1]
      exact List.mem_cons_self ..

theorem exists_suffix_of_mem_pieces {t l : Text} (h : l ∈ pieces t) (s : Text) :
    ∃ m ∈ pieces (s ++ t), l <:+ m := by
  induction s with
  | nil => exact ⟨l, h, List.suffix_rfl⟩
  | cons c s ih =>
      obtain ⟨m, hm, hl⟩ := ih
      by_cases hc : c = '\n'
      · refine ⟨m, ?_, hl⟩
        rw [List.cons_append, pieces, if_pos hc]
        exact List.mem_cons_of_mem _ hm
      · rw [List.cons_append, pieces, if_neg hc]
        cases hs : pieces (s ++ t) with
        | nil => exact absurd hs (pieces_ne_nil _)
        | cons first rest =>
            rw [hs] at hm
            rcases List.mem_cons.1 hm with rfl | hm
            · exact ⟨c :: m, List.mem_cons_self .., hl.trans (List.suffix_cons c m)⟩
            · exact ⟨m, List.mem_cons_of_mem _ hm, hl⟩

/-- A line that can be written and read back where line feeds end lines. -/
structure IsLine (l : Text) : Prop where
  no_feed : '\n' ∉ l
  no_return : l.getLast? ≠ some '\r'

instance (l : Text) : Decidable (IsLine l) :=
  decidable_of_iff ('\n' ∉ l ∧ l.getLast? ≠ some '\r') ⟨fun h => ⟨h.1, h.2⟩, fun h => ⟨h.1, h.2⟩⟩

theorem dropReturn_of_isLine {l : Text} (h : IsLine l) : dropReturn l = l := by
  simp [dropReturn, h.no_return]

theorem linesOfPieces_append {ls : List Text} (hls : ∀ l ∈ ls, IsLine l) {ms : List Text}
    (hms : ms ≠ []) : linesOfPieces (ls ++ ms) = ls ++ linesOfPieces ms := by
  induction ls with
  | nil => rfl
  | cons l ls ih =>
      simp only [List.mem_cons, forall_eq_or_imp] at hls
      cases htail : ls ++ ms with
      | nil => exact absurd (List.append_eq_nil_iff.1 htail).2 hms
      | cons m rest =>
          rw [List.cons_append, htail, linesOfPieces, dropReturn_of_isLine hls.1, ← htail, ih hls.2]
          · simp
          · simp

theorem lines_terminated {ls : List Text} (hls : ∀ l ∈ ls, IsLine l) :
    lines (terminated ls) = ls := by
  have h := pieces_terminated_append (fun l hl => (hls l hl).no_feed) []
  rw [List.append_nil] at h
  rw [lines, h, linesOfPieces_append hls (by simp [pieces])]
  simp [pieces, linesOfPieces]

theorem lines_unlines {ls : List Text} (hls : ∀ l ∈ ls, IsLine l) (hlast : ls.getLast? ≠ some []) :
    lines (unlines ls) = ls := by
  rcases List.eq_nil_or_concat ls with rfl | ⟨init, last, rfl⟩
  · simp [lines, pieces, linesOfPieces]
  · have hne : last ≠ [] := by simpa using hlast
    rw [lines, pieces_unlines (by simp) (fun l hl => (hls l hl).no_feed), List.concat_eq_append,
      linesOfPieces_append (fun l hl => hls l (by simp [hl])) (by simp)]
    simp [linesOfPieces, hne]

end Emend.Text
