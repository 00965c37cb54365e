import Emend.Matching.Match
import Emend.Proofs.Text.Lines
import Mathlib.Data.Nat.Basic
import Mathlib.Tactic.SplitIfs

namespace Emend

namespace Text

theorem length_lt_terminated {l : Text} {ls : List Text} (h : l ∈ ls) :
    l.length < (terminated ls).length := by
  induction ls with
  | nil => cases h
  | cons m ls ih =>
      rw [terminated_cons, List.length_append, List.length_cons]
      rcases List.mem_cons.1 h with rfl | h
      · omega
      · have := ih h
        omega

theorem length_terminated_le_of_sublist {ls ms : List Text} (h : ls.Sublist ms) :
    (terminated ls).length ≤ (terminated ms).length := by
  induction h with
  | slnil => exact le_rfl
  | cons m _ ih =>
      rw [terminated_cons, List.length_append, List.length_cons]
      omega
  | cons_cons m _ ih =>
      rw [terminated_cons, terminated_cons, List.length_append, List.length_append,
        List.length_cons, List.length_cons]
      omega

theorem length_terminated_pieces (s : Text) : (terminated s.pieces).length = s.length + 1 := by
  rw [terminated_eq (pieces_ne_nil s), unlines_pieces, List.length_append, List.length_singleton]

theorem length_pieces_le (s : Text) : s.pieces.length ≤ s.length + 1 := by
  rw [← length_terminated_pieces s]
  induction s.pieces with
  | nil => exact Nat.zero_le _
  | cons l ls ih =>
      rw [terminated_cons, List.length_append, List.length_cons, List.length_cons]
      omega

theorem length_preceded (ls : List Text) : (preceded ls).length = (terminated ls).length := by
  induction ls with
  | nil => rfl
  | cons l ls ih =>
      rw [preceded_cons, terminated_cons, List.length_append, List.length_append, List.length_cons,
        List.length_cons, ih]
      omega

theorem length_intercalate (c : Char) {ls : List Text} (h : ls ≠ []) :
    ([c].intercalate ls).length + 1 = (terminated ls).length := by
  induction ls with
  | nil => exact absurd rfl h
  | cons l ls ih =>
      cases ls with
      | nil => simp [List.intercalate]
      | cons m ls =>
          have hcons : [c].intercalate (l :: m :: ls) = l ++ c :: [c].intercalate (m :: ls) := by
            simp [List.intercalate]
          rw [hcons, List.length_append, List.length_cons, terminated_cons, List.length_append,
            List.length_cons, ih (by simp), Nat.add_assoc]

theorem length_trim_le (s : Text) : s.trim.length ≤ s.length := by
  have hstart : s.trimStart.length ≤ s.length := (List.dropWhile_sublist _).length_le
  have hend : s.trim.length ≤ s.trimStart.length := by
    rw [trim, trimEnd, dropEndWhile]
    rw [List.length_reverse]
    simpa using (List.dropWhile_sublist isBlank (l := s.trimStart.reverse)).length_le
  exact Nat.le_trans hend hstart

theorem length_linesOfPieces_le (ps : List Text) :
    (terminated (linesOfPieces ps)).length ≤ (terminated ps).length := by
  induction ps with
  | nil => exact le_rfl
  | cons l ps ih =>
      cases ps with
      | nil =>
          rw [linesOfPieces]
          split_ifs <;> simp
      | cons m ps =>
          have hdrop : (dropReturn l).length ≤ l.length := by
            rw [dropReturn]
            split_ifs
            · simp
            · exact le_rfl
          rw [linesOfPieces, terminated_cons, terminated_cons, List.length_append,
            List.length_append, List.length_cons, List.length_cons]
          · omega
          · simp

end Text

open Text

theorem length_weights_le (ls : List Text) :
    (terminated (ls.filterMap weight?)).length ≤ (terminated ls).length := by
  induction ls with
  | nil => exact le_rfl
  | cons l ls ih =>
      have hl := length_trim_le l
      rw [terminated_cons, List.length_append, List.length_cons]
      cases hw : weight? l with
      | none =>
          rw [List.filterMap_cons_none hw]
          omega
      | some t =>
          have ht : t = l.trim := by
            rw [weight?] at hw
            split_ifs at hw
            exact (Option.some.inj hw).symm
          rw [List.filterMap_cons_some hw, terminated_cons, List.length_append, List.length_cons, ht]
          omega

theorem length_collapse_le (ls : List Text) :
    (collapse ls).length ≤ (terminated ls).length - 1 := by
  have hw := length_weights_le ls
  rcases hls : ls.filterMap weight? with _ | ⟨t, ts⟩
  · rw [collapse, hls]
    exact Nat.zero_le _
  · have hlen := length_intercalate ' ' (List.cons_ne_nil t ts)
    rw [collapse]
    rw [hls] at hw ⊢
    omega

theorem length_headD_le (ls : List Text) : (ls.headD []).length ≤ (terminated ls).length - 1 := by
  cases ls with
  | nil => exact Nat.zero_le _
  | cons l ls => exact Nat.le_sub_one_of_lt (length_lt_terminated (List.mem_cons_self ..))

theorem length_getLastD_le (ls : List Text) :
    (ls.getLastD []).length ≤ (terminated ls).length - 1 := by
  rcases List.eq_nil_or_concat ls with rfl | ⟨init, last, rfl⟩
  · exact Nat.zero_le _
  · have hmem : last ∈ init ++ [last] := List.mem_append_right init (List.mem_singleton_self last)
    rw [List.concat_eq_append, List.getLastD_concat]
    exact Nat.le_sub_one_of_lt (length_lt_terminated hmem)

theorem sublist_slice {β : Type} (w : Window) (ls : List β) : (w.slice ls).Sublist ls :=
  (List.take_sublist _ _).trans (List.drop_sublist _ _)

theorem length_terminated_slice_le (w : Window) (ls : List Text) :
    (terminated (w.slice ls)).length ≤ (terminated ls).length :=
  length_terminated_le_of_sublist (sublist_slice w ls)

theorem length_queryLines_le (s : Text) :
    (terminated (queryLines s)).length ≤ s.length + 1 := by
  have hsub : (queryLines s).Sublist s.lines := by
    have h := (List.dropWhile_sublist Text.blank
      (l := (s.lines.dropWhile Text.blank).reverse)).reverse
    rw [List.reverse_reverse] at h
    exact h.trans (List.dropWhile_sublist _)
  calc (terminated (queryLines s)).length ≤ (terminated s.lines).length :=
        length_terminated_le_of_sublist hsub
    _ ≤ (terminated s.pieces).length := length_linesOfPieces_le s.pieces
    _ = s.length + 1 := length_terminated_pieces s

end Emend
