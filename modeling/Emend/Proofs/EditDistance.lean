import Emend.Similarity
import Mathlib.Data.List.Basic
import Mathlib.Order.Bounds.Basic
import Mathlib.Order.MinMax

namespace Emend

/-- One edit: a character is put in, taken out, or replaced. -/
inductive EditStep : Text → Text → Prop
  | insertion (u v : Text) (c : Char) : EditStep (u ++ v) (u ++ c :: v)
  | deletion (u v : Text) (c : Char) : EditStep (u ++ c :: v) (u ++ v)
  | substitution (u v : Text) (c d : Char) : EditStep (u ++ c :: v) (u ++ d :: v)

/-- The second text is the first one after so many edits, one after another. -/
inductive EditsIn : Nat → Text → Text → Prop
  | done (s : Text) : EditsIn 0 s s
  | step {n : Nat} {s s' t : Text} : EditStep s s' → EditsIn n s' t → EditsIn (n + 1) s t

theorem tail_editRow_cons (b : Char) (s t : Text) : (editRow (b :: t) s).tail = editRow t s := by
  induction s with
  | nil => rw [editRow, List.tail_cons]
  | cons a s ih => rw [editRow, editStep, List.tail_cons, ih, editRow]

theorem editDistance_nil_left (t : Text) : editDistance [] t = t.length := by
  cases t <;> rw [editDistance, editRow] <;> rfl

theorem editDistance_cons_nil (a : Char) (s : Text) :
    editDistance (a :: s) [] = editDistance s [] + 1 := by
  rw [editDistance, editRow]
  rfl

/-- Equal characters in front cost nothing. Of different ones, the first is replaced or taken out,
or the second is put in front of it. -/
theorem editDistance_cons_cons (a b : Char) (s t : Text) : editDistance (a :: s) (b :: t) =
    if a = b then editDistance s t
    else 1 + min (editDistance s t) (min (editDistance s (b :: t)) (editDistance (a :: s) t)) := by
  have hrest : editDistance (a :: s) t = (editStep a t (editRow t s)).headD 0 := by
    rw [editDistance, editRow]
  rw [hrest, editDistance, editRow, editStep, tail_editRow_cons]
  rfl

theorem editDistance_nil_right (s : Text) : editDistance s [] = s.length := by
  induction s with
  | nil => exact editDistance_nil_left []
  | cons a s ih => rw [editDistance_cons_nil, ih, List.length_cons]

theorem editDistance_comm (s t : Text) : editDistance s t = editDistance t s := by
  induction s generalizing t with
  | nil => rw [editDistance_nil_left, editDistance_nil_right]
  | cons a s ih =>
      induction t with
      | nil => rw [editDistance_nil_left, editDistance_nil_right]
      | cons b t ih' =>
          rw [editDistance_cons_cons, editDistance_cons_cons, ih t, ih (b :: t), ih',
            min_comm (editDistance (b :: t) s)]
          simp only [eq_comm]

theorem editDistance_self (s : Text) : editDistance s s = 0 := by
  induction s with
  | nil => exact editDistance_nil_left []
  | cons a s ih => rw [editDistance_cons_cons, if_pos rfl, ih]

theorem editDistance_cons_le_of {s : Text}
    (h : ∀ b t, editDistance s t ≤ editDistance s (b :: t) + 1) (a : Char) (t : Text) :
    editDistance (a :: s) t ≤ editDistance s t + 1 := by
  cases t with
  | nil => exact Nat.le_of_eq (editDistance_cons_nil a s)
  | cons b t =>
      rw [editDistance_cons_cons]
      split
      · exact h b t
      · omega

theorem editDistance_le_cons_right (s : Text) (b : Char) (t : Text) :
    editDistance s t ≤ editDistance s (b :: t) + 1 := by
  induction s generalizing b t with
  | nil =>
      rw [editDistance_nil_left, editDistance_nil_left, List.length_cons]
      omega
  | cons a s ih =>
      have hfront := editDistance_cons_le_of ih a t
      have hless := ih b t
      rw [editDistance_cons_cons a b s t]
      split
      · exact hfront
      · omega

theorem editDistance_cons_le (a : Char) (s t : Text) :
    editDistance (a :: s) t ≤ editDistance s t + 1 :=
  editDistance_cons_le_of (editDistance_le_cons_right s) a t

theorem editDistance_le_cons (a : Char) (s t : Text) :
    editDistance s t ≤ editDistance (a :: s) t + 1 := by
  rw [editDistance_comm s, editDistance_comm (a :: s)]
  exact editDistance_le_cons_right t a s

theorem editDistance_replace_le (a b : Char) (s t : Text) :
    editDistance (a :: s) t ≤ editDistance (b :: s) t + 1 := by
  induction t with
  | nil =>
      rw [editDistance_cons_nil, editDistance_cons_nil]
      omega
  | cons c t ih =>
      have hright := editDistance_le_cons_right s c t
      have hleft := editDistance_le_cons b s t
      rw [editDistance_cons_cons, editDistance_cons_cons]
      split <;> split <;> omega

theorem editDistance_cons_le_cons {s s' : Text}
    (h : ∀ t, editDistance s t ≤ editDistance s' t + 1) (a : Char) (t : Text) :
    editDistance (a :: s) t ≤ editDistance (a :: s') t + 1 := by
  induction t with
  | nil =>
      rw [editDistance_cons_nil, editDistance_cons_nil]
      exact Nat.add_le_add_right (h []) 1
  | cons b t ih =>
      have hshort := h t
      have hlong := h (b :: t)
      rw [editDistance_cons_cons, editDistance_cons_cons]
      split <;> omega

theorem editDistance_append_le_append {s s' : Text}
    (h : ∀ t, editDistance s t ≤ editDistance s' t + 1) (u t : Text) :
    editDistance (u ++ s) t ≤ editDistance (u ++ s') t + 1 := by
  induction u generalizing t with
  | nil => exact h t
  | cons a u ih => exact editDistance_cons_le_cons ih a t

theorem EditStep.editDistance_le {s s' : Text} (h : EditStep s s') (t : Text) :
    editDistance s t ≤ editDistance s' t + 1 := by
  cases h with
  | insertion u v c => exact editDistance_append_le_append (editDistance_le_cons c v) u t
  | deletion u v c => exact editDistance_append_le_append (editDistance_cons_le c v) u t
  | substitution u v c d => exact editDistance_append_le_append (editDistance_replace_le c d v) u t

theorem EditsIn.editDistance_le {n : Nat} {s t : Text} (h : EditsIn n s t) :
    editDistance s t ≤ n := by
  induction h with
  | done s => exact Nat.le_of_eq (editDistance_self s)
  | step hstep _ ih => exact (hstep.editDistance_le _).trans (Nat.add_le_add_right ih 1)

theorem EditStep.cons {s t : Text} (h : EditStep s t) (a : Char) : EditStep (a :: s) (a :: t) := by
  cases h with
  | insertion u v c => exact .insertion (a :: u) v c
  | deletion u v c => exact .deletion (a :: u) v c
  | substitution u v c d => exact .substitution (a :: u) v c d

theorem EditsIn.cons {n : Nat} {s t : Text} (h : EditsIn n s t) (a : Char) :
    EditsIn n (a :: s) (a :: t) := by
  induction h with
  | done s => exact .done (a :: s)
  | step hstep _ ih => exact .step (hstep.cons a) ih

theorem editsIn_length (t : Text) : EditsIn t.length [] t := by
  induction t with
  | nil => exact .done []
  | cons b t ih => exact .step (.insertion [] [] b) (ih.cons b)

theorem editsIn_editDistance (s t : Text) : EditsIn (editDistance s t) s t := by
  induction s generalizing t with
  | nil =>
      rw [editDistance_nil_left]
      exact editsIn_length t
  | cons a s ih =>
      induction t with
      | nil =>
          rw [editDistance_cons_nil]
          exact .step (.deletion [] s a) (ih [])
      | cons b t ih' =>
          have hreplace : EditsIn (editDistance s t + 1) (a :: s) (b :: t) :=
            .step (.substitution [] s a b) ((ih t).cons b)
          have htake : EditsIn (editDistance s (b :: t) + 1) (a :: s) (b :: t) :=
            .step (.deletion [] s a) (ih (b :: t))
          have hput : EditsIn (editDistance (a :: s) t + 1) (a :: s) (b :: t) :=
            .step (.insertion [] (a :: s) b) (ih'.cons b)
          rw [editDistance_cons_cons, Nat.add_comm 1]
          split
          · rename_i heq
            exact heq ▸ (ih t).cons a
          · rcases min_choice (editDistance s t)
              (min (editDistance s (b :: t)) (editDistance (a :: s) t)) with hmin | hmin
            · rwa [hmin]
            · rw [hmin]
              rcases min_choice (editDistance s (b :: t)) (editDistance (a :: s) t) with hmin | hmin
              · rwa [hmin]
              · rwa [hmin]

/-- The edit distance is the least number of edits that lead from one text to the other. -/
theorem isLeast_editDistance (s t : Text) : IsLeast {n | EditsIn n s t} (editDistance s t) :=
  ⟨editsIn_editDistance s t, fun _ h => EditsIn.editDistance_le h⟩

end Emend
