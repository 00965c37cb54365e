import Emend.Similarity
import Mathlib.Data.List.Basic

namespace Emend

/-- Each entry of a row is the length of a common subsequence of `s` and a suffix of the other
text, the longest suffix first. -/
def IsRow (s : Text) : Text → List Nat → Prop
  | [], row => row = [0]
  | b :: t, row => ∃ n rest, row = n :: rest ∧
      (∃ u : Text, u.Sublist s ∧ u.Sublist (b :: t) ∧ u.length = n) ∧ IsRow s t rest

theorem IsRow.head {s t : Text} {row : List Nat} (h : IsRow s t row) :
    ∃ u : Text, u.Sublist s ∧ u.Sublist t ∧ u.length = row.headD 0 := by
  cases t with
  | nil =>
      obtain rfl := h
      exact ⟨[], List.nil_sublist s, List.Sublist.refl [], rfl⟩
  | cons b t =>
      obtain ⟨n, rest, rfl, hu, -⟩ := h
      exact hu

theorem isRow_zeros (t : Text) : IsRow [] t (List.replicate (t.length + 1) 0) := by
  induction t with
  | nil => rfl
  | cons b t ih => exact ⟨0, _, rfl, ⟨[], List.Sublist.refl [], List.nil_sublist _, rfl⟩, ih⟩

theorem IsRow.step {s t : Text} {row : List Nat} (h : IsRow s t row) (a : Char) :
    IsRow (a :: s) t (commonStep a t row) := by
  induction t generalizing row with
  | nil => rfl
  | cons b t ih =>
      obtain ⟨n, rest, rfl, ⟨u, hus, hut, hn⟩, hrest⟩ := h
      refine ⟨_, _, rfl, ?_, ih hrest⟩
      obtain ⟨v, hvs, hvt, hv⟩ := hrest.head
      obtain ⟨x, hxs, hxt, hx⟩ := (ih hrest).head
      dsimp only [List.tail_cons, List.headD_cons]
      -- Equal characters prolong what the rests have in common; else one of the two is left out.
      by_cases hab : a = b
      · rw [if_pos hab, ← hv, hab]
        exact ⟨b :: v, hvs.cons_cons b, hvt.cons_cons b, rfl⟩
      · rw [if_neg hab]
        rcases Nat.le_total n ((commonStep a t rest).headD 0) with hle | hle
        · rw [Nat.max_eq_right hle]
          exact ⟨x, hxs, hxt.cons b, hx⟩
        · rw [Nat.max_eq_left hle]
          exact ⟨u, hus.cons a, hut, hn⟩

theorem isRow_commonRow (s t : Text) : IsRow s t (commonRow t s) := by
  induction s with
  | nil => exact isRow_zeros t
  | cons a s ih => exact ih.step a

theorem exists_sublist_common (s t : Text) :
    ∃ u : Text, u.Sublist s ∧ u.Sublist t ∧ u.length = common s t :=
  (isRow_commonRow s t).head

theorem length_add_pos {s t : Text} (h : s ≠ t) : 0 < s.length + t.length := by
  rcases s with _ | ⟨a, s⟩
  · have ht : t ≠ [] := fun ht => h ht.symm
    rw [List.length_nil, Nat.zero_add]
    exact List.length_pos_iff.2 ht
  · rw [List.length_cons]
    omega

theorem length_sub_length_le_indel (s t : Text) : s.length - t.length ≤ indel s t := by
  obtain ⟨u, -, hut, hu⟩ := exists_sublist_common s t
  have ht := hut.length_le
  rw [indel]
  omega

theorem eq_of_indel_eq_zero {s t : Text} (h : indel s t = 0) : s = t := by
  obtain ⟨u, hus, hut, hu⟩ := exists_sublist_common s t
  have hs := hus.length_le
  have ht := hut.length_le
  rw [indel] at h
  have hs' : u = s := hus.eq_of_length (by omega)
  have ht' : u = t := hut.eq_of_length (by omega)
  rw [← hs', ht']

end Emend
