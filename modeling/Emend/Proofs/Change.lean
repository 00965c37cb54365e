import Emend.Change
import Emend.Proofs.Text.Occurrence

namespace Emend.Change

open Text

variable {c : Change} {content : Text}

theorem createsFile_iff : c.createsFile = true ↔ c.search = [] := by
  simp [createsFile]

theorem apply_of_createsFile (h : c.createsFile = true) : c.apply content = .ok c.replacement := by
  rw [apply, if_pos h]

theorem apply_nil (h : c.search ≠ []) :
    c.apply [] = .error (.searchNotFound c.path) := by
  rw [apply, if_neg (createsFile_iff.not.2 h), replaceFirst?, cut?_nil h]
  rfl

theorem apply_eq_ok_iff (h : c.search ≠ []) {updated : Text} :
    c.apply content = .ok updated ↔ ∃ before rest, OccursAt c.search content before rest ∧
      IsFirst c.search content before ∧ updated = before ++ c.replacement ++ rest := by
  rw [← replaceFirst?_eq_some_iff, apply, if_neg (createsFile_iff.not.2 h)]
  cases replaceFirst? c.search c.replacement content with
  | none => simp
  | some t => simp

theorem exists_apply {leading trailing : Text} (hne : c.search ≠ [])
    (h : OccursAt c.search content leading trailing) :
    ∃ before rest, OccursAt c.search content before rest ∧ IsFirst c.search content before ∧
      c.apply content = .ok (before ++ c.replacement ++ rest) := by
  obtain ⟨⟨before, rest⟩, hcut⟩ := Option.ne_none_iff_exists'.1 (cut?_ne_none h)
  obtain ⟨hoccurs, hfirst⟩ := cut?_eq_some_iff.1 hcut
  exact ⟨before, rest, hoccurs, hfirst,
    (apply_eq_ok_iff hne).2 ⟨before, rest, hoccurs, hfirst, rfl⟩⟩

/-- The change lands on a given occurrence of its block exactly when that is the leftmost one, or
when moving the edit there from the leftmost one makes no difference. -/
theorem apply_eq_ok_splice_iff (hne : c.search ≠ []) {leading trailing : Text}
    (h : OccursAt c.search content leading trailing) :
    c.apply content = .ok (leading ++ c.replacement ++ trailing) ↔
      ∃ before gap, leading = before ++ gap ∧ IsFirst c.search content before ∧
        SlidesAlike gap c.search c.replacement := by
  constructor
  · intro happly
    obtain ⟨before, rest, hoccurs, hfirst, heq⟩ := (apply_eq_ok_iff hne).1 happly
    obtain ⟨gap, hgap, hslides⟩ := (replace_first_eq_iff hoccurs hfirst h).1 heq.symm
    exact ⟨before, gap, hgap, hfirst, hslides⟩
  · rintro ⟨before, gap, rfl, hfirst, x, hold, hnew⟩
    have hoccurs : OccursAt c.search content before (x ++ trailing) := h.slide hold
    refine (apply_eq_ok_iff hne).2 ⟨before, x ++ trailing, hoccurs, hfirst, ?_⟩
    exact ((replace_first_eq_iff hoccurs hfirst h).2 ⟨gap, rfl, x, hold, hnew⟩).symm

end Emend.Change
