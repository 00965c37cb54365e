import Emend.Resolution
import Mathlib.Data.List.Basic

namespace Emend.FileSet

theorem path_of_get? {files : FileSet} {path : Text} {file : Snapshot}
    (h : files.get? path = some file) : file.path = path := by
  simpa using List.find?_some h

/-- Of files with one path the closest one is the first, since they are equally close. -/
theorem get?_closest? {files : FileSet} {stated : Text} {file : Snapshot}
    (h : files.closest? stated = some file) : files.get? file.path = some file := by
  induction files with
  | nil => cases h
  | cons f fs ih =>
      have hself : get? (f :: fs) f.path = some f := by simp [get?]
      rw [closest?] at h
      cases hg : closest? stated fs with
      | none =>
          rw [hg] at h
          cases h
          exact hself
      | some g =>
          simp only [hg] at h
          -- The first file is passed over only for one that is closer, so with another path.
          by_cases hcloser : editDistance stated g.path < editDistance stated f.path
          · rw [if_pos hcloser] at h
            obtain rfl : g = file := Option.some.inj h
            have hne : f.path ≠ g.path := fun he => by
              rw [he] at hcloser
              exact Nat.lt_irrefl _ hcloser
            rw [get?, List.find?_cons_of_neg (by simpa using hne)]
            exact ih hg
          · rw [if_neg hcloser] at h
            cases h
            exact hself

variable {α : Type} [Score α] {files : FileSet} {stated : Text} {threshold : α}

theorem get?_of_resolve_existing {file : Snapshot} {likeness : α}
    (h : files.resolve stated threshold = .existing file likeness) :
    files.get? file.path = some file := by
  rw [resolve] at h
  split at h
  · rename_i hget
    cases h
    rwa [path_of_get? hget]
  · split at h
    · cases h
    · rename_i hclosest
      dsimp only at h
      split at h
      · cases h
      · cases h
        exact get?_closest? hclosest

theorem get?_of_resolve_unknown {path : Text} {nearest : Option (Snapshot × α)}
    (h : files.resolve stated threshold = .unknown path nearest) : files.get? stated = none := by
  rw [resolve] at h
  split at h
  · cases h
  · assumption

theorem resolve_of_get? {file : Snapshot} (h : files.get? stated = some file) :
    files.resolve stated threshold = .existing file (Score.ofNat 1) := by
  simp only [resolve, h]

end Emend.FileSet
