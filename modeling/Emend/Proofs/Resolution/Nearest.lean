import Emend.Proofs.EditDistance
import Emend.Proofs.FileSet
import Emend.Proofs.Resolution
import Emend.Proofs.Score.Double

namespace Emend.FileSet

/-- Of the files whose paths take the fewest edits from the stated path, the first. -/
def IsNearest (files : FileSet) (stated : Text) (file : Snapshot) : Prop :=
  ∃ before after n, files = before ++ file :: after ∧ IsLeast {k | EditsIn k stated file.path} n ∧
    (∀ f ∈ before, ∀ k, EditsIn k stated f.path → n < k) ∧
    ∀ f ∈ after, ∀ k, EditsIn k stated f.path → n ≤ k

variable {files : FileSet} {stated : Text} {file : Snapshot}

theorem closest?_ne_none (h : files ≠ []) : files.closest? stated ≠ none := by
  cases files with
  | nil => exact absurd rfl h
  | cons f fs =>
      rw [closest?]
      cases closest? stated fs with
      | none => exact Option.some_ne_none f
      | some g =>
          dsimp only
          split
          · exact Option.some_ne_none g
          · exact Option.some_ne_none f

theorem exists_append_of_closest? (h : files.closest? stated = some file) :
    ∃ before after, files = before ++ file :: after ∧
      (∀ f ∈ before, editDistance stated file.path < editDistance stated f.path) ∧
      ∀ f ∈ after, editDistance stated file.path ≤ editDistance stated f.path := by
  induction files generalizing file with
  | nil => cases h
  | cons f fs ih =>
      rw [closest?] at h
      cases hg : closest? stated fs with
      | none =>
          rw [hg] at h
          obtain rfl := Option.some.inj h
          cases fs with
          | nil => exact ⟨[], [], rfl, List.forall_mem_nil _, List.forall_mem_nil _⟩
          | cons g fs => exact absurd hg (closest?_ne_none (List.cons_ne_nil g fs))
      | some g =>
          obtain ⟨before, after, hfs, hbefore, hafter⟩ := ih hg
          simp only [hg] at h
          by_cases hcloser : editDistance stated g.path < editDistance stated f.path
          · rw [if_pos hcloser] at h
            obtain rfl := Option.some.inj h
            refine ⟨f :: before, after, by rw [hfs, List.cons_append], ?_, hafter⟩
            exact List.forall_mem_cons.2 ⟨hcloser, hbefore⟩
          · rw [if_neg hcloser] at h
            obtain rfl := Option.some.inj h
            refine ⟨[], fs, rfl, List.forall_mem_nil _, fun e he => ?_⟩
            rw [hfs, List.mem_append, List.mem_cons] at he
            have hle := Nat.not_lt.1 hcloser
            rcases he with he | rfl | he
            · exact hle.trans (hbefore e he).le
            · exact hle
            · exact hle.trans (hafter e he)

theorem closest?_of_append {before after : FileSet}
    (hbefore : ∀ f ∈ before, editDistance stated file.path < editDistance stated f.path)
    (hafter : ∀ f ∈ after, editDistance stated file.path ≤ editDistance stated f.path) :
    closest? stated (before ++ file :: after) = some file := by
  induction before with
  | nil =>
      rw [List.nil_append, closest?]
      cases hg : closest? stated after with
      | none => rfl
      | some g =>
          obtain ⟨as, bs, rfl, -, -⟩ := exists_append_of_closest? hg
          exact if_neg (Nat.not_lt.2 (hafter g (by simp)))
  | cons f fs ih =>
      rw [List.forall_mem_cons] at hbefore
      rw [List.cons_append, closest?, ih hbefore.2]
      exact if_pos hbefore.1

theorem isNearest_iff : files.IsNearest stated file ↔ files.closest? stated = some file := by
  constructor
  · rintro ⟨before, after, n, rfl, hleast, hbefore, hafter⟩
    obtain rfl := hleast.unique (isLeast_editDistance stated file.path)
    exact closest?_of_append (fun f hf => hbefore f hf _ (editsIn_editDistance stated f.path))
      fun f hf => hafter f hf _ (editsIn_editDistance stated f.path)
  · intro h
    obtain ⟨before, after, hfiles, hbefore, hafter⟩ := exists_append_of_closest? h
    exact ⟨before, after, _, hfiles, isLeast_editDistance stated file.path,
      fun f hf k hk => (hbefore f hf).trans_le hk.editDistance_le,
      fun f hf k hk => (hafter f hf).trans hk.editDistance_le⟩

theorem exists_isNearest (h : files ≠ []) (stated : Text) :
    ∃ file, files.IsNearest stated file := by
  have hfound : files.closest? stated ≠ none := closest?_ne_none h
  obtain ⟨file, hfile⟩ := Option.ne_none_iff_exists'.1 hfound
  exact ⟨file, isNearest_iff.2 hfile⟩

section

variable {α : Type} [Score α] {threshold : α}

theorem resolve_of_closest? (hget : files.get? stated = none)
    (hclosest : files.closest? stated = some file) (threshold : α) :
    files.resolve stated threshold =
      if similarity stated file.path < threshold then
        .unknown stated (some (file, similarity stated file.path))
      else .existing file (similarity stated file.path) := by
  rw [resolve, hget]
  dsimp only
  rw [hclosest]

theorem resolve_of_closest?_eq_none (hget : files.get? stated = none)
    (hclosest : files.closest? stated = none) (threshold : α) :
    files.resolve stated threshold = .unknown stated none := by
  rw [resolve, hget]
  dsimp only
  rw [hclosest]

theorem isNew_resolve_iff_closest? :
    (files.resolve stated threshold).isNew = true ↔ files.get? stated = none ∧
      ∀ file, files.closest? stated = some file → similarity stated file.path < threshold := by
  cases hget : files.get? stated with
  | some file =>
      rw [resolve_of_get? hget]
      exact iff_of_false nofun fun h => nomatch h.1
  | none =>
      cases hclosest : files.closest? stated with
      | none =>
          rw [resolve_of_closest?_eq_none hget hclosest]
          exact iff_of_true rfl ⟨rfl, nofun⟩
      | some file =>
          rw [resolve_of_closest? hget hclosest]
          split
          · rename_i hlow
            refine iff_of_true rfl ⟨rfl, ?_⟩
            rintro _ ⟨⟩
            exact hlow
          · rename_i hhigh
            exact iff_of_false nofun fun h => hhigh (h.2 file rfl)

/-- A path is new exactly when no file has it and the nearest file, if there is any, is not similar
enough. So it is new when no file is similar enough; and if it is new although some file is, then
the nearest file, which takes no more edits, is another one that is not. -/
theorem isNew_resolve_iff (files : FileSet) (stated : Text) (threshold : α) :
    ((files.resolve stated threshold).isNew = true ↔ stated ∉ files.paths ∧
      ∀ file, files.IsNearest stated file → similarity stated file.path < threshold) ∧
    (stated ∉ files.paths → (∀ path ∈ files.paths, similarity stated path < threshold) →
      (files.resolve stated threshold).isNew = true) ∧
    ((files.resolve stated threshold).isNew = true →
      ∀ f ∈ files, ¬similarity stated f.path < threshold →
        ∃ file, files.IsNearest stated file ∧ file.path ≠ f.path ∧
          similarity stated file.path < threshold) := by
  have hiff : (files.resolve stated threshold).isNew = true ↔ stated ∉ files.paths ∧
      ∀ file, files.IsNearest stated file → similarity stated file.path < threshold := by
    simp only [isNearest_iff, ← get?_eq_none_iff]
    exact isNew_resolve_iff_closest?
  refine ⟨hiff, fun hstated hlow => hiff.2 ⟨hstated, fun file hfile => ?_⟩, ?_⟩
  · obtain ⟨before, after, -, rfl, -⟩ := hfile
    exact hlow file.path (List.mem_map_of_mem (by simp))
  · intro hnew f hf hhigh
    obtain ⟨file, hnearest⟩ := exists_isNearest (List.ne_nil_of_mem hf) stated
    have hlow := (hiff.1 hnew).2 file hnearest
    exact ⟨file, hnearest, fun heq => hhigh (heq ▸ hlow), hlow⟩

/-- Three edits turn `app.ts` into the first path and four into the second, which is more similar
to it. -/
def namesakes : FileSet := [⟨"lib.ts".toList, []⟩, ⟨"src/app.ts".toList, []⟩]

theorem closest?_namesakes :
    namesakes.closest? "app.ts".toList = some ⟨"lib.ts".toList, []⟩ := by
  cbv

/-- A path can be new although a known path is similar enough. -/
theorem not_forall_isNew_resolve_iff :
    ¬∀ (files : FileSet) (stated : Text) (threshold : Float),
      (files.resolve stated threshold).isNew = true ↔
        stated ∉ files.paths ∧ ∀ path ∈ files.paths, similarity stated path < threshold := by
  intro h
  have hnew : (namesakes.resolve "app.ts".toList (Score.quotient 6 10 : Float)).isNew = true := by
    rw [resolve_of_closest? (by decide) closest?_namesakes, if_pos (by decide +kernel)]
    rfl
  have hsimilar := ((h _ _ _).1 hnew).2 "src/app.ts".toList (by decide)
  exact absurd hsimilar (by decide +kernel)

variable [LawfulScore α]

end

end Emend.FileSet
