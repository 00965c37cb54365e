import Emend.Change
import Emend.Proofs.Change
import Mathlib.Data.List.Nodup

namespace Emend.FileSet

variable {files : FileSet} {path other content : Text} {file : Snapshot}

theorem get?_cons (f : Snapshot) (fs : FileSet) :
    get? (f :: fs) path = if f.path = path then some f else get? fs path := by
  by_cases h : f.path = path <;> simp [get?, h]

theorem get?_of_mem (hnodup : files.paths.Nodup) (h : file ∈ files) :
    files.get? file.path = some file := by
  induction files with
  | nil => cases h
  | cons f fs ih =>
      rw [paths, List.map_cons, List.nodup_cons] at hnodup
      rw [get?_cons]
      rcases List.mem_cons.1 h with rfl | h
      · exact if_pos rfl
      · rw [if_neg, ih hnodup.2 h]
        rintro heq
        exact hnodup.1 (heq ▸ List.mem_map_of_mem h)

@[simp] theorem get?_insert_self (files : FileSet) (path content : Text) :
    (files.insert path content).get? path = some ⟨path, content⟩ := by
  induction files with
  | nil => simp [insert, get?]
  | cons f fs ih => by_cases h : f.path = path <;> simp [insert, get?_cons, h, ih]

theorem get?_insert_of_ne (h : other ≠ path) :
    (files.insert path content).get? other = files.get? other := by
  induction files with
  | nil => simp [insert, get?, Ne.symm h]
  | cons f fs ih =>
      by_cases hf : f.path = path
      · subst hf
        simp [insert, get?_cons, Ne.symm h]
      · simp [insert, get?_cons, hf, ih]

theorem insert_of_get? (h : files.get? path = some file) :
    files.insert path file.content = files := by
  induction files with
  | nil => cases h
  | cons f fs ih =>
      by_cases hf : f.path = path
      · rw [get?_cons, if_pos hf] at h
        obtain rfl := Option.some.inj h
        rw [insert, if_pos hf, ← hf]
      · rw [get?_cons, if_neg hf] at h
        rw [insert, if_neg hf, ih h]

theorem mem_paths_insert :
    other ∈ (files.insert path content).paths ↔ other = path ∨ other ∈ files.paths := by
  simp only [paths]
  induction files with
  | nil => simp [insert]
  | cons f fs ih =>
      by_cases hf : f.path = path
      · simp [insert, hf]
      · simp only [insert, if_neg hf, List.map_cons, List.mem_cons, ih]
        exact or_left_comm

theorem nodup_paths_insert (hnodup : files.paths.Nodup) (path content : Text) :
    (files.insert path content).paths.Nodup := by
  induction files with
  | nil => exact List.nodup_singleton path
  | cons f fs ih =>
      rw [paths, List.map_cons, List.nodup_cons] at hnodup
      by_cases hf : f.path = path
      · rw [insert, if_pos hf]
        exact List.nodup_cons.2 (hf ▸ hnodup)
      · rw [insert, if_neg hf]
        refine List.nodup_cons.2 ⟨?_, ih hnodup.2⟩
        intro hmem
        exact (mem_paths_insert.1 hmem).elim hf hnodup.1

theorem ofList_eq (files : FileSet) :
    ofList (files.map fun f => (f.path, f.content)) =
      files.foldl (fun fs f => insert fs f.path f.content) [] := by
  rw [ofList, List.foldl_map]

theorem get?_eq_none_iff : files.get? path = none ↔ path ∉ files.paths := by
  simp [get?, paths]

theorem mem_iff_get? (hnodup : files.paths.Nodup) :
    file ∈ files ↔ files.get? file.path = some file :=
  ⟨get?_of_mem hnodup, List.mem_of_find?_eq_some⟩

theorem contentOf_of_get? (h : files.get? path = some file) :
    files.contentOf path = file.content := by
  rw [contentOf, h]
  rfl

theorem contentOf_of_get?_eq_none (h : files.get? path = none) : files.contentOf path = [] := by
  rw [contentOf, h]
  rfl

variable {c : Change} {cs : List Change}

theorem apply_of_get?_eq_none (hsearch : c.search ≠ []) (h : files.get? c.path = none) :
    files.apply c = (files, .error (.searchNotFound c.path)) := by
  rw [apply, contentOf_of_get?_eq_none h, Change.apply_nil hsearch]

theorem apply_eq (files : FileSet) (c : Change) :
    (∃ content, files.apply c = (files.insert c.path content, .ok content)) ∨
      ∃ e, files.apply c = (files, .error e) := by
  rw [apply]
  cases c.apply (files.contentOf c.path) with
  | error e => exact .inr ⟨e, rfl⟩
  | ok content => exact .inl ⟨content, rfl⟩

theorem mem_paths_apply (h : path ∈ (files.apply c).1.paths) :
    path = c.path ∨ path ∈ files.paths := by
  rcases apply_eq files c with ⟨content, happly⟩ | ⟨e, happly⟩ <;> rw [happly] at h
  · exact mem_paths_insert.1 h
  · exact .inr h

theorem paths_subset_apply (files : FileSet) (c : Change) :
    files.paths ⊆ (files.apply c).1.paths := by
  intro path hpath
  rcases apply_eq files c with ⟨content, happly⟩ | ⟨e, happly⟩ <;> rw [happly]
  · exact mem_paths_insert.2 (.inr hpath)
  · exact hpath

theorem nodup_paths_apply (hnodup : files.paths.Nodup) (c : Change) :
    (files.apply c).1.paths.Nodup := by
  rcases apply_eq files c with ⟨content, happly⟩ | ⟨e, happly⟩ <;> rw [happly]
  · exact nodup_paths_insert hnodup ..
  · exact hnodup

theorem get?_apply (h : (files.apply c).2.isOk = true → c.path ≠ path) :
    (files.apply c).1.get? path = files.get? path := by
  rcases apply_eq files c with ⟨content, happly⟩ | ⟨e, happly⟩ <;> rw [happly] at h ⊢
  · exact get?_insert_of_ne (Ne.symm (h rfl))

theorem applyAll_cons (files : FileSet) (c : Change) (cs : List Change) :
    files.applyAll (c :: cs) = (((files.apply c).1.applyAll cs).1,
      (files.apply c).2 :: ((files.apply c).1.applyAll cs).2) := rfl

theorem length_applyAll (files : FileSet) (cs : List Change) :
    (files.applyAll cs).2.length = cs.length := by
  induction cs generalizing files with
  | nil => rfl
  | cons c cs ih => rw [applyAll_cons, List.length_cons, ih, List.length_cons]

theorem mem_paths_applyAll (h : path ∈ (files.applyAll cs).1.paths) :
    path ∈ files.paths ∨ path ∈ cs.map Change.path := by
  induction cs generalizing files with
  | nil => exact .inl h
  | cons c cs ih =>
      rw [List.map_cons, List.mem_cons]
      rcases ih h with h | h
      · rcases mem_paths_apply h with rfl | h <;> simp [*]
      · exact .inr (.inr h)

theorem paths_subset_applyAll (files : FileSet) (cs : List Change) :
    files.paths ⊆ (files.applyAll cs).1.paths := by
  induction cs generalizing files with
  | nil => exact List.Subset.refl _
  | cons c cs ih => exact List.Subset.trans (paths_subset_apply files c) (ih _)

theorem nodup_paths_applyAll (hnodup : files.paths.Nodup) (cs : List Change) :
    (files.applyAll cs).1.paths.Nodup := by
  induction cs generalizing files with
  | nil => exact hnodup
  | cons c cs ih => exact ih (nodup_paths_apply hnodup c)

/-- A file that no successful change names stays as it was. -/
theorem get?_applyAll_of_untouched
    (h : ∀ c, (c, true) ∈ cs.zip ((files.applyAll cs).2.map Except.isOk) → c.path ≠ path) :
    (files.applyAll cs).1.get? path = files.get? path := by
  induction cs generalizing files with
  | nil => rfl
  | cons c cs ih =>
      simp only [applyAll_cons, List.map_cons, List.zip_cons_cons, List.mem_cons, Prod.mk.injEq]
        at h
      rw [applyAll_cons, ih fun d hd => h d (.inr hd)]
      exact get?_apply fun hok => h c (.inl ⟨rfl, hok.symm⟩)

theorem apply_of_search_eq_nil (h : c.search = []) :
    files.apply c = (files.insert c.path c.replacement, .ok c.replacement) := by
  rw [apply, Change.apply_of_createsFile (Change.createsFile_iff.2 h)]

theorem applyAll_of_get? {fs : List Snapshot} (h : ∀ f ∈ fs, files.get? f.path = some f) :
    files.applyAll (fs.map fun f => ⟨f.path, [], f.content⟩) =
      (files, fs.map fun f => .ok f.content) := by
  induction fs with
  | nil => rfl
  | cons f fs ih =>
      rw [List.forall_mem_cons] at h
      rw [List.map_cons, applyAll, apply_of_search_eq_nil rfl, insert_of_get? h.1]
      dsimp only
      rw [ih h.2]
      rfl

theorem applyAll_snd (hsearch : ∀ c ∈ cs, c.search = []) :
    (files.applyAll cs).2 = cs.map fun c => .ok c.replacement := by
  induction cs generalizing files with
  | nil => rfl
  | cons c cs ih =>
      rw [List.forall_mem_cons] at hsearch
      rw [applyAll_cons, apply_of_search_eq_nil hsearch.1, List.map_cons, ih hsearch.2]

/-- Changes for different paths do not overwrite each other. -/
theorem get?_applyAll (hsearch : ∀ c ∈ cs, c.search = []) (hnodup : (cs.map Change.path).Nodup)
    (hc : c ∈ cs) :
    (files.applyAll cs).1.get? c.path = some ⟨c.path, c.replacement⟩ := by
  induction cs generalizing files with
  | nil => cases hc
  | cons d cs ih =>
      rw [List.forall_mem_cons] at hsearch
      rw [List.map_cons, List.nodup_cons] at hnodup
      rw [applyAll_cons, apply_of_search_eq_nil hsearch.1]
      rcases List.mem_cons.1 hc with rfl | hc
      · rw [get?_applyAll_of_untouched, get?_insert_self]
        rintro d hd heq
        exact hnodup.1 (heq ▸ List.mem_map_of_mem (List.of_mem_zip hd).1)
      · exact ih hsearch.2 hnodup.2 hc

end Emend.FileSet
