import Emend.Proofs.FileSet
import Emend.Proofs.Workspace.Disk

namespace Emend

/-- Plain paths of which none leads through another. -/
structure Apart (paths : List Text) : Prop where
  plain : ∀ t ∈ paths, PlainPath t
  apart : ∀ s ∈ paths, ∀ t ∈ paths, stretches s <+: stretches t → s = t

instance (paths : List Text) : Decidable (Apart paths) :=
  decidable_of_iff
    ((∀ t ∈ paths, PlainPath t) ∧ ∀ s ∈ paths, ∀ t ∈ paths, stretches s <+: stretches t → s = t)
    ⟨fun ⟨h, h'⟩ => ⟨h, h'⟩, fun h => ⟨h.plain, h.apart⟩⟩

namespace Apart

variable {paths others : List Text} {s t : Text} {root : List Name}

theorem mono (h : Apart paths) (hsub : others ⊆ paths) : Apart others :=
  ⟨fun t ht => h.plain t (hsub ht), fun s hs t ht => h.apart s (hsub hs) t (hsub ht)⟩

theorem eq_of_inside (h : Apart paths) (hs : s ∈ paths) (ht : t ∈ paths)
    (hinside : root ++ stretches s <+: root ++ stretches t) : s = t :=
  h.apart s hs t ht ((List.prefix_append_right_inj root).1 hinside)

theorem not_inside (h : Apart paths) (hs : s ∈ paths) (ht : t ∈ paths) (hne : s ≠ t)
    (root : List Name) : ¬root ++ stretches s <+: root ++ stretches t :=
  fun hinside => hne (h.eq_of_inside hs ht hinside)

theorem tail {f : Snapshot} {fs : FileSet} (h : Apart (t :: FileSet.paths (f :: fs))) :
    Apart (t :: fs.paths) :=
  h.mono (by simp [FileSet.paths])

end Apart

namespace Entry

/-- A tree with files written into it, below a place. -/
def store (e : Entry) (root : List Name) (files : FileSet) : Entry :=
  files.foldl (fun e f => e.put (root ++ stretches f.path) (file (Utf8.encode f.content))) e

variable {e new : Entry} {root : List Name} {files : FileSet} {path content : Text}

theorem store_cons (f : Snapshot) (fs : FileSet) :
    e.store root (f :: fs) =
      (e.put (root ++ stretches f.path) (file (Utf8.encode f.content))).store root fs := rfl

theorem store_put (hapart : Apart (path :: files.paths)) (hnew : path ∉ files.paths) :
    (e.put (root ++ stretches path) new).store root files =
      (e.store root files).put (root ++ stretches path) new := by
  induction files generalizing e with
  | nil => rfl
  | cons f fs ih =>
      have hrest := hapart.tail
      simp only [FileSet.paths, List.map_cons, List.mem_cons, not_or] at hnew hapart
      rw [store_cons, store_cons, ← ih hrest hnew.2]
      congr 1
      exact put_comm (hapart.not_inside (by simp) (by simp) hnew.1 root)
        (hapart.not_inside (by simp) (by simp) (Ne.symm hnew.1) root)

theorem store_insert (hapart : Apart (path :: files.paths)) (hnodup : files.paths.Nodup) :
    e.store root (files.insert path content) =
      (e.store root files).put (root ++ stretches path) (file (Utf8.encode content)) := by
  induction files generalizing e with
  | nil => rfl
  | cons f fs ih =>
      have hrest := hapart.tail
      rw [FileSet.paths, List.map_cons, List.nodup_cons] at hnodup
      by_cases hf : f.path = path
      · subst hf
        rw [FileSet.insert, if_pos rfl, store_cons, store_cons, ← store_put hrest hnodup.1, put_put]
      · rw [FileSet.insert, if_neg hf, store_cons, store_cons]
        exact ih hrest hnodup.2

theorem store_store {held : FileSet} (hapart : Apart (held.paths ++ files.paths))
    (hnodup : held.paths.Nodup) :
    (e.store root held).store root files =
      e.store root (files.foldl (fun fs f => fs.insert f.path f.content) held) := by
  induction files generalizing held with
  | nil => rfl
  | cons f fs ih =>
      have hheld : Apart (f.path :: held.paths) := hapart.mono (by simp [FileSet.paths])
      rw [store_cons, ← store_insert hheld hnodup, List.foldl_cons]
      apply ih _ (FileSet.nodup_paths_insert hnodup ..)
      apply hapart.mono
      intro t ht
      rw [List.mem_append, FileSet.mem_paths_insert] at ht
      simpa [FileSet.paths, or_assoc, or_left_comm] using ht

theorem clear_store (hapart : Apart (path :: files.paths)) (h : e.Clear (root ++ stretches path)) :
    (e.store root files).Clear (root ++ stretches path) := by
  induction files generalizing e with
  | nil => exact h
  | cons f fs ih =>
      rw [store_cons]
      apply ih hapart.tail
      apply h.put
      intro hinside
      rw [hapart.eq_of_inside (by simp [FileSet.paths]) (by simp) hinside]

theorem find?_store_of_notMem (hapart : Apart (path :: files.paths)) (hnew : path ∉ files.paths) :
    (e.store root files).find? (root ++ stretches path) = e.find? (root ++ stretches path) := by
  induction files generalizing e with
  | nil => rfl
  | cons f fs ih =>
      have hrest := hapart.tail
      simp only [FileSet.paths, List.map_cons, List.mem_cons, not_or] at hnew hapart
      rw [store_cons, ih hrest hnew.2]
      exact find?_put_of_apart (hapart.not_inside (by simp) (by simp) (Ne.symm hnew.1) root)
        (hapart.not_inside (by simp) (by simp) hnew.1 root)

theorem find?_store_of_get? (hapart : Apart (path :: files.paths)) (hnodup : files.paths.Nodup)
    (h : e.Clear (root ++ stretches path)) {f : Snapshot} (hf : files.get? path = some f) :
    (e.store root files).find? (root ++ stretches path) = some (file (Utf8.encode f.content)) := by
  have hinsert : e.store root (files.insert path f.content) =
      (e.store root files).put (root ++ stretches path) (file (Utf8.encode f.content)) :=
    store_insert hapart hnodup
  rw [FileSet.insert_of_get? hf] at hinsert
  rw [hinsert]
  exact find?_put_self (clear_store hapart h)

theorem find?_store_below (h : e.find? root = some new) (files : FileSet) :
    (e.store root files).find? root = some (new.store [] files) := by
  induction files generalizing e new with
  | nil => exact h
  | cons f fs ih => exact ih (find?_put_below h)

theorem ordered_store (h : e.Ordered) (root : List Name) (files : FileSet) :
    (e.store root files).Ordered := by
  induction files generalizing e with
  | nil => exact h
  | cons f fs ih => exact ih (h.put (.file _) _)

theorem content?_empty (q : List Name) :
    ((directory []).find? q).map content? = if q = [] then some none else none := by
  cases q <;> rfl

/-- A directory made for files holds them, with the directories above them. -/
theorem content?_store (hapart : Apart files.paths) (hnodup : files.paths.Nodup) (q : List Name) :
    (∀ b, (((directory []).store [] files).find? q).map content? = some (some b) ↔
      ∃ f ∈ files, stretches f.path = q ∧ Utf8.encode f.content = b) ∧
    ((((directory []).store [] files).find? q).map content? = some none ↔
      q = [] ∨ ∃ f ∈ files, q <+: stretches f.path ∧ q ≠ stretches f.path) := by
  induction files using List.reverseRecOn with
  | nil => by_cases hq : q = [] <;> simp [store, content?_empty, hq]
  | append_singleton fs f ih =>
      have hpaths : FileSet.paths (fs ++ [f]) = FileSet.paths fs ++ [f.path] := by
        simp [FileSet.paths]
      rw [hpaths] at hapart hnodup
      obtain ⟨hfs, -, hnew⟩ := List.nodup_append.1 hnodup
      have hput : (directory []).store [] (fs ++ [f]) =
          ((directory []).store [] fs).put (stretches f.path) (file (Utf8.encode f.content)) := by
        rw [store, List.foldl_append]
        rfl
      have hclear : ((directory []).store [] fs).Clear (stretches f.path) :=
        clear_store (hapart.mono (by simp)) (clear_directory_nil ([] ++ stretches f.path))
      have hne : stretches f.path ≠ [] := stretches_ne_nil _
      -- The place of a file before this one lies neither above its place nor below it.
      have hbefore {g : Snapshot} (hg : g ∈ fs) : ¬stretches g.path <+: stretches f.path ∧
          ¬stretches f.path <+: stretches g.path := by
        have hmem : g.path ∈ FileSet.paths fs := List.mem_map_of_mem hg
        have hpath : g.path ≠ f.path := hnew _ hmem _ (by simp)
        exact ⟨hapart.not_inside (by simp [hmem]) (by simp) hpath [],
          hapart.not_inside (by simp) (by simp [hmem]) (Ne.symm hpath) []⟩
      have hnotAt (h : q <+: stretches f.path ∨ stretches f.path <+: q) (b : Bytes) :
          ¬∃ g ∈ fs, stretches g.path = q ∧ Utf8.encode g.content = b := by
        rintro ⟨g, hg, rfl, -⟩
        exact h.elim (hbefore hg).1 (hbefore hg).2
      have hnotBelow {P : Snapshot → Prop} (h : stretches f.path <+: q) :
          ¬∃ g ∈ fs, q <+: stretches g.path ∧ P g := by
        rintro ⟨g, hg, hinside, -⟩
        exact (hbefore hg).2 (h.trans hinside)
      obtain ⟨hfile, hdirectory⟩ := ih (hapart.mono (by simp)) hfs
      have hmem {P : Snapshot → Prop} : (∃ g ∈ fs ++ [f], P g) ↔ (∃ g ∈ fs, P g) ∨ P f := by
        simp [or_and_right, exists_or]
      simp only [hput, content?_put_file hclear, hmem]
      split_ifs with heq habove hbelow
      · have hsame : stretches f.path <+: q := heq ▸ List.prefix_refl _
        subst heq
        simp [hne, hnotAt (.inr hsame), hnotBelow hsame]
      · simp [hnotAt (.inl habove), habove, heq, Ne.symm heq]
      · have hq : q ≠ [] := by
          rintro rfl
          exact habove List.nil_prefix
        simp [hnotAt (.inr hbelow), hnotBelow hbelow, habove, Ne.symm heq, hq]
      · simp [hfile, hdirectory, habove, Ne.symm heq]

end Entry

end Emend
