import Emend.Proofs.FileSet
import Mathlib.Data.List.Induction

namespace Emend

section

variable {β : Type} [BEq β] [LawfulBEq β] {x : β} {xs : List β}

theorem eraseDups_concat_of_mem (h : x ∈ xs) : (xs ++ [x]).eraseDups = xs.eraseDups := by
  rw [List.eraseDups_append, List.cons_removeAll, if_neg (by simp [h]), List.nil_removeAll,
    List.eraseDups_nil, List.append_nil]

theorem eraseDups_concat_of_notMem (h : x ∉ xs) :
    (xs ++ [x]).eraseDups = xs.eraseDups ++ [x] := by
  rw [List.eraseDups_append, List.cons_removeAll, if_pos (by simp [h]), List.nil_removeAll,
    List.eraseDups_cons, List.filter_nil, List.eraseDups_nil]

theorem nodup_eraseDups (xs : List β) : xs.eraseDups.Nodup := by
  induction xs using List.reverseRecOn with
  | nil => exact List.nodup_nil
  | append_singleton xs x ih =>
      by_cases h : x ∈ xs
      · rwa [eraseDups_concat_of_mem h]
      · rw [eraseDups_concat_of_notMem h]
        have hnew : x ∉ xs.eraseDups := fun hmem => h (List.mem_eraseDups.1 hmem)
        rw [← List.concat_eq_append]
        exact List.Nodup.concat hnew ih

end

namespace FileSet

variable {files : FileSet} {path content : Text}

theorem insert_of_notMem (h : path ∉ files.paths) :
    files.insert path content = files ++ [⟨path, content⟩] := by
  induction files with
  | nil => rfl
  | cons f fs ih =>
      rw [paths, List.map_cons, List.mem_cons, not_or] at h
      rw [insert, if_neg (Ne.symm h.1), ih h.2, List.cons_append]

theorem paths_insert_of_mem (h : path ∈ files.paths) (content : Text) :
    (files.insert path content).paths = files.paths := by
  induction files with
  | nil => cases h
  | cons f fs ih =>
      by_cases hf : f.path = path
      · rw [insert, if_pos hf, paths, paths, List.map_cons, List.map_cons, hf]
      · have htail : path ∈ paths fs := (List.mem_cons.1 h).resolve_left (Ne.symm hf)
        rw [insert, if_neg hf]
        exact congrArg (f.path :: ·) (ih htail)

theorem paths_insert (files : FileSet) (path content : Text) :
    (files.insert path content).paths =
      if path ∈ files.paths then files.paths else files.paths ++ [path] := by
  by_cases h : path ∈ files.paths
  · rw [if_pos h, paths_insert_of_mem h content]
  · rw [if_neg h, insert_of_notMem h, paths, List.map_append, List.map_singleton, paths]

theorem insert_eq_append_iff :
    files.insert path content = files ++ [⟨path, content⟩] ↔ path ∉ files.paths := by
  refine ⟨fun h hmem => ?_, insert_of_notMem⟩
  have hlength := congrArg List.length (paths_insert_of_mem hmem content)
  rw [h, paths, paths, List.length_map, List.length_map, List.length_append,
    List.length_singleton] at hlength
  omega

theorem ofList_concat (pairs : List (Text × Text)) (pair : Text × Text) :
    ofList (pairs ++ [pair]) = (ofList pairs).insert pair.1 pair.2 := by
  rw [ofList, List.foldl_append]
  rfl

theorem nodup_paths_ofList (pairs : List (Text × Text)) : (ofList pairs).paths.Nodup := by
  induction pairs using List.reverseRecOn with
  | nil => exact List.nodup_nil
  | append_singleton pairs pair ih =>
      rw [ofList_concat]
      exact nodup_paths_insert ih ..

theorem paths_ofList_eq (pairs : List (Text × Text)) :
    (ofList pairs).paths = (pairs.map Prod.fst).eraseDups := by
  induction pairs using List.reverseRecOn with
  | nil => rfl
  | append_singleton pairs pair ih =>
      rw [ofList_concat, paths_insert, ih, List.map_append, List.map_singleton]
      by_cases h : pair.1 ∈ pairs.map Prod.fst
      · rw [if_pos (List.mem_eraseDups.2 h), eraseDups_concat_of_mem h]
      · rw [if_neg fun hmem => h (List.mem_eraseDups.1 hmem), eraseDups_concat_of_notMem h]

theorem paths_ofList (files : FileSet) :
    (ofList (files.map fun f => (f.path, f.content))).paths.Nodup ∧
      ∀ path, path ∈ (ofList (files.map fun f => (f.path, f.content))).paths ↔ path ∈ files.paths := by
  refine ⟨nodup_paths_ofList _, fun path => ?_⟩
  rw [paths_ofList_eq, List.mem_eraseDups, List.map_map]
  rfl

theorem get?_ofList (pairs : List (Text × Text)) (path : Text) :
    (ofList pairs).get? path = (pairs.reverse.lookup path).map (Snapshot.mk path) := by
  induction pairs using List.reverseRecOn with
  | nil => rfl
  | append_singleton pairs pair ih =>
      rw [ofList_concat, List.reverse_append, List.reverse_singleton, List.singleton_append,
        List.lookup_cons]
      by_cases h : path = pair.1
      · rw [beq_iff_eq.2 h, h, get?_insert_self]
        rfl
      · rw [beq_eq_false_iff_ne.2 h, get?_insert_of_ne h, ih]

theorem ofList_map {keys : List Text} (hnodup : keys.Nodup) (contentOf : Text → Text) :
    ofList (keys.map fun path => (path, contentOf path)) =
      keys.map fun path => ⟨path, contentOf path⟩ := by
  induction keys using List.reverseRecOn with
  | nil => rfl
  | append_singleton keys key ih =>
      rw [← List.concat_eq_append, List.nodup_concat] at hnodup
      have hnew : key ∉ paths (keys.map fun path => ⟨path, contentOf path⟩) := by
        simpa [paths] using hnodup.1
      rw [List.map_append, List.map_singleton, ofList_concat, ih hnodup.2, insert_of_notMem hnew,
        List.map_append, List.map_singleton]

def codesOf (path : Text) (snippets : List Snippet) : List Text :=
  (snippets.filter (·.path = path)).map Snippet.code

theorem codesOf_concat (path : Text) (snippets : List Snippet) (s : Snippet) :
    codesOf path (snippets ++ [s]) =
      if path = s.path then codesOf path snippets ++ [s.code] else codesOf path snippets := by
  rw [codesOf, List.filter_append, List.map_append]
  by_cases h : path = s.path
  · simp [codesOf, h]
  · simp [codesOf, h, Ne.symm h]

theorem codesOf_of_notMem {snippets : List Snippet} (h : path ∉ snippets.map Snippet.path) :
    codesOf path snippets = [] := by
  rw [codesOf, List.map_eq_nil_iff, List.filter_eq_nil_iff]
  intro s hs heq
  rw [← of_decide_eq_true heq] at h
  exact h (List.mem_map_of_mem hs)

section

variable {keys : List Text} {codes : Text → List Text} {s : Snippet}

theorem gather_of_notMem (h : s.path ∉ keys) :
    gather (keys.map fun path => (path, codes path)) s =
      (keys.map fun path => (path, codes path)) ++ [(s.path, [s.code])] := by
  induction keys with
  | nil => rfl
  | cons key keys ih =>
      rw [List.mem_cons, not_or] at h
      rw [List.map_cons, gather, if_neg (Ne.symm h.1), ih h.2, List.cons_append]

theorem gather_of_mem (hnodup : keys.Nodup) (h : s.path ∈ keys) :
    gather (keys.map fun path => (path, codes path)) s =
      keys.map fun path =>
        (path, if path = s.path then codes path ++ [s.code] else codes path) := by
  induction keys with
  | nil => cases h
  | cons key keys ih =>
      obtain ⟨hkey, hkeys⟩ := List.nodup_cons.1 hnodup
      rw [List.map_cons, gather, List.map_cons]
      by_cases heq : key = s.path
      · -- No other group has the path, so the rest stays as it is.
        rw [if_pos heq, if_pos heq]
        refine congrArg (_ :: ·) (List.map_congr_left fun path hpath => ?_)
        rw [if_neg]
        rintro rfl
        exact hkey (heq ▸ hpath)
      · rw [if_neg heq, if_neg heq, ih hkeys ((List.mem_cons.1 h).resolve_left (Ne.symm heq))]

end

theorem foldl_gather (snippets : List Snippet) :
    snippets.foldl gather [] =
      (snippets.map Snippet.path).eraseDups.map fun path => (path, codesOf path snippets) := by
  induction snippets using List.reverseRecOn with
  | nil => rfl
  | append_singleton snippets s ih =>
      rw [List.foldl_append, List.foldl_cons, List.foldl_nil, ih, List.map_append,
        List.map_singleton]
      simp only [codesOf_concat]
      by_cases h : s.path ∈ snippets.map Snippet.path
      · rw [gather_of_mem (nodup_eraseDups _) (List.mem_eraseDups.2 h), eraseDups_concat_of_mem h]
      · have hnew : s.path ∉ (snippets.map Snippet.path).eraseDups :=
          fun hmem => h (List.mem_eraseDups.1 hmem)
        rw [gather_of_notMem hnew, eraseDups_concat_of_notMem h, List.map_append,
          List.map_singleton, if_pos rfl, codesOf_of_notMem h, List.nil_append]
        congr 1
        refine List.map_congr_left fun path hpath => ?_
        rw [if_neg]
        rintro rfl
        exact hnew hpath

theorem ofSnippets_eq (snippets : List Snippet) :
    ofSnippets snippets = (snippets.map Snippet.path).eraseDups.map fun path =>
      ⟨path, snippetSeparator.intercalate (codesOf path snippets)⟩ := by
  rw [ofSnippets, foldl_gather, List.map_map]
  exact ofList_map (nodup_eraseDups _) _

/-- Putting a file in changes what is kept for its path alone; pairs leave every path once, where it
came first, with its last content; snippets leave every path with all its pieces. -/
theorem store_laws :
    (∀ (files : FileSet) (path content : Text),
      (files.insert path content).get? path = some ⟨path, content⟩ ∧
        (∀ other, other ≠ path → (files.insert path content).get? other = files.get? other) ∧
        (files.insert path content).paths =
          (if path ∈ files.paths then files.paths else files.paths ++ [path]) ∧
        (files.insert path content = files ++ [⟨path, content⟩] ↔ path ∉ files.paths)) ∧
      (∀ pairs : List (Text × Text),
        (ofList pairs).paths.Nodup ∧
          (ofList pairs).paths = (pairs.map Prod.fst).eraseDups ∧
          ∀ path, (ofList pairs).get? path = (pairs.reverse.lookup path).map (Snapshot.mk path)) ∧
      ∀ snippets : List Snippet,
        ofSnippets snippets = (snippets.map Snippet.path).eraseDups.map fun path =>
          ⟨path, snippetSeparator.intercalate (codesOf path snippets)⟩ := by
  refine ⟨fun files path content => ?_, fun pairs => ?_, ofSnippets_eq⟩
  · exact ⟨get?_insert_self .., fun other h => get?_insert_of_ne h, paths_insert ..,
      insert_eq_append_iff⟩
  · exact ⟨nodup_paths_ofList pairs, paths_ofList_eq pairs, get?_ofList pairs⟩

end FileSet

end Emend
