import Emend.Proofs.FileSet.Collected
import Emend.Proofs.Workspace.Store
import Emend.Workspace.Apply

namespace Emend

namespace Workspace

open Entry

variable {w : Workspace} {c : Change} {ns : List Name} {n : Name}

theorem makeRoom_eq {p : Path} (h : p.LeadsTo (ns ++ [n])) (hclear : w.disk.Clear (ns ++ [n])) :
    w.makeRoom p = (w.disk.layDirectory ns, .ok ()) := by
  obtain ⟨s, before, hsteps, -, -, hbefore⟩ := h.exists_steps
  rw [makeRoom, hsteps]
  exact Disk.makeDirectories_eq hbefore hclear.append_left hclear.find?_ne_file

theorem write_of_directory {p : Path} {items : List (Name × Entry)} (h : p.LeadsTo (ns ++ [n]))
    (he : w.disk.find? ns = some (.directory items))
    (hn : ∀ inner, items.lookup n ≠ some (.directory inner)) (content : Text) :
    w.write p content =
      ({ w with disk := w.disk.put (ns ++ [n]) (.file (Utf8.encode content)) }, .ok ()) := by
  rw [write, Disk.writeText_of_directory h he hn]

theorem apply_of_createsFile (hc : c.createsFile = true)
    (h : ((Path.ofText c.path).inside w.root).LeadsTo (ns ++ [n]))
    (hclear : w.disk.Clear (ns ++ [n]))
    (hfile : ∀ items, w.disk.find? (ns ++ [n]) ≠ some (.directory items)) :
    w.apply c =
      ({ w with disk := w.disk.put (ns ++ [n]) (.file (Utf8.encode c.replacement)) }, .ok ()) := by
  have hns := hclear.find?_ne_file
  obtain ⟨items, hitems⟩ := Disk.find?_layDirectory hclear.append_left hns
  have hn : ∀ inner, items.lookup n ≠ some (.directory inner) := by
    intro inner hinner
    rw [← Disk.find?_concat hitems] at hinner
    cases he : w.disk.find? ns with
    | none =>
        rw [Disk.layDirectory_of_none he, find?_put_append hclear.append_left] at hinner
        cases hinner
    | some e =>
        rw [Disk.layDirectory_of_some he] at hinner
        exact hfile inner hinner
  rw [apply, if_pos hc, makeRoom_eq h hclear]
  exact (write_of_directory (w := { w with disk := w.disk.layDirectory ns }) h hitems hn _).trans
    (by rw [Disk.put_layDirectory])

theorem apply_of_missing (hc : c.createsFile = false)
    (h : ((Path.ofText c.path).inside w.root).LeadsTo ns) (he : w.disk.find? ns = none)
    (hclear : w.disk.Clear ns) : w.apply c = (w, .error (.io .notFound)) := by
  simp [apply, hc, updated, Disk.readText_of_missing h he hclear]

theorem apply_of_file (hc : c.createsFile = false)
    (h : ((Path.ofText c.path).inside w.root).LeadsTo (ns ++ [n])) {content : Text}
    (he : w.disk.find? (ns ++ [n]) = some (.file (Utf8.encode content))) :
    w.apply c = match c.apply content with
      | .error e => (w, .error (.change e))
      | .ok t => ({ w with disk := w.disk.put (ns ++ [n]) (.file (Utf8.encode t)) }, .ok ()) := by
  obtain ⟨items, hitems, hn⟩ := Disk.exists_directory_of_concat he
  simp only [apply, hc, updated, Disk.readText_of_file h he]
  cases c.apply content with
  | error e => rfl
  | ok t => exact write_of_directory h hitems (by simp [hn]) t

/-- A workspace that holds the files of a file set. -/
def written (root : List Name) (files : FileSet) : Workspace :=
  ofFiles root (files.map fun f => (f.path, Utf8.encode f.content))

variable {root : List Name} {files : FileSet}

theorem layDirectory_empty (root : List Name) :
    Disk.empty.layDirectory root = Disk.empty.put root (.directory []) := by
  cases root <;> rfl

theorem clear_layDirectory_empty (root q : List Name) :
    (Disk.empty.layDirectory root).Clear (root ++ q) := by
  rw [layDirectory_empty]
  exact (clear_directory_nil root).put_append (clear_directory_nil q)

theorem find?_layDirectory_empty (root q : List Name) :
    (Disk.empty.layDirectory root).find? (root ++ q) = (directory []).find? q := by
  rw [layDirectory_empty]
  exact find?_put_append (clear_directory_nil root)

theorem written_eq (hapart : Apart files.paths) :
    written root files = ⟨root, (Disk.empty.layDirectory root).store root files⟩ := by
  rw [written, ofFiles]
  congr 1
  generalize Disk.empty.layDirectory root = d
  induction files generalizing d with
  | nil => rfl
  | cons f fs ih =>
      have hplain := hapart.plain f.path (by simp [FileSet.paths])
      rw [List.map_cons, List.foldl_cons, store_cons]
      dsimp only
      rw [hplain.ending, if_pos rfl, hplain.names]
      exact ih (hapart.mono (by simp [FileSet.paths])) _

theorem find?_written {path : Text} (hapart : Apart (path :: files.paths))
    (hnodup : files.paths.Nodup) :
    ((Disk.empty.layDirectory root).store root files).find? (root ++ stretches path) =
      (files.get? path).map fun f => .file (Utf8.encode f.content) := by
  cases hget : files.get? path with
  | none =>
      rw [find?_store_of_notMem hapart (FileSet.get?_eq_none_iff.1 hget), find?_layDirectory_empty]
      cases hstretches : stretches path with
      | nil => exact absurd hstretches (stretches_ne_nil path)
      | cons n ns => rfl
  | some f => exact find?_store_of_get? hapart hnodup (clear_layDirectory_empty root _) hget

/-- A change does to the workspace what it does to the file set. -/
theorem apply_written (hroot : ∀ n ∈ root, PlainName n) (hapart : Apart (c.path :: files.paths))
    (hnodup : files.paths.Nodup)
    (hfit : (Path.ofNames root).size + c.path.byteLength < Disk.pathLimit) :
    ((written root files).apply c).1 = written root (files.apply c).1 ∧
      ((written root files).apply c).2.isOk = (files.apply c).2.isOk := by
  have hfiles : Apart files.paths := hapart.mono (List.subset_cons_self ..)
  have hleads := (hapart.plain c.path (by simp)).leadsTo_inside hroot hfit
  have hclear := clear_store hapart (clear_layDirectory_empty root (stretches c.path))
  have hfind : ((Disk.empty.layDirectory root).store root files).find? (root ++ stretches c.path) =
      (files.get? c.path).map fun f => .file (Utf8.encode f.content) :=
    find?_written hapart hnodup
  obtain ⟨ns, n, hplace⟩ : ∃ ns n, root ++ stretches c.path = ns ++ [n] := by
    have hne : root ++ stretches c.path ≠ [] := by simp [stretches_ne_nil]
    exact ⟨_, _, (List.dropLast_concat_getLast hne).symm⟩
  have hinsert (content : Text) : written root (files.insert c.path content) =
      ⟨root, ((Disk.empty.layDirectory root).store root files).put (ns ++ [n])
        (.file (Utf8.encode content))⟩ := by
    rw [written_eq, store_insert hapart hnodup, hplace]
    exact hapart.mono fun path hpath => by simpa using FileSet.mem_paths_insert.1 hpath
  have hwritten : written root files = ⟨root, (Disk.empty.layDirectory root).store root files⟩ :=
    written_eq hfiles
  rw [hplace] at hleads hclear hfind
  generalize (Disk.empty.layDirectory root).store root files = d at hclear hfind hinsert hwritten
  rw [hwritten]
  by_cases hsearch : c.search = []
  · have hcreates : c.createsFile = true := Change.createsFile_iff.2 hsearch
    rw [apply_of_createsFile (w := ⟨root, d⟩) hcreates hleads hclear,
      FileSet.apply_of_search_eq_nil hsearch, hinsert]
    · exact ⟨rfl, rfl⟩
    · intro items hitems
      rw [hfind] at hitems
      cases hget : files.get? c.path <;> simp [hget] at hitems
  · have hedits : c.createsFile = false :=
      Bool.eq_false_iff.2 (Change.createsFile_iff.not.2 hsearch)
    cases hget : files.get? c.path with
    | none =>
        rw [hget] at hfind
        rw [apply_of_missing (w := ⟨root, d⟩) hedits hleads hfind hclear,
          FileSet.apply_of_get?_eq_none hsearch hget, hwritten]
        exact ⟨rfl, rfl⟩
    | some f =>
        rw [hget] at hfind
        rw [apply_of_file (w := ⟨root, d⟩) hedits hleads hfind, FileSet.apply,
          FileSet.contentOf_of_get? hget]
        cases c.apply f.content with
        | error e => exact ⟨hwritten.symm, rfl⟩
        | ok t => exact ⟨(hinsert t).symm, rfl⟩

theorem applyAll_written {cs : List Change} (hroot : ∀ n ∈ root, PlainName n)
    (hapart : Apart (files.paths ++ cs.map Change.path)) (hnodup : files.paths.Nodup)
    (hfit : ∀ c ∈ cs, (Path.ofNames root).size + c.path.byteLength < Disk.pathLimit) :
    ((written root files).applyAll cs).1 = written root (files.applyAll cs).1 ∧
      ((written root files).applyAll cs).2.map Except.isOk =
        (files.applyAll cs).2.map Except.isOk := by
  induction cs generalizing files with
  | nil => exact ⟨rfl, rfl⟩
  | cons c cs ih =>
      rw [List.forall_mem_cons] at hfit
      have hhere : Apart (c.path :: files.paths) := hapart.mono (by simp)
      have hrest : Apart ((files.apply c).1.paths ++ cs.map Change.path) := by
        apply hapart.mono
        intro path hpath
        rcases List.mem_append.1 hpath with hpath | hpath
        · rcases FileSet.mem_paths_apply hpath with rfl | hpath <;> simp [*]
        · simp [hpath]
      obtain ⟨hstep, hresult⟩ := apply_written hroot hhere hnodup hfit.1
      obtain ⟨hdone, hresults⟩ := ih hrest (FileSet.nodup_paths_apply hnodup c) hfit.2
      simp only [applyAll, FileSet.applyAll]
      rw [hstep, List.map_cons, List.map_cons, hresult, hdone, hresults]
      exact ⟨rfl, rfl⟩

theorem written_ofList (hapart : Apart files.paths) :
    written root files =
      written root (FileSet.ofList (files.map fun f => (f.path, f.content))) := by
  have hpaths : (FileSet.ofList (files.map fun f => (f.path, f.content))).paths ⊆ files.paths :=
    fun path => ((FileSet.paths_ofList files).2 path).1
  have hstore : ((Disk.empty.layDirectory root).store root []).store root files =
      (Disk.empty.layDirectory root).store root
        (files.foldl (fun fs f => FileSet.insert fs f.path f.content) []) :=
    store_store hapart List.nodup_nil
  rw [written_eq hapart, written_eq (hapart.mono hpaths), FileSet.ofList_eq, ← hstore]
  rfl

theorem mem_entries_written (root : List Name) (hapart : Apart files.paths)
    (hnodup : files.paths.Nodup) (at_ : List Name) :
    (∀ b, (at_, some b) ∈ (written root files).entries ↔
      ∃ f ∈ files, stretches f.path = at_ ∧ Utf8.encode f.content = b) ∧
    ((at_, none) ∈ (written root files).entries ↔
      at_ ≠ [] ∧ ∃ f ∈ files, at_ <+: stretches f.path ∧ at_ ≠ stretches f.path) := by
  have htop : (Disk.empty.layDirectory root).find? root = some (directory []) := by
    have hroot := find?_layDirectory_empty root []
    rwa [List.append_nil] at hroot
  have hentries : (written root files).entries = ((directory []).store [] files).listing := by
    rw [entries, written_eq hapart]
    dsimp only
    rw [find?_store_below htop]
  have hordered : ((directory []).store [] files).Ordered :=
    ordered_store (.directory List.Pairwise.nil (by simp)) [] files
  obtain ⟨hfile, hdirectory⟩ := content?_store hapart hnodup at_
  simp only [hentries, mem_listing hordered, hfile, hdirectory]
  refine ⟨fun b => and_iff_right_of_imp ?_, by tauto⟩
  rintro ⟨f, -, rfl, -⟩
  exact stretches_ne_nil f.path

/-- Changes to the files of a workspace succeed where they succeed on the file set, and leave the
files it holds then, with their directories. -/
theorem applyAll_refines {cs : List Change} (hroot : ∀ n ∈ root, PlainName n)
    (hapart : Apart (files.paths ++ cs.map Change.path))
    (hfit : ∀ c ∈ cs, (Path.ofNames root).size + c.path.byteLength < Disk.pathLimit) :
    let before := written root files
    let after := before.applyAll cs
    let final := (FileSet.ofList (files.map fun f => (f.path, f.content))).applyAll cs
    after.2.length = cs.length ∧
      after.2.map Except.isOk = final.2.map Except.isOk ∧
      after.1 = written root final.1 ∧
      (∀ at_ b, (at_, some b) ∈ after.1.entries ↔
        ∃ f ∈ final.1, stretches f.path = at_ ∧ Utf8.encode f.content = b) ∧
      (∀ at_, (at_, none) ∈ after.1.entries ↔
        (at_ ≠ [] ∧ ∃ f ∈ final.1, at_ <+: stretches f.path ∧ at_ ≠ stretches f.path) ∨
          (at_, none) ∈ before.entries) ∧
      ∀ at_ b, (∀ c, (c, true) ∈ cs.zip (after.2.map Except.isOk) → stretches c.path ≠ at_) →
        ((at_, some b) ∈ after.1.entries ↔ (at_, some b) ∈ before.entries) := by
  intro before after final
  obtain ⟨hnodup, hpaths⟩ := FileSet.paths_ofList files
  have hstart : Apart ((FileSet.ofList (files.map fun f => (f.path, f.content))).paths ++
      cs.map Change.path) := by
    apply hapart.mono
    intro path hpath
    rwa [List.mem_append, hpaths, ← List.mem_append] at hpath
  have hbefore : before = written root (FileSet.ofList (files.map fun f => (f.path, f.content))) :=
    written_ofList (hapart.mono (List.subset_append_left ..))
  obtain ⟨hafter, hresults⟩ := applyAll_written hroot hstart hnodup hfit
  rw [← hbefore] at hafter hresults
  have hfinal : Apart final.1.paths :=
    hstart.mono fun path hpath => List.mem_append.2 (FileSet.mem_paths_applyAll hpath)
  have hnodup' := FileSet.nodup_paths_applyAll hnodup cs
  have hold := mem_entries_written root (hstart.mono (List.subset_append_left ..)) hnodup
  have hnew := mem_entries_written root hfinal hnodup'
  rw [← hbefore] at hold
  rw [← hafter] at hnew
  refine ⟨?_, hresults, hafter, fun at_ => (hnew at_).1, fun at_ => ?_, fun at_ b huntouched => ?_⟩
  · have hlength := congrArg List.length hresults
    rwa [List.length_map, List.length_map, FileSet.length_applyAll] at hlength
  · rw [(hnew at_).2, or_iff_left_of_imp]
    rw [(hold at_).2]
    rintro ⟨hne, f, hf, habove⟩
    obtain ⟨g, hg, hpath⟩ :=
      List.mem_map.1 (FileSet.paths_subset_applyAll _ cs (List.mem_map_of_mem hf))
    exact ⟨hne, g, hg, hpath ▸ habove⟩
  · rw [(hnew at_).1, (hold at_).1]
    refine exists_congr fun f => and_congr_left fun ⟨hplace, _⟩ => ?_
    rw [FileSet.mem_iff_get? hnodup', FileSet.mem_iff_get? hnodup]
    rw [FileSet.get?_applyAll_of_untouched]
    intro c hc hpath
    exact huntouched c (hresults ▸ hc) (hpath ▸ hplace)

def twoNotes : FileSet :=
  [⟨"notes/a.txt".toList, "one\n".toList⟩, ⟨"b.txt".toList, "x".toList⟩]

def threeChanges : List Change :=
  [⟨"notes/new/c.txt".toList, [], "three\n".toList⟩,
    ⟨"notes/a.txt".toList, "one".toList, "two".toList⟩,
    ⟨"gone.txt".toList, "one".toList, "two".toList⟩]

theorem applyAll_threeChanges :
    ((written ["work".toList] twoNotes).applyAll threeChanges).2.map Except.isOk =
        [true, true, false] ∧
      (["notes".toList, "a.txt".toList], some (Utf8.encode "two\n".toList)) ∈
        ((written ["work".toList] twoNotes).applyAll threeChanges).1.entries ∧
      (["b.txt".toList], some (Utf8.encode "x".toList)) ∈
        ((written ["work".toList] twoNotes).applyAll threeChanges).1.entries := by
  have hroot : ∀ n ∈ ["work".toList], PlainName n := by decide +kernel
  have hapart : Apart (twoNotes.paths ++ threeChanges.map Change.path) := by decide +kernel
  have hfit : ∀ c ∈ threeChanges,
      (Path.ofNames ["work".toList]).size + c.path.byteLength < Disk.pathLimit := by
    decide +kernel
  obtain ⟨-, hresults, -, hfiles, -, -⟩ := applyAll_refines hroot hapart hfit
  refine ⟨hresults.trans (by decide), (hfiles _ _).2 ?_, (hfiles _ _).2 ?_⟩ <;> decide

def longName : Name := List.replicate 255 'a'

def farBelow : Change := ⟨(List.replicate 16 longName).flatMap (· ++ ['/']) ++ ['f'], [], ['x']⟩

theorem apart_farBelow : Apart [farBelow.path] := by
  have hname : PlainName longName := by decide +kernel
  have hlast : PlainName ['f'] := by decide
  refine ⟨fun t ht => ?_, fun s hs t ht hinside => ?_⟩
  · rw [List.mem_singleton.1 ht, PlainPath, farBelow,
      stretches_below fun n hn => List.eq_of_mem_replicate hn ▸ hname]
    intro n hn
    rcases List.mem_append.1 hn with hn | hn
    · exact List.eq_of_mem_replicate hn ▸ hname
    · exact List.mem_singleton.1 hn ▸ hlast
  · rw [List.mem_singleton.1 hs, List.mem_singleton.1 ht]

theorem not_forall_isOk_applyAll :
    ¬∀ (root : List Name) (files : FileSet) (cs : List Change), (∀ n ∈ root, PlainName n) →
      Apart (files.paths ++ cs.map Change.path) →
        ((written root files).applyAll cs).2.map Except.isOk =
          ((FileSet.ofList (files.map fun f => (f.path, f.content))).applyAll cs).2.map
            Except.isOk := by
  intro h
  have hok := h ["work".toList] [] [farBelow] (by decide +kernel) apart_farBelow
  exact absurd hok (by decide +kernel)

end Workspace

end Emend
