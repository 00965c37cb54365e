import Emend.Proofs.FileSet
import Emend.Proofs.Reconcile.Creation
import Emend.Proofs.Reconcile.WholeFile
import Emend.Proofs.Workspace.Confined
import Emend.Workspace.Apply

namespace Emend

namespace Workspace

/-- What an operation on a workspace does to the disk. -/
def onDisk {ρ : Type} (root : List Name) (op : Workspace → Workspace × ρ) (d : Disk) : Disk × ρ :=
  ((op ⟨root, d⟩).1.disk, (op ⟨root, d⟩).2)

theorem root_write (w : Workspace) (p : Path) (content : Text) :
    (w.write p content).1.root = w.root := by
  rw [write]
  split <;> rfl

theorem root_apply (w : Workspace) (c : Change) : (w.apply c).1.root = w.root := by
  rw [apply]
  split
  · split
    · rfl
    · exact root_write ..
  · split
    · rfl
    · exact root_write ..

variable {root : List Name} {base steps : List Step} {s : Step} {p : Path} {c : Change}

section

variable (hparts : base.map Step.part = root.map Part.name) (hplain : ∀ n ∈ root, PlainName n)
  (hp : p.steps = base ++ (steps ++ [s])) (hsteps : Path.Inward 0 ((steps ++ [s]).map Step.part))

include hparts hplain hp hsteps

theorem confined_write (content : Text) : Confined root (onDisk root (write · p content)) := by
  refine .of_eq fun e => ?_
  have hwrite (d : Disk) (hd : d.find? root = some e) :=
    GoesDown.writeText_eq (p := p) ⟨hparts, hplain, hd⟩ hp hsteps content
  cases he : Disk.writeText e { p with steps := steps ++ [s] } content with
  | ok e' =>
      refine ⟨_, .put e' (.ok ()), fun d hd => ?_⟩
      rw [onDisk, write, hwrite d hd, he]
      rfl
  | error err =>
      refine ⟨_, .pure (.error (.io err)), fun d hd => ?_⟩
      rw [onDisk, write, hwrite d hd, he]
      rfl

theorem confined_makeRoom : Confined root fun d => makeRoom ⟨root, d⟩ p := by
  rw [List.map_append] at hsteps
  have hreverse : p.steps.reverse = s :: (steps.reverse ++ base.reverse) := by simp [hp]
  have hbefore : Path.Inward 0 (steps.reverse.reverse.map Step.part) := by
    rw [List.reverse_reverse]
    exact hsteps.append_left
  have hmake := Confined.makeDirectories hparts hplain hbefore
  simpa only [makeRoom, hreverse] using hmake

theorem updated_below {d : Disk} {e : Entry} (hd : d.find? root = some e) :
    updated ⟨root, d⟩ c p = updated ⟨root, e⟩ c { p with steps := steps ++ [s] } := by
  have h : GoesDown d base root e := ⟨hparts, hplain, hd⟩
  rw [updated, updated, h.readText_eq hp hsteps]

end

theorem confined_apply (hplain : ∀ n ∈ root, PlainName n)
    (h : (Path.ofText c.path).StaysBelow root) : Confined root (onDisk root (apply · c)) := by
  obtain ⟨base, steps, s, hp, hparts, hsteps⟩ := h.exists_steps
  have hwrite := confined_write hparts hplain hp hsteps
  by_cases hcreates : c.createsFile
  · have hroom := confined_makeRoom hparts hplain hp hsteps
    have hall := hroom.proceed WorkspaceError.io (hwrite c.replacement)
    refine .of_eq fun e => ⟨_, hall, fun d hd => ?_⟩
    rw [onDisk, apply]
    dsimp only
    rw [if_pos hcreates]
    rcases makeRoom ⟨root, d⟩ ((Path.ofText c.path).inside root) with ⟨d', err | u⟩ <;> rfl
  · refine .of_eq fun e => ?_
    have hread (d : Disk) (hd : d.find? root = some e) :=
      updated_below (c := c) hparts hplain hp hsteps hd
    cases he : updated ⟨root, e⟩ c
        { (Path.ofText c.path).inside root with steps := steps ++ [s] } with
    | error err =>
        refine ⟨_, .pure (.error err), fun d hd => ?_⟩
        rw [onDisk, apply]
        dsimp only
        rw [if_neg hcreates, hread d hd, he]
    | ok content =>
        refine ⟨_, hwrite content, fun d hd => ?_⟩
        rw [onDisk, apply]
        dsimp only
        rw [if_neg hcreates, hread d hd, he]
        rfl

theorem confined_applyAll (hplain : ∀ n ∈ root, PlainName n) {cs : List Change}
    (h : ∀ c ∈ cs, (Path.ofText c.path).StaysBelow root) :
    Confined root (onDisk root (applyAll · cs)) := by
  induction cs with
  | nil => exact .pure []
  | cons c cs ih =>
      rw [List.forall_mem_cons] at h
      have hrest := (confined_apply hplain h.1).bind fun r =>
        (ih h.2).bind fun rs => .pure (r :: rs)
      refine .of_eq fun e => ⟨_, hrest, fun d hd => ?_⟩
      have hroot : (apply ⟨root, d⟩ c).1.root = root := root_apply ..
      rw [onDisk, applyAll, onDisk, onDisk]
      rcases happly : apply ⟨root, d⟩ c with ⟨⟨root', d'⟩, r⟩
      rw [happly] at hroot
      obtain rfl : root' = root := hroot
      rfl

end Workspace

section

variable {α : Type} [Score α] [LawfulScore α]

/-- A change names a known file, below every workspace, or has its path from the response. The
latter lies below every workspace exactly if it is relative and never climbs above its start. -/
theorem reconcile_confined (p : ReconcilePolicy α) (files : FileSet) (response : Text)
    (root : List Name) (hroot : ∀ n ∈ root, PlainName n)
    (hfiles : ∀ path ∈ files.paths, (Path.ofText path).Descends) :
    let changes := (reconcile p files response).changes
    (∀ ch ∈ changes, ch.path ∈ files.paths → (Path.ofText ch.path).LiesBelow root) ∧
    (∀ ch ∈ changes, ch.path ∉ files.paths → ch ∈ p.editFormat.candidates response ∧
      ((∀ directory : List Name, (∀ n ∈ directory, PlainName n) →
          (Path.ofText ch.path).LiesBelow directory) ↔ (Path.ofText ch.path).Inner)) ∧
    ((∀ ch ∈ changes, ch.path ∉ files.paths → (Path.ofText ch.path).StaysBelow root) →
      (∀ ch ∈ changes, (Path.ofText ch.path).LiesBelow root) ∧
        Confined root (Workspace.onDisk root (Workspace.applyAll · changes))) := by
  intro changes
  have hknown (ch : Change) (h : ch.path ∈ files.paths) : (Path.ofText ch.path).StaysBelow root :=
    (hfiles ch.path h).inner.staysBelow hroot
  refine ⟨fun ch _ h => (hknown ch h).liesBelow, fun ch hch h => ⟨?_, Path.liesBelow_iff⟩, ?_⟩
  · exact mem_candidates_of_unknown_path hch (FileSet.get?_eq_none_iff.2 h)
  · intro hstated
    have hall (ch : Change) (hch : ch ∈ changes) : (Path.ofText ch.path).StaysBelow root :=
      if h : ch.path ∈ files.paths then hknown ch h else hstated ch hch h
    exact ⟨fun ch hch => (hall ch hch).liesBelow, Workspace.confined_applyAll hroot hall⟩

end

theorem reconcile_confined_separateBlocks :
    let root : List Name := ["work".toList]
    let changes := (reconcile wholeFilePolicy oneFile separateBlocks).changes
    (∀ ch ∈ changes, (Path.ofText ch.path).LiesBelow root) ∧
      Confined root (Workspace.onDisk root (Workspace.applyAll · changes)) := by
  intro root changes
  have hroot : ∀ n ∈ root, PlainName n := by decide
  have hfiles : ∀ path ∈ oneFile.paths, (Path.ofText path).Descends := by decide
  have hnew : (Path.ofText "lib/new.py".toList).Descends := by decide
  obtain ⟨-, -, hall⟩ := reconcile_confined wholeFilePolicy oneFile separateBlocks root hroot hfiles
  refine hall ?_
  rw [changes_separateBlocks]
  intro ch hch hunknown
  rcases List.mem_pair.1 hch with rfl | rfl
  · exact absurd (by decide) hunknown
  · exact hnew.inner.staysBelow hroot

def outsideDiff : Text := "+++ /etc/x\n@@ @@\n+y\n".toList

/-- A stated path that is absolute leads outside. -/
theorem not_forall_liesBelow :
    ¬∀ (p : ReconcilePolicy Float) (files : FileSet) (response : Text) (root : List Name),
      (∀ n ∈ root, PlainName n) → (∀ path ∈ files.paths, (Path.ofText path).Descends) →
        ∀ ch ∈ (reconcile p files response).changes, (Path.ofText ch.path).LiesBelow root := by
  intro h
  have hcandidates : EditFormat.unifiedDiff.candidates outsideDiff =
      [.ofDiffLines "/etc/x".toList [.added "y".toList]] :=
    candidates_of_lines (by decide) (by decide) (by decide) (by decide) (by decide) (by decide)
      (by decide)
  have hmem : (⟨"/etc/x".toList, [], "y\n".toList⟩ : Change) ∈
      (reconcile (.standard : ReconcilePolicy Float) [] outsideDiff).changes :=
    mem_changes_iff.2 ⟨_, hcandidates ▸ List.mem_singleton_self _, by decide, rfl⟩
  obtain ⟨rest, -, hfollow⟩ := h .standard [] outsideDiff ["work".toList] (by decide) (by decide)
    _ hmem
  cases hfollow

end Emend
