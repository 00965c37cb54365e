import Emend.Proofs.Workspace.Confined
import Emend.Workspace.Apply

namespace Emend

open Entry

namespace Path

variable {ps : List Part}

/-- The place is where the parts lead, or where some of them at the beginning lead. -/
def OnWay (ps : List Part) (at_ : List Name) : Prop := ∃ qs, qs <+: ps ∧ follow [] qs = at_

theorem OnWay.append {at_ : List Name} (h : OnWay ps at_) (qs : List Part) :
    OnWay (ps ++ qs) at_ := by
  obtain ⟨rs, hrs, hat⟩ := h
  exact ⟨rs, hrs.trans (List.prefix_append ps qs), hat⟩

/-- The path leads to its last step by way of the place. -/
def Passes (p : Path) : List Name → Prop := OnWay p.parts.dropLast

end Path

/-- Each entry is in the directory before it. -/
def Trail.Grounded (d : Disk) : Trail → Prop
  | [] => True
  | (n, e) :: t =>
      (∃ items, Trail.entry d t = .directory items ∧ items.lookup n = some e) ∧ Trail.Grounded d t

theorem Trail.Grounded.tail {d : Disk} {t : Trail} (h : t.Grounded d) : Trail.Grounded d t.tail := by
  cases t with
  | nil => trivial
  | cons i t => exact h.2

theorem Trail.names_cons (i : Name × Entry) (t : Trail) :
    Trail.names (i :: t) = t.names ++ [i.1] := by
  simp [Trail.names]

theorem Trail.names_tail (t : Trail) : Trail.names t.tail = t.names.dropLast := by
  cases t with
  | nil => rfl
  | cons i t => rw [List.tail_cons, Trail.names_cons, List.dropLast_concat]

namespace Disk

variable {d d' d'' : Disk} {steps before : List Step} {s : Step} {trail trail' : Trail}
  {at_ : List Name} {items : List (Name × Entry)} {n : Name}

theorem find?_names (h : trail.Grounded d) : d.find? trail.names = some (trail.entry d) := by
  induction trail with
  | nil => cases d <;> rfl
  | cons i t ih =>
      obtain ⟨⟨items, hitems, hlookup⟩, ht⟩ := h
      rw [Trail.names_cons, find?_concat ((ih ht).trans (congrArg some hitems)), hlookup]
      rfl

theorem walk_eq_ok (h : d.walk trail steps = .ok trail') (hground : trail.Grounded d) :
    trail'.Grounded d ∧ trail'.names = Path.follow trail.names (steps.map Step.part) := by
  induction steps generalizing trail with
  | nil =>
      cases h
      exact ⟨hground, rfl⟩
  | cons s steps ih =>
      rw [walk] at h
      rw [List.map_cons]
      cases htop : trail.entry d with
      | file b =>
          rw [htop] at h
          cases h
      | directory items =>
          rw [htop] at h
          cases hpart : s.part with
          | up =>
              rw [hpart] at h
              obtain ⟨hground', hnames⟩ := ih h hground.tail
              exact ⟨hground', by rw [hnames, Trail.names_tail, Path.follow]⟩
          | name n =>
              rw [hpart] at h
              dsimp only at h
              split at h
              · cases h
              · cases hlookup : items.lookup n with
                | none =>
                    rw [hlookup] at h
                    cases h
                | some e =>
                    rw [hlookup] at h
                    obtain ⟨hground', hnames⟩ := ih h ⟨⟨items, htop, hlookup⟩, hground⟩
                    exact ⟨hground', by rw [hnames, Trail.names_cons, Path.follow]⟩

theorem walkInto_eq_ok (h : d.walkInto steps = .ok (at_, items)) :
    at_ = Path.follow [] (steps.map Step.part) ∧ d.find? at_ = some (.directory items) := by
  rw [walkInto] at h
  cases hwalk : d.walk [] steps with
  | error err =>
      rw [hwalk] at h
      cases h
  | ok trail =>
      rw [hwalk] at h
      dsimp only at h
      obtain ⟨hground, hnames⟩ := walk_eq_ok hwalk trivial
      cases htop : trail.entry d with
      | file b =>
          rw [htop] at h
          cases h
      | directory items' =>
          rw [htop] at h
          cases h
          exact ⟨hnames, (find?_names hground).trans (congrArg some htop)⟩

theorem walkInto_concat_eq_ok {place : List Name × List (Name × Entry)}
    (h : d.walkInto (steps ++ [s]) = .ok place) :
    ∃ at_ items, d.walkInto steps = .ok (at_, items) ∧
      ∀ n, s.part = .name n → tooLong n = false ∧ (items.lookup n).isSome := by
  rw [walkInto, walk_append] at h
  rw [walkInto]
  cases hwalk : d.walk [] steps with
  | error err =>
      rw [hwalk] at h
      cases h
  | ok trail =>
      rw [hwalk] at h
      dsimp only [Except.bind] at h ⊢
      rw [walk] at h
      cases htop : trail.entry d with
      | file b =>
          rw [htop] at h
          cases h
      | directory items =>
          rw [htop] at h
          refine ⟨trail.names, items, rfl, fun n hpart => ?_⟩
          rw [hpart] at h
          dsimp only at h
          cases hlong : tooLong n with
          | true =>
              rw [hlong] at h
              cases h
          | false =>
              rw [hlong] at h
              refine ⟨rfl, ?_⟩
              cases hlookup : items.lookup n with
              | none =>
                  rw [hlookup] at h
                  cases h
              | some e => rfl

/-- The second disk has what the first one has, and besides only directories that were made. -/
def GrownBy (made : List Name → Prop) (d d' : Disk) : Prop :=
  ∀ at_, (d'.find? at_).map content? = (d.find? at_).map content? ∨
    made at_ ∧ d.find? at_ = none ∧ (d'.find? at_).map content? = some none

namespace GrownBy

variable {made made' : List Name → Prop}

theorem refl (made : List Name → Prop) (d : Disk) : GrownBy made d d := fun _ => .inl rfl

theorem mono (h : GrownBy made d d') (hmade : ∀ at_, made at_ → made' at_) : GrownBy made' d d' :=
  fun at_ => (h at_).imp_right fun ⟨hat, hnew⟩ => ⟨hmade at_ hat, hnew⟩

theorem trans (h : GrownBy made d d') (h' : GrownBy made d' d'') : GrownBy made d d'' := by
  intro at_
  rcases h at_ with hsame | ⟨hat, hnone, hnew⟩ <;> rcases h' at_ with hsame' | ⟨hat', hnone', hnew'⟩
  · exact .inl (hsame'.trans hsame)
  · rw [hnone', Option.map_none, eq_comm, Option.map_eq_none_iff] at hsame
    exact .inr ⟨hat', hsame, hnew'⟩
  · exact .inr ⟨hat, hnone, hsame'.trans hnew⟩
  · rw [hnone'] at hnew
    cases hnew

theorem put (hat : d.find? at_ = some (.directory items)) (hnew : items.lookup n = none) :
    GrownBy (· = at_ ++ [n]) d (d.put (at_ ++ [n]) (.directory [])) := by
  have hnone : d.find? (at_ ++ [n]) = none := (find?_concat hat).trans hnew
  have hroom : (directory items).Clear [n] := fun e he => by
    rw [hnew] at he
    cases he
  intro q
  rw [content?_put (hroom.append_of_find? hat) (fun _ _ => rfl)]
  split_ifs with heq habove hbelow
  · exact .inr ⟨heq, heq ▸ hnone, rfl⟩
  · obtain ⟨rest, rfl⟩ := (List.prefix_concat_iff.1 habove).resolve_left heq
    have hthere : ∃ items, d.find? q = some (directory items) := by
      cases rest with
      | nil => exact ⟨items, by rwa [List.append_nil] at hat⟩
      | cons m rest => exact exists_directory_above hat
    obtain ⟨items', hitems'⟩ := hthere
    rw [hitems']
    exact .inl rfl
  · obtain ⟨rest, rfl⟩ := hbelow
    rw [find?_append, hnone]
    exact .inl rfl
  · exact .inl rfl

end GrownBy

theorem grownBy_makeDirectory (h : d.makeDirectory (s :: before) = .ok d') :
    GrownBy (· = Path.follow [] ((s :: before).reverse.map Step.part)) d d' := by
  rw [makeDirectory] at h
  cases haccepted : accepted (s :: before) s.reach with
  | error err =>
      rw [haccepted] at h
      cases h
  | ok u =>
      rw [haccepted] at h
      cases hinto : d.walkInto before.reverse with
      | error err =>
          rw [hinto] at h
          cases h
      | ok place =>
          obtain ⟨at_, items⟩ := place
          obtain ⟨hat, hthere⟩ := walkInto_eq_ok hinto
          rw [hinto] at h
          cases hpart : s.part with
          | up =>
              rw [hpart] at h
              cases h
          | name n =>
              have hplace : Path.follow [] ((s :: before).reverse.map Step.part) = at_ ++ [n] := by
                rw [List.reverse_cons, List.map_append, Path.follow_append, ← hat,
                  List.map_singleton, hpart]
                rfl
              rw [hpart] at h
              dsimp only at h
              split_ifs at h with hlong hlookup
              cases h
              rw [hplace]
              exact .put hthere (Option.not_isSome_iff_eq_none.1 hlookup)

theorem grownBy_orThere {r : Except IoError Disk} {made : List Name → Prop}
    (h : ∀ d', r = .ok d' → GrownBy made d d') : GrownBy made d (d.orThere s before r).1 := by
  cases r with
  | error err => exact .refl made d
  | ok d' => exact h d' rfl

theorem grownBy_makeDirectories (d : Disk) (before : List Step) :
    GrownBy (Path.OnWay (before.reverse.map Step.part)) d (d.makeDirectories before).1 := by
  induction before generalizing d with
  | nil => exact .refl _ d
  | cons s before ih =>
      have hlast (d d' : Disk) (h : d.makeDirectory (s :: before) = .ok d') :
          GrownBy (Path.OnWay ((s :: before).reverse.map Step.part)) d d' :=
        (grownBy_makeDirectory h).mono fun at_ hat => ⟨_, List.prefix_refl _, hat.symm⟩
      have hretry (d : Disk) : GrownBy (Path.OnWay ((s :: before).reverse.map Step.part)) d
          (d.orThere s before (d.makeDirectory (s :: before))).1 := grownBy_orThere (hlast d)
      have hfirst : GrownBy (Path.OnWay ((s :: before).reverse.map Step.part)) d
          (d.makeDirectories before).1 := by
        rw [List.reverse_cons, List.map_append]
        exact (ih d).mono fun at_ hat => hat.append _
      rw [makeDirectories]
      split
      · rcases hrest : d.makeDirectories before with ⟨d', err | u⟩ <;> rw [hrest] at hfirst
        · exact hfirst
        · exact hfirst.trans (hretry d')
      · exact hretry d

theorem accepted_ne_notFound (steps : List Step) (size : Nat) :
    accepted steps size ≠ .error .notFound := by
  rw [accepted]
  split_ifs <;> simp

theorem makeDirectories_of_there {place : List Name × List (Name × Entry)}
    (h : d.walkInto before.reverse = .ok place) : (d.makeDirectories before).1 = d := by
  cases before with
  | nil => rfl
  | cons s before =>
      rw [List.reverse_cons] at h
      obtain ⟨at_, items, hinto, hthere⟩ := walkInto_concat_eq_ok h
      have hmake : ∃ err, err ≠ .notFound ∧ d.makeDirectory (s :: before) = .error err := by
        rw [makeDirectory, hinto]
        cases haccepted : accepted (s :: before) s.reach with
        | error err =>
            refine ⟨err, ?_, rfl⟩
            rintro rfl
            exact accepted_ne_notFound _ _ haccepted
        | ok u =>
            cases hpart : s.part with
            | up => exact ⟨.alreadyExists, by simp, rfl⟩
            | name n =>
                obtain ⟨hlong, hlookup⟩ := hthere n hpart
                exact ⟨.alreadyExists, by simp, by simp [hlong, hlookup]⟩
      obtain ⟨err, hnew, hmake⟩ := hmake
      rw [makeDirectories, hmake]
      cases err <;> first | exact absurd rfl hnew | rfl

end Disk

namespace Workspace

variable {w : Workspace} {c : Change} {p : Path} {e : WorkspaceError}

theorem reverse_of_steps {s : Step} {before : List Step} (h : p.steps.reverse = s :: before) :
    before.reverse = p.steps.dropLast := by
  rw [← List.reverse_reverse p.steps, h, List.reverse_cons, List.dropLast_concat]

theorem grownBy_makeRoom (w : Workspace) (p : Path) :
    Disk.GrownBy p.Passes w.disk (w.makeRoom p).1 := by
  rw [makeRoom]
  split
  · exact .refl _ _
  · rename_i s before hsteps
    have hmade := Disk.grownBy_makeDirectories w.disk before
    rwa [reverse_of_steps hsteps, List.map_dropLast] at hmade

theorem makeRoom_of_there {place : List Name × List (Name × Entry)}
    (h : w.disk.walkInto p.steps.dropLast = .ok place) : (w.makeRoom p).1 = w.disk := by
  rw [makeRoom]
  split
  · rfl
  · rename_i s before hsteps
    rw [← reverse_of_steps hsteps] at h
    exact Disk.makeDirectories_of_there h

theorem write_of_error {content : Text} (h : (w.write p content).2 = .error e) :
    (w.write p content).1 = w := by
  rw [write] at *
  split at h <;> first | rfl | cases h

/-- A change that fails has made room for its file, if it creates one, and has done nothing else. -/
theorem apply_of_error_eq (h : (w.apply c).2 = .error e) :
    (w.apply c).1 = if c.createsFile then
      { w with disk := (w.makeRoom ((Path.ofText c.path).inside w.root)).1 } else w := by
  rw [apply] at h ⊢
  split_ifs at h ⊢ with hcreates
  · rcases hroom : w.makeRoom ((Path.ofText c.path).inside w.root) with ⟨d, err | u⟩
    · rfl
    · rw [hroom] at h
      exact write_of_error h
  · cases hupdated : w.updated c ((Path.ofText c.path).inside w.root) with
    | error err => rfl
    | ok content =>
        rw [hupdated] at h
        exact write_of_error h

/-- A change that fails leaves every file and every directory as it was. It can leave directories
behind where there was nothing, on the way to the file that it was to create. None is left when
the change has a search block, or when the directory of its file was there. -/
theorem apply_of_error (h : (w.apply c).2 = .error e) :
    let p := (Path.ofText c.path).inside w.root
    (w.apply c).1.root = w.root ∧ Disk.GrownBy p.Passes w.disk (w.apply c).1.disk ∧
      (c.createsFile = false → (w.apply c).1 = w) ∧
      ∀ place, w.disk.walkInto p.steps.dropLast = .ok place → (w.apply c).1 = w := by
  intro p
  rw [apply_of_error_eq h]
  split_ifs with hcreates
  · refine ⟨rfl, grownBy_makeRoom w p, fun hkeeps => ?_, fun place hthere => ?_⟩
    · rw [hcreates] at hkeeps
      cases hkeeps
    · rw [makeRoom_of_there hthere]
  · exact ⟨rfl, .refl _ _, fun _ => rfl, fun _ _ => rfl⟩

def emptyWorkspace : Workspace := .ofFiles ["work".toList] []

def slashedChange : Change := ⟨"foo/bar/".toList, [], "x".toList⟩

theorem apply_slashedChange :
    (emptyWorkspace.apply slashedChange).2 = .error (.io .isADirectory) ∧
      Disk.GrownBy ((Path.ofText slashedChange.path).inside emptyWorkspace.root).Passes
        emptyWorkspace.disk (emptyWorkspace.apply slashedChange).1.disk :=
  ⟨rfl, (apply_of_error (e := .io .isADirectory) rfl).2.1⟩

/-- A failed change does not always leave the workspace as it was. -/
theorem not_forall_entries_eq :
    ¬∀ (w : Workspace) (c : Change) (e : WorkspaceError), (w.apply c).2 = .error e →
      (w.apply c).1.entries = w.entries := fun h => by
  have hsame := h emptyWorkspace slashedChange (.io .isADirectory) rfl
  have hleft : (emptyWorkspace.apply slashedChange).1.entries = [(["foo".toList], none)] := by
    decide +kernel
  rw [hleft] at hsame
  exact absurd hsame (by decide +kernel)

end Workspace

end Emend
