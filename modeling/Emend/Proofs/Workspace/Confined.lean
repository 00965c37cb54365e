import Emend.Proofs.Workspace.Below
import Emend.Proofs.Workspace.Disk

namespace Emend

open Entry

/-- The second disk has this entry at the root, and elsewhere what the first one has. -/
structure Replaced (root : List Name) (d d' : Disk) (e : Entry) : Prop where
  inside : d'.find? root = some e
  outside : ∀ at_, ¬root <+: at_ → (d'.find? at_).map content? = (d.find? at_).map content?

namespace Replaced

variable {root : List Name} {d d' d'' : Disk} {e e' : Entry}

theorem refl (h : d.find? root = some e) : Replaced root d d e := ⟨h, fun _ _ => rfl⟩

theorem trans (h : Replaced root d d' e) (h' : Replaced root d' d'' e') : Replaced root d d'' e' :=
  ⟨h'.inside, fun at_ hat => (h'.outside at_ hat).trans (h.outside at_ hat)⟩

theorem put (h : d.find? root = some e) (new : Entry) : Replaced root d (d.put root new) new := by
  have hclear : d.Clear root := clear_of_find? h
  refine ⟨find?_put_self hclear, fun at_ hat => ?_⟩
  by_cases habove : at_ <+: root
  · -- above the root there is a directory before and after
    obtain ⟨rest, rfl⟩ := habove
    cases rest with
    | nil => simp at hat
    | cons n rest =>
        obtain ⟨items, hitems⟩ : ∃ items, (d.put (at_ ++ n :: rest) new).find? at_ =
            some (directory items) := find?_put_above hclear
        obtain ⟨items', hitems'⟩ := exists_directory_above h
        rw [hitems, hitems']
        rfl
  · rw [find?_put_of_apart hat habove]

end Replaced

/-- What stands at the root decides the outcome and what stands there afterwards, and nothing
outside changes. -/
def Confined {ρ : Type} (root : List Name) (op : Disk → Disk × ρ) : Prop :=
  ∀ e, ∃ e' r, ∀ d : Disk, d.find? root = some e → ∃ d', op d = (d', r) ∧ Replaced root d d' e'

def Disk.proceed {ε ε' : Type} (wrap : ε → ε') (next : Disk → Disk × Except ε' Unit) :
    Except ε Unit → Disk → Disk × Except ε' Unit
  | .error err, d => (d, .error (wrap err))
  | .ok (), d => next d

namespace Confined

variable {ρ σ : Type} {root : List Name} {op : Disk → Disk × ρ}

theorem pure (r : ρ) : Confined root fun d => (d, r) :=
  fun e => ⟨e, r, fun d hd => ⟨d, rfl, .refl hd⟩⟩

theorem put (e : Entry) (r : ρ) : Confined root fun d => (d.put root e, r) :=
  fun _ => ⟨e, r, fun d hd => ⟨d.put root e, rfl, .put hd e⟩⟩

theorem of_eq (h : ∀ e, ∃ op', Confined root op' ∧
    ∀ d : Disk, d.find? root = some e → op d = op' d) : Confined root op := by
  intro e
  obtain ⟨op', hop', heq⟩ := h e
  obtain ⟨e', r, hout⟩ := hop' e
  refine ⟨e', r, fun d hd => ?_⟩
  rw [heq d hd]
  exact hout d hd

theorem bind {next : ρ → Disk → Disk × σ} (h : Confined root op)
    (hnext : ∀ r, Confined root (next r)) : Confined root fun d => next (op d).2 (op d).1 := by
  intro e
  obtain ⟨e₁, r₁, h₁⟩ := h e
  obtain ⟨e₂, r₂, h₂⟩ := hnext r₁ e₁
  refine ⟨e₂, r₂, fun d hd => ?_⟩
  obtain ⟨d₁, hop, hd₁⟩ := h₁ d hd
  obtain ⟨d₂, hthen, hd₂⟩ := h₂ d₁ hd₁.inside
  refine ⟨d₂, ?_, hd₁.trans hd₂⟩
  dsimp only
  rw [hop]
  exact hthen

theorem proceed {ε ε' : Type} {op : Disk → Disk × Except ε Unit}
    {next : Disk → Disk × Except ε' Unit} (h : Confined root op) (wrap : ε → ε')
    (hnext : Confined root next) :
    Confined root fun d => Disk.proceed wrap next (op d).2 (op d).1 := by
  refine h.bind fun r => ?_
  cases r with
  | error err => exact pure _
  | ok u => exact hnext

end Confined

namespace Disk

variable {d : Disk} {root : List Name} {e : Entry} {base steps before : List Step} {s : Step}
  {p : Path}

theorem walk_append (trail : Trail) (ss ss' : List Step) :
    d.walk trail (ss ++ ss') = (d.walk trail ss).bind (d.walk · ss') := by
  induction ss generalizing trail with
  | nil => rfl
  | cons s ss ih =>
      rw [List.cons_append, walk, walk]
      cases trail.entry d with
      | file b => rfl
      | directory items =>
          cases s.part with
          | up => exact ih _
          | name n =>
              dsimp only
              split
              · rfl
              · cases items.lookup n with
                | none => rfl
                | some e => exact ih _

theorem entry_append {above : Trail} (h : above.entry d = e) (t : Trail) :
    Trail.entry d (t ++ above) = t.entry e := by
  cases t with
  | nil => exact h
  | cons i t => rfl

/-- From a directory on, steps that never climb above it find what they find in its entry alone. -/
theorem walk_below {above : Trail} (h : above.entry d = e) {t : Trail}
    (hsteps : Path.Inward t.length (steps.map Step.part)) :
    d.walk (t ++ above) steps = (walk e t steps).map (· ++ above) := by
  induction steps generalizing t with
  | nil => rfl
  | cons s steps ih =>
      rw [walk, walk, entry_append h]
      rw [List.map_cons] at hsteps
      cases t.entry e with
      | file b => rfl
      | directory items =>
          cases hpart : s.part with
          | up =>
              rw [hpart] at hsteps
              cases t with
              | nil => exact absurd hsteps id
              | cons i t => exact ih hsteps
          | name n =>
              rw [hpart] at hsteps
              dsimp only
              split
              · rfl
              · cases items.lookup n with
                | none => rfl
                | some f => exact ih (t := (n, f) :: t) hsteps

theorem holdsZero_append (ss ss' : List Step) :
    holdsZero (ss ++ ss') = (holdsZero ss || holdsZero ss') := List.any_append

theorem holdsZero_reverse (ss : List Step) : holdsZero ss.reverse = holdsZero ss := List.any_reverse

end Disk

/-- The steps go down to an entry of the disk. -/
structure GoesDown (d : Disk) (base : List Step) (root : List Name) (e : Entry) : Prop where
  parts : base.map Step.part = root.map Part.name
  plain : ∀ n ∈ root, PlainName n
  there : d.find? root = some e

namespace GoesDown

open Disk

variable {d : Disk} {root : List Name} {e : Entry} {base steps before : List Step} {s : Step}
  {p : Path}

theorem holdsZero_eq (h : GoesDown d base root e) : holdsZero base = false := by
  rw [holdsZero, List.any_eq_false]
  intro s hs
  have hpart : s.part ∈ root.map Part.name := h.parts ▸ List.mem_map_of_mem hs
  obtain ⟨n, hn, hname⟩ := List.mem_map.1 hpart
  rw [← hname]
  simpa using (h.plain n hn).no_zero

theorem accepted_append (h : GoesDown d base root e) (steps : List Step) (size : Nat) :
    accepted (base ++ steps) size = accepted steps size := by
  rw [accepted, accepted, holdsZero_append, h.holdsZero_eq, Bool.false_or]

theorem accepted_append_reverse (h : GoesDown d base root e) (before : List Step) (size : Nat) :
    accepted (before ++ base.reverse) size = accepted before size := by
  rw [accepted, accepted, holdsZero_append, holdsZero_reverse, h.holdsZero_eq, Bool.or_false]

theorem walk_append_of_inward (h : GoesDown d base root e)
    (hsteps : Path.Inward 0 (steps.map Step.part)) :
    ∃ above : Trail, above.entry d = e ∧ above.names = root ∧
      d.walk [] (base ++ steps) = (walk e [] steps).map (· ++ above) := by
  obtain ⟨above, hwalk, hentry, hnames⟩ := walk_of_parts (d := d) h.parts h.plain [] h.there
  refine ⟨above, hentry, hnames, ?_⟩
  rw [walk_append, hwalk]
  exact walk_below (t := []) hentry hsteps

theorem walkInto_append (h : GoesDown d base root e)
    (hsteps : Path.Inward 0 (steps.map Step.part)) :
    d.walkInto (base ++ steps) = (walkInto e steps).map (Prod.map (root ++ ·) id) := by
  obtain ⟨above, hentry, hnames, hwalk⟩ := h.walk_append_of_inward hsteps
  rw [walkInto, walkInto, hwalk]
  cases walk e [] steps with
  | error err => rfl
  | ok trail =>
      dsimp only [Except.map]
      rw [entry_append hentry]
      cases trail.entry e with
      | file b => rfl
      | directory items => simp [Trail.names, ← hnames]

theorem leadsToDirectory_append (h : GoesDown d base root e)
    (hsteps : Path.Inward 0 (steps.map Step.part)) (size : Nat) :
    d.leadsToDirectory (base ++ steps) size = leadsToDirectory e steps size := by
  rw [leadsToDirectory, leadsToDirectory, h.accepted_append, h.walkInto_append hsteps]
  cases walkInto e steps <;> rfl

theorem put_append (h : GoesDown d base root e) (at_ : List Name) (new : Entry) :
    d.put (root ++ at_) new = d.put root (e.put at_ new) :=
  put_of_find? h.there at_ new

theorem makeDirectory_append (h : GoesDown d base root e)
    (hbefore : Path.Inward 0 ((s :: before).reverse.map Step.part)) :
    d.makeDirectory (s :: before ++ base.reverse) =
      (makeDirectory e (s :: before)).map (d.put root) := by
  rw [List.reverse_cons, List.map_append] at hbefore
  have hwalk := h.walkInto_append hbefore.append_left
  rw [List.cons_append, makeDirectory, makeDirectory, ← List.cons_append,
    h.accepted_append_reverse, List.reverse_append, List.reverse_reverse, hwalk]
  cases accepted (s :: before) s.reach with
  | error err => rfl
  | ok u =>
      cases walkInto e before.reverse with
      | error err => rfl
      | ok place =>
          obtain ⟨at_, items⟩ := place
          cases s.part with
          | up => rfl
          | name n =>
              dsimp only [Except.map, Prod.map, id]
              rw [List.append_assoc, h.put_append]
              split_ifs <;> rfl

theorem readText_eq (h : GoesDown d base root e) (hp : p.steps = base ++ steps)
    (hsteps : Path.Inward 0 (steps.map Step.part)) :
    d.readText p = readText e { p with steps } := by
  obtain ⟨above, hentry, -, hwalk⟩ := h.walk_append_of_inward hsteps
  rw [readText, readText, hp, h.accepted_append, hwalk]
  cases accepted steps p.size with
  | error err => rfl
  | ok u =>
      cases walk e [] steps with
      | error err => rfl
      | ok trail =>
          dsimp only [Except.map]
          rw [entry_append hentry]

theorem writeText_eq (h : GoesDown d base root e) (hp : p.steps = base ++ (steps ++ [s]))
    (hsteps : Path.Inward 0 ((steps ++ [s]).map Step.part)) (content : Text) :
    d.writeText p content =
      (writeText e { p with steps := steps ++ [s] } content).map (d.put root) := by
  have hall := h.walkInto_append hsteps
  rw [List.map_append] at hsteps
  have hwalk := h.walkInto_append hsteps.append_left
  rw [writeText, writeText, hp, h.accepted_append]
  dsimp only
  cases accepted (steps ++ [s]) p.size with
  | error err => rfl
  | ok u =>
      dsimp only
      rw [hall, ← List.append_assoc, List.reverse_concat, List.reverse_concat]
      split_ifs
      · cases walkInto e (steps ++ [s]) <;> rfl
      · dsimp only
        rw [List.reverse_reverse, List.reverse_reverse, hwalk]
        cases walkInto e steps with
        | error err => rfl
        | ok place =>
            obtain ⟨at_, items⟩ := place
            cases s.part with
            | up => rfl
            | name n =>
                cases p.ending with
                | slash => rfl
                | point => rfl
                | plain =>
                    dsimp only [Except.map, Prod.map, id]
                    rw [List.append_assoc, h.put_append]
                    split_ifs <;> rfl

theorem makeDirectory_eq (h : GoesDown d (base ++ [s]) root e) :
    d.makeDirectory (s :: base.reverse) =
      .error (if pathLimit ≤ s.reach then .invalidFilename else .alreadyExists) := by
  have haccepted := h.accepted_append_reverse [] s.reach
  have hparts := h.parts
  rw [List.map_append, List.map_singleton] at hparts
  obtain ⟨ns, last, rfl, hinit, hlast⟩ := List.append_eq_map_iff.1 hparts
  obtain ⟨n, rfl, hn⟩ := List.map_eq_singleton_iff.1 hlast
  obtain ⟨items, hitems, hlookup⟩ := exists_directory_of_concat h.there
  have habove : GoesDown d base ns (directory items) :=
    ⟨hinit.symm, fun m hm => h.plain m (by simp [hm]), hitems⟩
  have hnone : Path.Inward 0 (([] : List Step).map Step.part) := trivial
  have hwalk : d.walkInto base = .ok (ns, items) := by
    simpa [walkInto, walk, Trail.entry, Trail.names, Except.map] using habove.walkInto_append hnone
  have hshort := (h.plain n (by simp)).not_tooLong
  rw [List.nil_append, List.reverse_concat] at haccepted
  rw [makeDirectory, haccepted, List.reverse_reverse, hwalk, ← hn, accepted]
  by_cases hsize : pathLimit ≤ s.reach
  · simp [holdsZero, hsize]
  · simp [holdsZero, hsize, hshort, hlookup]

end GoesDown

namespace Confined

open Disk

variable {root : List Name} {base steps before : List Step} {s : Step} {p : Path}
  (hparts : base.map Step.part = root.map Part.name) (hplain : ∀ n ∈ root, PlainName n)

include hparts hplain

theorem leadsToDirectory (hsteps : Path.Inward 0 (steps.map Step.part)) (r : Except IoError Unit)
    (size : Nat) :
    Confined root fun d => (d, if d.leadsToDirectory (base ++ steps) size then .ok () else r) := by
  refine of_eq fun e => ⟨_, pure (if Disk.leadsToDirectory e steps size then .ok () else r), ?_⟩
  intro d hd
  have h : GoesDown d base root e := ⟨hparts, hplain, hd⟩
  rw [h.leadsToDirectory_append hsteps]

theorem orThere (hbefore : Path.Inward 0 ((s :: before).reverse.map Step.part)) :
    Confined root fun d =>
      d.orThere s (before ++ base.reverse) (d.makeDirectory (s :: before ++ base.reverse)) := by
  refine of_eq fun e => ?_
  have hmake (d : Disk) (hd : d.find? root = some e) :
      d.makeDirectory (s :: before ++ base.reverse) =
        (makeDirectory e (s :: before)).map (d.put root) :=
    GoesDown.makeDirectory_append ⟨hparts, hplain, hd⟩ hbefore
  cases he : makeDirectory e (s :: before) with
  | ok e' =>
      refine ⟨_, put e' (.ok ()), fun d hd => ?_⟩
      rw [hmake d hd, he]
      rfl
  | error err =>
      refine ⟨_, leadsToDirectory hparts hplain hbefore (.error err) s.reach, fun d hd => ?_⟩
      have hsteps : (s :: (before ++ base.reverse)).reverse = base ++ (s :: before).reverse := by
        simp
      rw [hmake d hd, he, Except.map, Disk.orThere, hsteps]

theorem makeDirectories_root : Confined root fun d => d.makeDirectories base.reverse := by
  rcases List.eq_nil_or_concat base with rfl | ⟨base, s, rfl⟩
  · exact pure (Except.ok ())
  · rw [List.concat_eq_append] at *
    rw [List.reverse_concat]
    obtain ⟨err, hnew, herr⟩ : ∃ err, err ≠ IoError.notFound ∧
        (if pathLimit ≤ s.reach then .invalidFilename else .alreadyExists) = err := by
      split_ifs <;> exact ⟨_, by simp, rfl⟩
    have hnone : Path.Inward 0 (([] : List Step).map Step.part) := trivial
    refine of_eq fun e => ⟨_, leadsToDirectory hparts hplain hnone (.error err) s.reach, ?_⟩
    intro d hd
    have h : GoesDown d (base ++ [s]) root e := ⟨hparts, hplain, hd⟩
    have hmake : d.makeDirectories (s :: base.reverse) = d.orThere s base.reverse (.error err) := by
      rw [makeDirectories, h.makeDirectory_eq, herr]
      cases err <;> first | exact absurd rfl hnew | rfl
    rw [hmake, Disk.orThere, List.reverse_cons, List.reverse_reverse, List.append_nil]

theorem makeDirectories (hbefore : Path.Inward 0 (before.reverse.map Step.part)) :
    Confined root fun d => d.makeDirectories (before ++ base.reverse) := by
  induction before with
  | nil => exact makeDirectories_root hparts hplain
  | cons s before ih =>
      have hretry := orThere hparts hplain hbefore
      have hmake (d : Disk) (e : Entry) (hd : d.find? root = some e) :
          d.makeDirectory (s :: before ++ base.reverse) =
            (makeDirectory e (s :: before)).map (d.put root) :=
        GoesDown.makeDirectory_append ⟨hparts, hplain, hd⟩ hbefore
      rw [List.reverse_cons, List.map_append] at hbefore
      refine of_eq fun e => ?_
      -- only where something is missing are the directories above made first
      by_cases he : makeDirectory e (s :: before) = .error .notFound
      · refine ⟨_, (ih hbefore.append_left).proceed id hretry, fun d hd => ?_⟩
        have hd' := hmake d e hd
        rw [he] at hd'
        rw [List.cons_append, Disk.makeDirectories, ← List.cons_append, hd']
        rcases d.makeDirectories (before ++ base.reverse) with ⟨d', err | u⟩ <;> rfl
      · refine ⟨_, hretry, fun d hd => ?_⟩
        have hd' := hmake d e hd
        rw [List.cons_append, Disk.makeDirectories, ← List.cons_append, hd']
        cases hcase : makeDirectory e (s :: before) with
        | ok e' => rfl
        | error err => cases err <;> first | exact absurd hcase he | rfl

end Confined

end Emend
