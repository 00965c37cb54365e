import Emend.Proofs.Workspace.Path
import Emend.Proofs.Workspace.Tree

namespace Emend

namespace Leads

variable {steps : List Step} {s : Step} {ns : List Name} {n : Name}

theorem accepted (h : Leads steps ns) {some : List Step} (hsome : some ⊆ steps) {size : Nat}
    (hsize : size < Disk.pathLimit) : Disk.accepted some size = .ok () := by
  have hzero : Disk.holdsZero some = false := by
    rw [Disk.holdsZero, List.any_eq_false]
    intro s hs
    have hpart : s.part ∈ ns.map Part.name := h.parts ▸ List.mem_map_of_mem (hsome hs)
    obtain ⟨n, hn, hname⟩ := List.mem_map.1 hpart
    rw [← hname]
    simpa using (h.plain n hn).no_zero
  rw [Disk.accepted, hzero, if_neg Bool.false_ne_true, if_neg (Nat.not_le_of_lt hsize)]

theorem exists_cons (h : Leads (s :: steps) ns) :
    ∃ n ns', ns = n :: ns' ∧ s.part = .name n ∧ PlainName n ∧ Leads steps ns' := by
  cases ns with
  | nil => cases h.parts
  | cons n ns =>
      have hparts := List.cons.inj h.parts
      exact ⟨n, ns, rfl, hparts.1, h.plain n (by simp), hparts.2,
        fun m hm => h.plain m (by simp [hm]), fun t ht => h.reach t (by simp [ht])⟩

theorem exists_concat (h : Leads (steps ++ [s]) ns) :
    ∃ ns' n, ns = ns' ++ [n] ∧ s.part = .name n ∧ PlainName n ∧ s.reach < Disk.pathLimit ∧
      Leads steps ns' := by
  have hparts := h.parts
  rw [List.map_append, List.map_singleton] at hparts
  obtain ⟨ns', last, rfl, hinit, hlast⟩ := List.append_eq_map_iff.1 hparts
  obtain ⟨n, rfl, hn⟩ : ∃ n, last = [n] ∧ Part.name n = s.part := by
    rcases last with _ | ⟨n, _ | ⟨m, last⟩⟩ <;> simp_all
  exact ⟨ns', n, rfl, hn.symm, h.plain n (by simp), h.reach s (by simp), hinit.symm,
    fun m hm => h.plain m (by simp [hm]), fun t ht => h.reach t (by simp [ht])⟩

theorem eq_nil (h : Leads [] ns) : ns = [] := by simpa using h.parts.symm

end Leads

theorem Path.LeadsTo.exists_steps {p : Path} {ns : List Name} {n : Name}
    (h : p.LeadsTo (ns ++ [n])) :
    ∃ s before, p.steps.reverse = s :: before ∧ s.part = .name n ∧ PlainName n ∧
      Leads before.reverse ns := by
  have hleads := h.leads
  cases hrev : p.steps.reverse with
  | nil =>
      rw [List.reverse_eq_nil_iff.1 hrev] at hleads
      exact absurd hleads.eq_nil (by simp)
  | cons s before =>
      have hsteps : p.steps = before.reverse ++ [s] := by
        rw [← List.reverse_cons, ← hrev, List.reverse_reverse]
      obtain ⟨ns', n', heq, hpart, hn, -, hbefore⟩ := (hsteps ▸ hleads).exists_concat
      obtain ⟨rfl, hlast⟩ := List.append_inj' heq rfl
      obtain rfl := List.singleton_inj.1 hlast
      exact ⟨s, before, rfl, hpart, hn, hbefore⟩

theorem PlainName.not_tooLong {n : Name} (h : PlainName n) : Disk.tooLong n = false := by
  simpa [Disk.tooLong] using h.short

namespace Disk

open Entry

variable {d : Disk} {steps before : List Step} {s : Step} {ns : List Name} {n : Name}
  {items : List (Name × Entry)} {e : Entry}

theorem walk_of_parts (hparts : steps.map Step.part = ns.map Part.name)
    (hplain : ∀ n ∈ ns, PlainName n) (trail : Trail) (he : (trail.entry d).find? ns = some e) :
    ∃ trail', d.walk trail steps = .ok trail' ∧ trail'.entry d = e ∧
      trail'.names = trail.names ++ ns := by
  induction steps generalizing ns trail with
  | nil =>
      obtain rfl : ns = [] := by simpa using hparts.symm
      rw [find?] at he
      exact ⟨trail, rfl, Option.some.inj he, (List.append_nil _).symm⟩
  | cons s steps ih =>
      cases ns with
      | nil => cases hparts
      | cons n ns =>
          obtain ⟨hpart, hrest⟩ := List.cons.inj hparts
          rw [List.forall_mem_cons] at hplain
          cases htop : trail.entry d with
          | file b =>
              rw [htop] at he
              cases he
          | directory items =>
              rw [htop, find?] at he
              cases hlookup : items.lookup n with
              | none =>
                  rw [hlookup] at he
                  cases he
              | some f =>
                  rw [hlookup] at he
                  obtain ⟨trail', hwalk, hentry, hnames⟩ := ih hrest hplain.2 ((n, f) :: trail) he
                  refine ⟨trail', ?_, hentry, ?_⟩
                  · simp [walk, htop, hpart, hplain.1.not_tooLong, hlookup, hwalk]
                  · rw [hnames]
                    simp [Trail.names]

theorem walk_of_find? (h : Leads steps ns) (trail : Trail)
    (he : (trail.entry d).find? ns = some e) :
    ∃ trail', d.walk trail steps = .ok trail' ∧ trail'.entry d = e ∧
      trail'.names = trail.names ++ ns :=
  walk_of_parts h.parts h.plain trail he

theorem walk_of_missing (h : Leads steps ns) (trail : Trail)
    (he : (trail.entry d).find? ns = none) (hclear : (trail.entry d).Clear ns) :
    d.walk trail steps = .error .notFound := by
  induction steps generalizing ns trail with
  | nil =>
      obtain rfl := h.eq_nil
      cases he
  | cons s steps ih =>
      obtain ⟨n, ns, rfl, hpart, hn, hrest⟩ := h.exists_cons
      cases htop : trail.entry d with
      | file b =>
          rw [htop] at hclear
          exact absurd hclear id
      | directory items =>
          rw [htop] at he hclear
          cases hlookup : items.lookup n with
          | none => simp [walk, htop, hpart, hn.not_tooLong, hlookup]
          | some f =>
              rw [find?, hlookup] at he
              have hwalk := ih hrest ((n, f) :: trail) he (hclear f hlookup)
              simp [walk, htop, hpart, hn.not_tooLong, hlookup, hwalk]

theorem walkInto_of_directory (h : Leads steps ns) (he : d.find? ns = some (.directory items)) :
    d.walkInto steps = .ok (ns, items) := by
  obtain ⟨trail, hwalk, hentry, hnames⟩ := walk_of_find? h [] he
  rw [walkInto, hwalk]
  dsimp only
  rw [hentry, hnames]
  rfl

theorem walkInto_of_missing (h : Leads steps ns) (he : d.find? ns = none) (hclear : d.Clear ns) :
    d.walkInto steps = .error .notFound := by
  rw [walkInto, walk_of_missing h [] he hclear]

theorem layDirectory_of_none (h : d.find? ns = none) :
    d.layDirectory ns = d.put ns (.directory []) := by
  rw [layDirectory, h]

theorem layDirectory_of_some (h : d.find? ns = some e) : d.layDirectory ns = d := by
  rw [layDirectory, h]

theorem find?_concat (he : d.find? ns = some (.directory items)) :
    d.find? (ns ++ [n]) = items.lookup n := by
  rw [find?_append, he, Option.bind_some, find?]
  cases items.lookup n <;> rfl

theorem exists_directory_of_concat (he : d.find? (ns ++ [n]) = some e) :
    ∃ items, d.find? ns = some (.directory items) ∧ items.lookup n = some e := by
  rw [find?_append] at he
  obtain ⟨f, hf, hn⟩ := Option.bind_eq_some_iff.1 he
  cases f with
  | file b => cases hn
  | directory items => exact ⟨items, hf, by rw [← find?_concat hf, find?_append, hf]; exact hn⟩

theorem makeDirectory_of_directory (h : Leads (s :: before).reverse (ns ++ [n]))
    (he : d.find? ns = some (.directory items)) :
    d.makeDirectory (s :: before) =
      if (items.lookup n).isSome then .error .alreadyExists
      else .ok (d.put (ns ++ [n]) (.directory [])) := by
  have haccepted : accepted (s :: before) s.reach = .ok () :=
    h.accepted (by simp) (h.reach s (by simp))
  rw [List.reverse_cons] at h
  obtain ⟨ns', n', heq, hpart, hn, -, hbefore⟩ := h.exists_concat
  obtain ⟨rfl, hlast⟩ := List.append_inj' heq rfl
  obtain rfl := List.singleton_inj.1 hlast
  simp [makeDirectory, haccepted, walkInto_of_directory hbefore he, hpart, hn.not_tooLong]

theorem makeDirectory_of_missing (h : Leads (s :: before).reverse (ns ++ [n]))
    (he : d.find? ns = none) (hclear : d.Clear ns) :
    d.makeDirectory (s :: before) = .error .notFound := by
  have haccepted : accepted (s :: before) s.reach = .ok () :=
    h.accepted (by simp) (h.reach s (by simp))
  rw [List.reverse_cons] at h
  obtain ⟨ns', n', heq, -, -, -, hbefore⟩ := h.exists_concat
  obtain ⟨rfl, -⟩ := List.append_inj' heq rfl
  simp [makeDirectory, haccepted, walkInto_of_missing hbefore he hclear]

theorem leadsToDirectory_of_directory (h : Leads (s :: before).reverse ns)
    (he : d.find? ns = some (.directory items)) :
    d.leadsToDirectory (s :: before).reverse s.reach = true := by
  have haccepted := h.accepted (List.Subset.refl _) (h.reach s (by simp))
  rw [leadsToDirectory, haccepted, walkInto_of_directory h he]
  rfl

theorem makeDirectories_eq (h : Leads before.reverse ns) (hclear : d.Clear ns)
    (hfile : ∀ b, d.find? ns ≠ some (.file b)) :
    d.makeDirectories before = (d.layDirectory ns, .ok ()) := by
  induction before generalizing ns with
  | nil =>
      obtain rfl := h.eq_nil
      rw [layDirectory_of_some (e := d) (by cases d <;> rfl)]
      rfl
  | cons s before ih =>
      obtain ⟨ns, n, rfl, -, -, -, hbefore⟩ := (List.reverse_cons .. ▸ h).exists_concat
      cases he : d.find? ns with
      | none =>
          have hmake := makeDirectory_of_missing h he hclear.append_left
          have hrest := ih hbefore hclear.append_left (by simp [he])
          have hthere : (d.put ns (.directory [])).find? ns = some (.directory []) :=
            find?_put_self hclear.append_left
          have hput : (d.put ns (.directory [])).put (ns ++ [n]) (.directory []) =
              d.put (ns ++ [n]) (.directory []) := by
            rw [put_append, put_of_find?_eq_none he]
          have hnone : d.find? (ns ++ [n]) = none := by rw [find?_append, he]; rfl
          rw [makeDirectories, hmake]
          dsimp only
          rw [hrest, layDirectory_of_none he]
          dsimp only
          rw [makeDirectory_of_directory h hthere, layDirectory_of_none hnone, hput]
          rfl
      | some f =>
          cases f with
          | file b => exact absurd he (hclear.find?_ne_file b)
          | directory items =>
              have hmake := makeDirectory_of_directory h he
              cases hn : items.lookup n with
              | none =>
                  rw [makeDirectories, hmake, layDirectory_of_none ((find?_concat he).trans hn), hn]
                  rfl
              | some f =>
                  have hentry := (find?_concat he).trans hn
                  cases f with
                  | file b => exact absurd hentry (hfile b)
                  | directory inner =>
                      rw [makeDirectories, hmake, layDirectory_of_some hentry, hn]
                      dsimp only [Option.isSome_some, if_true, orThere]
                      rw [leadsToDirectory_of_directory h hentry]
                      rfl

theorem find?_layDirectory (hclear : d.Clear ns) (hfile : ∀ b, d.find? ns ≠ some (.file b)) :
    ∃ items, (d.layDirectory ns).find? ns = some (.directory items) := by
  cases he : d.find? ns with
  | none => exact ⟨[], by rw [layDirectory_of_none he, find?_put_self hclear]⟩
  | some e =>
      cases e with
      | file b => exact absurd he (hfile b)
      | directory items => exact ⟨items, by rw [layDirectory_of_some he, he]⟩

theorem put_layDirectory (ns : List Name) (n : Name) (e : Entry) :
    (d.layDirectory ns).put (ns ++ [n]) e = d.put (ns ++ [n]) e := by
  cases he : d.find? ns with
  | none => rw [layDirectory_of_none he, put_append, put_of_find?_eq_none he]
  | some f => rw [layDirectory_of_some he]

variable {p : Path} {t : Text}

theorem readText_of_file (h : p.LeadsTo ns) (he : d.find? ns = some (.file (Utf8.encode t))) :
    d.readText p = .ok t := by
  obtain ⟨trail, hwalk, hentry, -⟩ := walk_of_find? h.leads [] he
  simp [readText, h.leads.accepted (List.Subset.refl _) h.size, hwalk, hentry, h.ending,
    Utf8.decode?_encode]

theorem readText_of_missing (h : p.LeadsTo ns) (he : d.find? ns = none) (hclear : d.Clear ns) :
    d.readText p = .error .notFound := by
  simp only [readText, h.leads.accepted (List.Subset.refl _) h.size,
    walk_of_missing h.leads [] he hclear]

theorem writeText_of_directory (h : p.LeadsTo (ns ++ [n])) (he : d.find? ns = some (.directory items))
    (hn : ∀ inner, items.lookup n ≠ some (.directory inner)) (content : Text) :
    d.writeText p content = .ok (d.put (ns ++ [n]) (.file (Utf8.encode content))) := by
  have haccepted := h.leads.accepted (List.Subset.refl _) h.size
  obtain ⟨s, before, hsteps, hpart, hplain, hbefore⟩ := h.exists_steps
  have hdirectory : (items.lookup n).any Entry.isDirectory = false := by
    cases hlookup : items.lookup n with
    | none => rfl
    | some e =>
        cases e with
        | file b => rfl
        | directory inner => exact absurd hlookup (hn inner)
  simp [writeText, haccepted, h.ending, hsteps, walkInto_of_directory hbefore he, hpart,
    hplain.not_tooLong, hdirectory]

end Disk

end Emend
