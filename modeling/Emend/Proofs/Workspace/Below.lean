import Emend.Proofs.Workspace.Path

namespace Emend

variable {ps : List Part} {root at_ ns : List Name} {p : Path}

namespace Path

/-- The parts climb at most so many directories above where they start. -/
def Inward : Nat → List Part → Prop
  | _, [] => True
  | depth, .name _ :: ps => Inward (depth + 1) ps
  | 0, .up :: _ => False
  | depth + 1, .up :: ps => Inward depth ps

theorem Inward.append_left {depth : Nat} {qs : List Part} (h : Inward depth (ps ++ qs)) :
    Inward depth ps := by
  induction ps generalizing depth with
  | nil => trivial
  | cons part ps ih =>
      cases part with
      | name n => exact ih h
      | up =>
          cases depth with
          | zero => exact h
          | succ depth => exact ih h

theorem inward_of_up_notMem {depth : Nat} (h : Part.up ∉ ps) : Inward depth ps := by
  induction ps generalizing depth with
  | nil => trivial
  | cons part ps ih =>
      rw [List.mem_cons, not_or] at h
      cases part with
      | name n => exact ih h.2
      | up => exact absurd rfl h.1

theorem follow_append (at_ : List Name) (ps qs : List Part) :
    follow at_ (ps ++ qs) = follow (follow at_ ps) qs := by
  induction ps generalizing at_ with
  | nil => rfl
  | cons part ps ih => cases part <;> exact ih _

theorem follow_names (at_ ns : List Name) (ps : List Part) :
    follow at_ (ns.map Part.name ++ ps) = follow (at_ ++ ns) ps := by
  induction ns generalizing at_ with
  | nil => rw [List.append_nil]; rfl
  | cons n ns ih =>
      rw [List.map_cons, List.cons_append, follow, ih, List.append_assoc]
      rfl

theorem follow_of_inward (root : List Name) (h : Inward at_.length ps) :
    follow (root ++ at_) ps = root ++ follow at_ ps := by
  induction ps generalizing at_ with
  | nil => rfl
  | cons part ps ih =>
      cases part with
      | name n =>
          rw [follow, follow, List.append_assoc]
          exact ih (by rwa [List.length_append, List.length_singleton])
      | up =>
          rcases List.eq_nil_or_concat at_ with rfl | ⟨init, last, rfl⟩
          · exact absurd h id
          · rw [List.length_concat] at h
            rw [List.concat_eq_append, follow, follow, ← List.append_assoc, List.dropLast_concat,
              List.dropLast_concat]
            exact ih h

theorem length_follow_of_up_notMem (h : Part.up ∉ ps) (at_ : List Name) :
    (follow at_ ps).length = at_.length + ps.length := by
  induction ps generalizing at_ with
  | nil => rfl
  | cons part ps ih =>
      rw [List.mem_cons, not_or] at h
      cases part with
      | name n =>
          rw [follow, ih h.2, List.length_append, List.length_singleton, List.length_cons]
          omega
      | up => exact absurd rfl h.1

theorem follow_of_not_inward (n m : Name) (h : ¬Inward at_.length ps) :
    follow ([n] ++ at_) ps = follow ([m] ++ at_) ps := by
  induction ps generalizing at_ with
  | nil => exact absurd trivial h
  | cons part ps ih =>
      cases part with
      | name k =>
          rw [follow, follow, List.append_assoc, List.append_assoc]
          exact ih (by rwa [List.length_append, List.length_singleton])
      | up =>
          rcases List.eq_nil_or_concat at_ with rfl | ⟨init, last, rfl⟩
          · rfl
          · rw [List.length_concat] at h
            rw [List.concat_eq_append, follow, follow, ← List.append_assoc, ← List.append_assoc,
              List.dropLast_concat, List.dropLast_concat]
            exact ih h

/-- The path goes down to the directory, and from there on it stays below. -/
def StaysBelow (root : List Name) (p : Path) : Prop :=
  ∃ ps, (p.inside root).parts = root.map Part.name ++ ps ∧ Inward 0 ps ∧ follow [] ps ≠ []

theorem StaysBelow.liesBelow (h : p.StaysBelow root) : p.LiesBelow root := by
  obtain ⟨ps, hparts, hinward, hne⟩ := h
  refine ⟨follow [] ps, hne, ?_⟩
  have hfollow : follow (root ++ []) ps = root ++ follow [] ps := follow_of_inward root hinward
  rw [List.append_nil] at hfollow
  rw [hparts, follow_names, List.nil_append, hfollow]

theorem StaysBelow.exists_steps (h : p.StaysBelow root) :
    ∃ base steps s, (p.inside root).steps = base ++ (steps ++ [s]) ∧
      base.map Step.part = root.map Part.name ∧ Inward 0 ((steps ++ [s]).map Step.part) := by
  obtain ⟨ps, hparts, hinward, hne⟩ := h
  obtain ⟨base, steps, hsteps, hbase, rfl⟩ := List.map_eq_append_iff.1 hparts
  rcases List.eq_nil_or_concat steps with rfl | ⟨steps, s, rfl⟩
  · exact absurd rfl hne
  · rw [List.concat_eq_append] at hsteps hinward
    exact ⟨base, steps, s, hsteps, hbase, hinward⟩

/-- The path is relative and has nothing but names. -/
structure Descends (p : Path) : Prop where
  relative : p.absolute = false
  names : Part.up ∉ p.parts
  ne_nil : p.parts ≠ []

instance (p : Path) : Decidable p.Descends :=
  decidable_of_iff (p.absolute = false ∧ Part.up ∉ p.parts ∧ p.parts ≠ [])
    ⟨fun ⟨h, h', h''⟩ => ⟨h, h', h''⟩, fun h => ⟨h.relative, h.names, h.ne_nil⟩⟩

theorem parts_inside (hroot : ∀ n ∈ root, PlainName n) (h : p.absolute = false) :
    (p.inside root).parts = root.map Part.name ++ p.parts := by
  rw [inside, if_neg (by simp [h]), parts]
  simp only
  rw [List.map_append, parts_ofNames hroot, List.map_map]
  rfl

/-- The path is relative, never climbs above where it starts and does not end there. -/
structure Inner (p : Path) : Prop where
  relative : p.absolute = false
  inward : Inward 0 p.parts
  ne_nil : follow [] p.parts ≠ []

theorem Inner.staysBelow (h : p.Inner) (hroot : ∀ n ∈ root, PlainName n) : p.StaysBelow root :=
  ⟨p.parts, parts_inside hroot h.relative, h.inward, h.ne_nil⟩

theorem Descends.inner (h : p.Descends) : p.Inner := by
  refine ⟨h.relative, inward_of_up_notMem h.names, fun hnil => ?_⟩
  have hlength := length_follow_of_up_notMem h.names []
  rw [hnil] at hlength
  exact h.ne_nil (List.eq_nil_of_length_eq_zero (by simpa using hlength.symm))

theorem liesBelow_iff :
    (∀ root : List Name, (∀ n ∈ root, PlainName n) → p.LiesBelow root) ↔ p.Inner := by
  constructor
  · intro h
    -- two directories beside each other tell a path that leaves both
    have hplain : ∀ n ∈ ([['a'], ['b']] : List Name), PlainName n := by decide
    obtain ⟨rest, -, ha⟩ := h [['a']] fun n hn => hplain n (by simp_all)
    obtain ⟨rest', -, hb⟩ := h [['b']] fun n hn => hplain n (by simp_all)
    have hrelative : p.absolute = false := by
      by_contra habsolute
      rw [inside, if_pos (by simpa using habsolute)] at ha hb
      rw [ha] at hb
      cases hb
    rw [parts_inside (fun n hn => hplain n (by simp_all)) hrelative, follow_names,
      List.nil_append] at ha hb
    refine ⟨hrelative, ?_, ?_⟩
    · by_contra hinward
      have hsame : follow ([['a']] ++ []) p.parts = follow ([['b']] ++ []) p.parts :=
        follow_of_not_inward ['a'] ['b'] hinward
      rw [List.append_nil, List.append_nil, ha, hb] at hsame
      cases hsame
    · obtain ⟨rest'', hne, htop⟩ := h [] (List.forall_mem_nil _)
      rw [parts_inside (List.forall_mem_nil _) hrelative] at htop
      exact fun hnil => hne (htop.symm.trans hnil)
  · exact fun h root hroot => (h.staysBelow hroot).liesBelow

example : ¬(ofText "a/../../b".toList).Inner := fun h => h.inward

end Path

end Emend
