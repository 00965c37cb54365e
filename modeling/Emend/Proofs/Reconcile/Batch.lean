import Emend.Proofs.Reconcile.Landing
import Emend.Proofs.Reconcile.Substitution

namespace Emend

open Text

namespace Change

def LeftOf (content : Text) (c d : Change) : Prop :=
  ∃ before between rest, content = before ++ c.search ++ between ++ d.search ++ rest

/-- Every block stands in the text once, and no two of them overlap. -/
structure Separate (content : Text) (cs : List Change) : Prop where
  ne_nil : ∀ c ∈ cs, c.search ≠ []
  once : ∀ c ∈ cs, occurrences c.search content = 1
  apart : cs.Pairwise fun c d => LeftOf content c d ∨ LeftOf content d c

/-- What the applier finds first in the text that other changes have left is the block's own place,
or it can be moved there without a difference. -/
def Lands (content : Text) (done : List Change) (c : Change) : Prop :=
  ∃ before rest first gap, OccursAt c.search content before rest ∧
    substitute done 0 before = first ++ gap ∧
    IsFirst c.search (substitute done 0 content) first ∧ SlidesAlike gap c.search c.replacement

variable {content : Text} {c d : Change} {cs done later : List Change}

theorem LeftOf.length_le (h : LeftOf content c d) (hc : occurrences c.search content = 1)
    (hd : occurrences d.search content = 1) {before rest before' rest' : Text}
    (ho : OccursAt c.search content before rest) (ho' : OccursAt d.search content before' rest') :
    before.length + c.search.length ≤ before'.length := by
  obtain ⟨leading, between, trailing, hcontent⟩ := h
  have hplace : OccursAt c.search content leading (between ++ d.search ++ trailing) := by
    rw [OccursAt, hcontent]
    simp only [List.append_assoc]
  have hplace' : OccursAt d.search content (leading ++ c.search ++ between) trailing := hcontent
  obtain ⟨rfl, -⟩ := ho.eq_of_occurrences hplace hc
  obtain ⟨rfl, -⟩ := ho'.eq_of_occurrences hplace' hd
  simp only [List.length_append]
  omega

section

variable (hc : occurrences c.search content = 1) {before rest : Text}
  (ho : OccursAt c.search content before rest)

include hc ho

theorem respects_self : Respects c.search content before c.search := by
  intro other rest' hother
  obtain ⟨rfl, -⟩ := hother.eq_of_occurrences ho hc
  exact .inr (.inr ⟨rfl, rfl⟩)

theorem absent_before (hne : c.search ≠ []) : Absent c.search before := by
  have hpos := List.length_pos_iff.2 hne
  have hcontent : content = before ++ (c.search ++ rest) := ho.trans (List.append_assoc ..)
  apply absent_of_end
  rw [← hcontent]
  intro other rest' hother
  obtain ⟨rfl, -⟩ := hother.eq_of_occurrences ho hc
  omega

theorem absent_after (hne : c.search ≠ []) : Absent c.search rest := by
  have hpos := List.length_pos_iff.2 hne
  have hcontent : content = before ++ c.search ++ rest := ho
  apply absent_of_start
  rw [← hcontent]
  intro other rest' hother
  obtain ⟨rfl, -⟩ := hother.eq_of_occurrences ho hc
  rw [List.length_append]
  omega

variable (hd : occurrences d.search content = 1)

include hd

theorem respects_of_apart (h : LeftOf content d c ∨ LeftOf content c d) :
    Respects d.search content before c.search := by
  intro other rest' hother
  rcases h with h | h
  · exact .inl (h.length_le hd hc hother ho)
  · exact .inr (.inl (h.length_le hc hd ho hother))

theorem absent_within (hne : d.search ≠ []) (h : LeftOf content d c ∨ LeftOf content c d) :
    Absent d.search c.search := by
  intro other rest' hother
  have hwhole := (hother.prepend before).append rest
  rw [← ho] at hwhole
  have hlen := congrArg List.length hother
  have hpos := List.length_pos_iff.2 hne
  rw [List.length_append, List.length_append] at hlen
  rcases h with h | h
  · have hle := h.length_le hd hc hwhole ho
    rw [List.length_append] at hle
    omega
  · have hle := h.length_le hc hd ho hwhole
    rw [List.length_append] at hle
    omega

theorem LeftOf.absent_before (hne : d.search ≠ []) (h : LeftOf content c d) :
    Absent d.search before := by
  have hpos := List.length_pos_iff.2 hne
  have hcontent : content = before ++ (c.search ++ rest) := ho.trans (List.append_assoc ..)
  apply absent_of_end
  rw [← hcontent]
  intro other rest' hother
  have hle := h.length_le hc hd ho hother
  omega

end

structure Place (content : Text) (done : List Change) (c : Change) (before rest : Text) :
    Prop where
  occursAt : OccursAt c.search content before rest
  once : occurrences c.search content = 1
  ne_nil : c.search ≠ []
  respects : ∀ d ∈ done, Respects d.search content before c.search
  absent : ∀ d ∈ done, Absent d.search c.search

theorem Separate.exists_place (h : Separate content (done ++ c :: later)) :
    ∃ before rest, Place content done c before rest := by
  have hmem : c ∈ done ++ c :: later := List.mem_append_right done (List.mem_cons_self ..)
  have hc := h.once c hmem
  obtain ⟨before, rest, ho⟩ := exists_occursAt_of_occurrences (hc.symm ▸ Nat.one_pos)
  have hapart : ∀ d ∈ done, LeftOf content d c ∨ LeftOf content c d := by
    intro d hd
    exact (List.pairwise_append.1 h.apart).2.2 d hd c (List.mem_cons_self ..)
  refine ⟨before, rest, ho, hc, h.ne_nil c hmem, ?_, ?_⟩
  · intro d hd
    exact respects_of_apart hc ho (h.once d (List.mem_append_left _ hd)) (hapart d hd)
  · intro d hd
    have hmem' : d ∈ done ++ c :: later := List.mem_append_left _ hd
    exact absent_within hc ho (h.once d hmem') (h.ne_nil d hmem') (hapart d hd)

namespace Place

variable {before rest : Text} (h : Place content done c before rest)

include h

theorem occursAt_substitute :
    OccursAt c.search (substitute done 0 content) (substitute done 0 before)
      (substitute done 0 rest) := by
  have hrespects := h.respects
  rw [h.occursAt] at hrespects
  rw [OccursAt, h.occursAt, substitute_of_respects hrespects, substitute_of_absent h.absent]

theorem substitute_concat :
    substitute (done ++ [c]) 0 content =
      substitute done 0 before ++ c.replacement ++ substitute done 0 rest := by
  have hrespects : ∀ d ∈ done ++ [c], Respects d.search content before c.search := by
    intro d hd
    rcases List.mem_append.1 hd with hd | hd
    · exact h.respects d hd
    · obtain rfl := List.mem_singleton.1 hd
      exact respects_self h.once h.occursAt
  have hbefore := absent_before h.once h.occursAt h.ne_nil
  have hafter := absent_after h.once h.occursAt h.ne_nil
  rw [h.occursAt] at hrespects
  rw [h.occursAt, substitute_of_respects hrespects, substitute_concat_of_absent hbefore,
    substitute_concat_of_absent hafter, substitute_concat_self h.ne_nil h.absent]

theorem apply_eq_iff :
    c.apply (substitute done 0 content) = .ok (substitute (done ++ [c]) 0 content) ↔
      Lands content done c := by
  rw [h.substitute_concat, apply_eq_ok_splice_iff h.ne_nil h.occursAt_substitute]
  constructor
  · rintro ⟨first, gap, hgap, hfirst, hslides⟩
    exact ⟨before, rest, first, gap, h.occursAt, hgap, hfirst, hslides⟩
  · rintro ⟨before', rest', first, gap, ho, hgap, hfirst, hslides⟩
    obtain ⟨rfl, -⟩ := ho.eq_of_occurrences h.occursAt h.once
    exact ⟨first, gap, hgap, hfirst, hslides⟩

theorem lands_of_isFirst
    (hfirst : IsFirst c.search (substitute done 0 content) (substitute done 0 before)) :
    Lands content done c := by
  refine ⟨before, rest, substitute done 0 before, [], h.occursAt, ?_, hfirst, [], ?_, ?_⟩
  · rw [List.append_nil]
  · rw [List.append_nil, List.nil_append]
  · rw [List.append_nil, List.nil_append]

end Place

section

variable (h : Separate content (done ++ c :: later))

include h

theorem Separate.lands_of_occurrences
    (hone : occurrences c.search (substitute done 0 content) = 1) : Lands content done c := by
  obtain ⟨before, rest, hplace⟩ := h.exists_place
  exact hplace.lands_of_isFirst (isFirst_of_occurrences hplace.occursAt_substitute hone)

theorem Separate.lands_of_leftOf (hleft : ∀ d ∈ done, LeftOf content c d) :
    Lands content done c := by
  obtain ⟨before, rest, hplace⟩ := h.exists_place
  have hsame : substitute done 0 before = before := by
    apply substitute_of_absent
    intro d hd
    have hmem : d ∈ done ++ c :: later := List.mem_append_left _ hd
    exact (hleft d hd).absent_before hplace.once hplace.occursAt (h.once d hmem) (h.ne_nil d hmem)
  have hfirst := isFirst_of_occurrences hplace.occursAt hplace.once
  rw [hplace.occursAt] at hfirst
  have hfirst' := hfirst.congr_rest (substitute done 0 rest)
  apply hplace.lands_of_isFirst
  rw [hplace.occursAt_substitute, hsame]
  exact hfirst'

end

theorem inits_tail_cons {α : Type} (a : α) (as : List α) :
    (a :: as).inits.tail = [a] :: as.inits.tail.map (a :: ·) := by
  cases as with
  | nil => rfl
  | cons b as => rfl

theorem Separate.applyEach_iff (h : Separate content (done ++ cs)) :
    applyEach (substitute done 0 content) cs =
        cs.inits.tail.map (fun ds => .ok (substitute (done ++ ds) 0 content)) ↔
      ∀ ds c later, cs = ds ++ c :: later → Lands content (done ++ ds) c := by
  -- The changes still to come shrink while those applied grow, and the text is always the original
  -- one with the blocks of the latter replaced.
  induction cs generalizing done with
  | nil =>
      constructor
      · intro _ ds c later hnil
        exact absurd hnil.symm (List.append_ne_nil_of_right_ne_nil ds (List.cons_ne_nil c later))
      · intro _
        rfl
  | cons c cs ih =>
      obtain ⟨before, rest, hplace⟩ := h.exists_place
      have h' : Separate content (done ++ [c] ++ cs) := by
        rwa [List.append_assoc]
      have hmap : (cs.inits.tail.map (c :: ·)).map
            (fun ds => (.ok (substitute (done ++ ds) 0 content) : Except ApplyError Text)) =
          cs.inits.tail.map (fun ds => .ok (substitute (done ++ [c] ++ ds) 0 content)) := by
        rw [List.map_map]
        apply List.map_congr_left
        intro ds _
        rw [List.append_assoc]
        rfl
      rw [applyEach, inits_tail_cons, List.map_cons, hmap, List.cons.injEq]
      constructor
      · rintro ⟨happly, hrest⟩ ds d later heq
        rw [happly] at hrest
        cases ds with
        | nil =>
            obtain ⟨rfl, rfl⟩ := List.cons.inj heq
            rw [List.append_nil]
            exact hplace.apply_eq_iff.1 happly
        | cons c' ds =>
            obtain ⟨rfl, rfl⟩ := List.cons.inj heq
            rw [List.append_cons]
            exact (ih h').1 hrest ds d later rfl
      · intro hlands
        have hland := hlands [] c cs rfl
        rw [List.append_nil] at hland
        have happly := hplace.apply_eq_iff.2 hland
        refine ⟨happly, ?_⟩
        rw [happly]
        apply (ih h').2
        intro ds d later heq
        have := hlands (c :: ds) d later (heq ▸ rfl)
        rwa [List.append_cons] at this

/-- The texts after each change, if every change replaces its own block. -/
def expected (content : Text) (cs : List Change) : List (Except ApplyError Text) :=
  cs.inits.tail.map fun done => .ok (substitute done 0 content)

/-- Changes with separate blocks, applied one after another, each replace their own block exactly
when each lands in the text that those before it have left. They do as long as that text holds the
block only once, and they do when they are applied from the bottom of the text up. -/
theorem applyEach_eq_expected_iff (h : Separate content cs) :
    (applyEach content cs = expected content cs ↔
      ∀ done c later, cs = done ++ c :: later → Lands content done c) ∧
    ((∀ done c later, cs = done ++ c :: later →
        occurrences c.search (substitute done 0 content) = 1) →
      applyEach content cs = expected content cs) ∧
    ((cs.Pairwise fun c d => LeftOf content d c) → applyEach content cs = expected content cs) := by
  have hstart : substitute [] 0 content = content := substitute_of_absent nofun
  have hiff : applyEach content cs = expected content cs ↔
      ∀ done c later, cs = done ++ c :: later → Lands content done c := by
    have hrun := @Separate.applyEach_iff content cs [] h
    rwa [hstart] at hrun
  refine ⟨hiff, ?_, ?_⟩
  · intro hone
    apply hiff.2
    rintro done c later rfl
    exact h.lands_of_occurrences (hone done c later rfl)
  · intro hup
    apply hiff.2
    rintro done c later rfl
    apply h.lands_of_leftOf
    intro d hd
    exact (List.pairwise_append.1 hup).2.2 d hd c (List.mem_cons_self ..)

end Change

open Change

def twoLetterFile : Snapshot := ⟨"a.txt".toList, "x\ny\n".toList⟩

def firstLetterEdit : Change := ⟨"a.txt".toList, "x".toList, "y".toList⟩

def secondLetterEdit : Change := ⟨"a.txt".toList, "y".toList, "w".toList⟩

theorem leftOf_letterEdits :
    LeftOf twoLetterFile.content firstLetterEdit secondLetterEdit :=
  ⟨[], "\n".toList, "\n".toList, rfl⟩

theorem separate_letterEdits :
    Separate twoLetterFile.content [firstLetterEdit, secondLetterEdit] where
  ne_nil := by decide
  once := by decide
  apart := List.pairwise_pair.2 (.inl leftOf_letterEdits)

theorem separate_letterEdits_up :
    Separate twoLetterFile.content [secondLetterEdit, firstLetterEdit] where
  ne_nil := by decide
  once := by decide
  apart := List.pairwise_pair.2 (.inr leftOf_letterEdits)

theorem applyEach_letterEdits_up :
    applyEach twoLetterFile.content [secondLetterEdit, firstLetterEdit] =
      [.ok "x\nw\n".toList, .ok "y\nw\n".toList] :=
  (applyEach_eq_expected_iff separate_letterEdits_up).2.2
    (List.pairwise_pair.2 leftOf_letterEdits)

theorem changes_letterEdits :
    (reconcileChanges (.standard : ReconcilePolicy Float) .unifiedDiff [twoLetterFile]
      [firstLetterEdit, secondLetterEdit]).changes = [firstLetterEdit, secondLetterEdit] := by
  have hfirst : reconcileChange (.standard : ReconcilePolicy Float) .unifiedDiff [twoLetterFile]
      firstLetterEdit = .ok firstLetterEdit :=
    reconcileChange_of_wins _ _ twoLetterFile _ ⟨0, 0⟩ standard_isFinite (by decide) (by decide)
      (FileSet.resolve_of_get? (by decide)) (by decide) (by decide +kernel) (by decide +kernel)
      (by decide +kernel) (by decide)
  have hsecond : reconcileChange (.standard : ReconcilePolicy Float) .unifiedDiff [twoLetterFile]
      secondLetterEdit = .ok secondLetterEdit :=
    reconcileChange_of_wins _ _ twoLetterFile _ ⟨1, 1⟩ standard_isFinite (by decide) (by decide)
      (FileSet.resolve_of_get? (by decide)) (by decide) (by decide +kernel) (by decide +kernel)
      (by decide +kernel) (by decide)
  have hfilter : [firstLetterEdit, secondLetterEdit].filter (!·.isNoop) =
      [firstLetterEdit, secondLetterEdit] := by decide
  rw [reconcileChange] at hfirst hsecond
  rw [reconcileChanges, placements, hfilter]
  simp [Reconciliation.ofPlacements, hfirst, hsecond, Except.toOption]

/-- Not all edits of one response leave each other alone. -/
theorem not_forall_getLast?_applyEach :
    ¬∀ (p : ReconcilePolicy Float) (format : EditFormat) (files : FileSet) (file : Snapshot)
      (candidates cs : List Change), p.matcher.IsFinite → files.get? file.path = some file →
      (reconcileChanges p format files candidates).changes = cs → cs ≠ [] →
      (∀ c ∈ cs, c.path = file.path) → Separate file.content cs →
      (applyEach file.content cs).getLast? = some (.ok (substitute cs 0 file.content)) := by
  intro h
  have hlast := h _ _ _ twoLetterFile _ _ standard_isFinite (by decide) changes_letterEdits
    (by decide) (by decide) separate_letterEdits
  have hstray : (applyEach twoLetterFile.content [firstLetterEdit, secondLetterEdit]).getLast? =
      some (.ok "w\ny\n".toList) := rfl
  rw [hstray] at hlast
  exact absurd (Except.ok.inj (Option.some.inj hlast)) (by decide)

end Emend
