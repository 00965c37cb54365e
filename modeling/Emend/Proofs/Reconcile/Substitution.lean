import Emend.Proofs.Change

namespace Emend

namespace Text

variable {pat s t : Text}

theorem OccursAt.prepend {before rest : Text} (h : OccursAt pat s before rest) (t : Text) :
    OccursAt pat (t ++ s) (t ++ before) rest := by
  rw [OccursAt] at *
  rw [h, List.append_assoc, List.append_assoc, List.append_assoc]

theorem OccursAt.append {before rest : Text} (h : OccursAt pat s before rest) (t : Text) :
    OccursAt pat (s ++ t) before (rest ++ t) := by
  rw [OccursAt] at *
  rw [h, List.append_assoc]

theorem exists_occursAt_of_occurrences (h : 0 < occurrences pat s) :
    ∃ before rest, OccursAt pat s before rest := by
  obtain ⟨tail, htail, hstarts⟩ := List.countP_pos_iff.1 h
  obtain ⟨before, rfl⟩ := (List.mem_tails _ _).1 htail
  obtain ⟨rest, rfl⟩ := startsWith_iff.1 hstarts
  exact ⟨before, rest, (List.append_assoc before pat rest).symm⟩

theorem OccursAt.eq_of_occurrences {before rest other rest' : Text}
    (h : OccursAt pat s before rest) (h' : OccursAt pat s other rest')
    (hone : occurrences pat s = 1) : before = other ∧ rest = rest' := by
  apply h.unique h'
  apply Nat.le_antisymm
  · exact isFirst_of_occurrences h hone other rest' h'
  · exact isFirst_of_occurrences h' hone before rest h

def Absent (pat s : Text) : Prop := ∀ before rest, ¬OccursAt pat s before rest

theorem Absent.startsWith_eq_false (h : Absent pat s) : startsWith s pat = false := by
  rw [Bool.eq_false_iff]
  intro hstarts
  obtain ⟨rest, hrest⟩ := startsWith_iff.1 hstarts
  exact h [] rest hrest

theorem startsWith_append (h : pat.length ≤ s.length) :
    startsWith (s ++ t) pat = startsWith s pat := by
  rw [Bool.eq_iff_iff, startsWith_iff, startsWith_iff]
  constructor
  · rintro ⟨rest, hrest⟩
    have hpat : pat <+: s ++ t := ⟨rest, hrest.symm⟩
    obtain ⟨rest', hrest'⟩ := List.prefix_of_prefix_length_le hpat (List.prefix_append s t) h
    exact ⟨rest', hrest'.symm⟩
  · rintro ⟨rest, rfl⟩
    exact ⟨rest ++ t, List.append_assoc pat rest t⟩

theorem Absent.tail {a : Char} (h : Absent pat (a :: s)) : Absent pat s := by
  intro before rest ho
  exact h (a :: before) rest (ho.prepend [a])

theorem absent_of_end (h : ∀ before rest, OccursAt pat (s ++ t) before rest →
    s.length < before.length + pat.length) : Absent pat s := by
  intro before rest ho
  have hend := h before (rest ++ t) (ho.append t)
  have hlen := congrArg List.length ho
  rw [List.length_append, List.length_append] at hlen
  omega

theorem absent_of_start (h : ∀ before rest, OccursAt pat (s ++ t) before rest →
    before.length < s.length) : Absent pat t := by
  intro before rest ho
  have hstart := h (s ++ before) rest (ho.prepend s)
  rw [List.length_append] at hstart
  omega

def Straddles (pat s t : Text) : Prop :=
  ∃ before rest, OccursAt pat (s ++ t) before rest ∧ before.length < s.length ∧
    s.length < before.length + pat.length

theorem Straddles.cons {a : Char} (h : Straddles pat s t) : Straddles pat (a :: s) t := by
  obtain ⟨before, rest, ho, hstart, hend⟩ := h
  refine ⟨a :: before, rest, ho.prepend [a], ?_, ?_⟩
  · rw [List.length_cons, List.length_cons]
    omega
  · rw [List.length_cons, List.length_cons]
    omega

theorem length_le_of_startsWith (h : startsWith s pat = true) : pat.length ≤ s.length := by
  obtain ⟨rest, rfl⟩ := startsWith_iff.1 h
  rw [List.length_append]
  omega

theorem startsWith_append_of_not_straddles {a : Char} (h : ¬Straddles pat (a :: s) t) :
    startsWith (a :: s ++ t) pat = startsWith (a :: s) pat := by
  by_cases hle : pat.length ≤ (a :: s).length
  · exact startsWith_append hle
  · have hshort : startsWith (a :: s) pat = false := by
      rw [Bool.eq_false_iff]
      exact fun hstarts => hle (length_le_of_startsWith hstarts)
    rw [hshort, Bool.eq_false_iff]
    intro hstarts
    obtain ⟨rest, hrest⟩ := startsWith_iff.1 hstarts
    apply h
    refine ⟨[], rest, hrest, Nat.succ_pos _, ?_⟩
    rw [List.length_nil]
    omega

/-- Every occurrence of `pat` lies on one side of the place of `block` behind `before`, or it is
that place. -/
def Respects (pat content before block : Text) : Prop :=
  ∀ other rest, OccursAt pat content other rest →
    other.length + pat.length ≤ before.length ∨ before.length + block.length ≤ other.length ∨
      other.length = before.length ∧ pat.length = block.length

theorem Respects.not_straddles_left {before block rest : Text}
    (h : Respects pat (before ++ block ++ rest) before block) :
    ¬Straddles pat before (block ++ rest) := by
  rintro ⟨other, rest', ho, hstart, hend⟩
  rw [← List.append_assoc] at ho
  have := h other rest' ho
  omega

theorem Respects.not_straddles_right {before block rest : Text}
    (h : Respects pat (before ++ block ++ rest) before block) : ¬Straddles pat block rest := by
  rintro ⟨other, rest', ho, hstart, hend⟩
  have hmoved := ho.prepend before
  rw [← List.append_assoc] at hmoved
  have := h _ _ hmoved
  rw [List.length_append] at this
  omega

end Text

namespace Change

open Text

/-- The text with every block replaced where it stands. The first `skip` characters are those of a
block that has been replaced already. -/
def substitute (cs : List Change) : (skip : Nat) → Text → Text
  | _, [] => []
  | skip + 1, _ :: s => substitute cs skip s
  | 0, a :: s =>
      match cs.find? fun c => startsWith (a :: s) c.search with
      | some c => c.replacement ++ substitute cs (c.search.length - 1) s
      | none => a :: substitute cs 0 s

variable {cs : List Change} {s t : Text} {c : Change}

theorem substitute_skip (cs : List Change) (s : Text) : substitute cs s.length s = [] := by
  induction s with
  | nil => rfl
  | cons a s ih => exact ih

theorem substitute_append (h : ∀ c ∈ cs, ¬Straddles c.search s t) {skip : Nat}
    (hskip : skip ≤ s.length) :
    substitute cs skip (s ++ t) = substitute cs skip s ++ substitute cs 0 t := by
  induction s generalizing skip with
  | nil =>
      obtain rfl : skip = 0 := Nat.le_zero.1 hskip
      rfl
  | cons a s ih =>
      have htail : ∀ c ∈ cs, ¬Straddles c.search s t := by
        intro c hc hstraddles
        exact h c hc hstraddles.cons
      cases skip with
      | succ skip => exact ih htail (Nat.le_of_succ_le_succ hskip)
      | zero =>
          have hfind : (cs.find? fun c => startsWith (a :: s ++ t) c.search) =
              cs.find? fun c => startsWith (a :: s) c.search := by
            rw [← List.head?_filter, ← List.head?_filter]
            congr 1
            apply List.filter_congr
            intro c hc
            exact startsWith_append_of_not_straddles (h c hc)
          rw [List.cons_append] at hfind ⊢
          rw [substitute, substitute, hfind]
          cases hc : cs.find? fun c => startsWith (a :: s) c.search with
          | none =>
              dsimp only
              rw [ih htail (Nat.zero_le _), List.cons_append]
          | some c =>
              have hstarts := List.find?_some (p := fun c : Change => startsWith (a :: s) c.search) hc
              have hle := length_le_of_startsWith hstarts
              rw [List.length_cons] at hle
              dsimp only
              rw [ih htail (by omega), List.append_assoc]

theorem find?_eq_none_of_absent (h : ∀ c ∈ cs, Absent c.search s) :
    (cs.find? fun c => startsWith s c.search) = none := by
  rw [List.find?_eq_none]
  intro c hc
  rw [(h c hc).startsWith_eq_false]
  exact Bool.false_ne_true

theorem substitute_of_absent (h : ∀ c ∈ cs, Absent c.search s) : substitute cs 0 s = s := by
  induction s with
  | nil => rfl
  | cons a s ih =>
      have htail : ∀ c ∈ cs, Absent c.search s := by
        intro c hc
        exact (h c hc).tail
      rw [substitute, find?_eq_none_of_absent h]
      dsimp only
      rw [ih htail]

theorem substitute_concat_of_absent (h : Absent c.search s) (skip : Nat) :
    substitute (cs ++ [c]) skip s = substitute cs skip s := by
  induction s generalizing skip with
  | nil =>
      rw [substitute, substitute]
  | cons a s ih =>
      cases skip with
      | succ skip => exact ih h.tail skip
      | zero =>
          rw [substitute, substitute, List.find?_append, List.find?_singleton,
            h.startsWith_eq_false, if_neg Bool.false_ne_true, Option.or_none]
          cases cs.find? fun c => startsWith (a :: s) c.search with
          | none =>
              dsimp only
              rw [ih h.tail]
          | some d =>
              dsimp only
              rw [ih h.tail]

theorem substitute_concat_self (hne : c.search ≠ []) (h : ∀ d ∈ cs, Absent d.search c.search) :
    substitute (cs ++ [c]) 0 c.search = c.replacement := by
  obtain ⟨a, s, hs⟩ := List.exists_cons_of_ne_nil hne
  have hnone := find?_eq_none_of_absent h
  have hself : startsWith c.search c.search = true :=
    startsWith_iff.2 ⟨[], (List.append_nil c.search).symm⟩
  have hlen : c.search.length - 1 = s.length := by
    rw [hs, List.length_cons, Nat.add_sub_cancel]
  rw [hs] at hnone hself ⊢
  rw [substitute, List.find?_append, hnone, List.find?_singleton, hs, hself, if_pos rfl]
  dsimp only [Option.none_or]
  rw [hlen, substitute_skip, List.append_nil]

/-- Around a place that every block respects, the text is replaced in three parts. -/
theorem substitute_of_respects {before block rest : Text}
    (h : ∀ c ∈ cs, Respects c.search (before ++ block ++ rest) before block) :
    substitute cs 0 (before ++ block ++ rest) =
      substitute cs 0 before ++ substitute cs 0 block ++ substitute cs 0 rest := by
  have hleft : ∀ c ∈ cs, ¬Straddles c.search before (block ++ rest) := by
    intro c hc
    exact (h c hc).not_straddles_left
  have hright : ∀ c ∈ cs, ¬Straddles c.search block rest := by
    intro c hc
    exact (h c hc).not_straddles_right
  calc substitute cs 0 (before ++ block ++ rest)
      = substitute cs 0 (before ++ (block ++ rest)) := by rw [List.append_assoc]
    _ = substitute cs 0 before ++ substitute cs 0 (block ++ rest) :=
        substitute_append hleft (Nat.zero_le _)
    _ = substitute cs 0 before ++ (substitute cs 0 block ++ substitute cs 0 rest) := by
        rw [substitute_append hright (Nat.zero_le _)]
    _ = substitute cs 0 before ++ substitute cs 0 block ++ substitute cs 0 rest := by
        rw [List.append_assoc]

end Change

end Emend
