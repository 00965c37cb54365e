import Emend.Text.Search
import Mathlib.Data.List.Basic
import Mathlib.Data.List.Infix

namespace Emend.Text

/-- `pat` occurs in `s` with `before` in front of it and `rest` behind it. -/
def OccursAt (pat s before rest : Text) : Prop := s = before ++ pat ++ rest

/-- The occurrence behind `before` is the leftmost one. -/
def IsFirst (pat s before : Text) : Prop :=
  ∀ other rest, OccursAt pat s other rest → before.length ≤ other.length

/-- The number of places where `pat` occurs, overlapping ones included. -/
def occurrences (pat s : Text) : Nat := s.tails.countP (startsWith · pat)

theorem after?_eq_some_iff {pat s rest : Text} : after? pat s = some rest ↔ s = pat ++ rest :=
  ⟨eq_append_of_after?, fun h => h ▸ after?_append pat rest⟩

theorem startsWith_iff {s pat : Text} : s.startsWith pat = true ↔ ∃ rest, s = pat ++ rest := by
  simp [startsWith, Option.isSome_iff_exists, after?_eq_some_iff]

theorem endsWith_iff {s pat : Text} : s.endsWith pat = true ↔ pat <:+ s := by
  rw [endsWith, startsWith_iff, ← List.reverse_prefix]
  constructor
  · rintro ⟨rest, h⟩
    exact ⟨rest, h.symm⟩
  · rintro ⟨rest, h⟩
    exact ⟨rest, h.symm⟩

theorem after?_eq_none {pat s : Text} (h : after? pat s = none) (rest : Text) :
    s ≠ pat ++ rest := by
  intro hs
  rw [hs, after?_append] at h
  cases h

theorem occursAt_cut? {pat s before rest : Text} (h : cut? pat s = some (before, rest)) :
    OccursAt pat s before rest := eq_append_of_cut? h

theorem isFirst_cut? {pat s before rest : Text} (h : cut? pat s = some (before, rest)) :
    IsFirst pat s before := by
  induction s generalizing before with
  | nil =>
      obtain ⟨_, -, he⟩ := Option.map_eq_some_iff.1 h
      cases he
      exact fun _ _ _ => Nat.zero_le _
  | cons c s ih =>
      cases ha : after? pat (c :: s) with
      | some r =>
          simp only [cut?, ha, Option.some.injEq, Prod.mk.injEq] at h
          obtain ⟨rfl, -⟩ := h
          exact fun _ _ _ => Nat.zero_le _
      | none =>
          simp only [cut?, ha] at h
          obtain ⟨⟨b, r⟩, hr, he⟩ := Option.map_eq_some_iff.1 h
          cases he
          intro other rest' ho
          cases other with
          | nil => exact absurd ho (after?_eq_none ha rest')
          | cons d other =>
              have hs : s = other ++ pat ++ rest' := (List.cons.inj ho).2
              simpa using ih hr other rest' hs

theorem cut?_nil {pat : Text} (h : pat ≠ []) : cut? pat [] = none := by
  cases pat with
  | nil => exact absurd rfl h
  | cons c pat => rfl

theorem cut?_ne_none {pat s before rest : Text} (h : OccursAt pat s before rest) :
    cut? pat s ≠ none := by
  induction s generalizing before with
  | nil =>
      obtain ⟨h, -⟩ := List.append_eq_nil_iff.1 h.symm
      obtain ⟨-, rfl⟩ := List.append_eq_nil_iff.1 h
      simp [cut?, after?]
  | cons c s ih =>
      cases ha : after? pat (c :: s) with
      | some r => simp [cut?, ha]
      | none =>
          cases before with
          | nil => exact absurd h (after?_eq_none ha rest)
          | cons d before =>
              have hs : OccursAt pat s before rest := (List.cons.inj h).2
              simpa [cut?, ha] using ih hs

theorem includes_eq_false_iff {s pat : Text} : s.includes pat = false ↔ cut? pat s = none := by
  rw [includes, Option.isSome_eq_false_iff, Option.isNone_iff_eq_none]

theorem cut?_eq_none_iff {pat s : Text} : cut? pat s = none ↔ ¬pat <:+: s := by
  constructor
  · rintro hcut ⟨before, rest, hs⟩
    exact cut?_ne_none hs.symm hcut
  · intro h
    by_contra hcut
    obtain ⟨⟨before, rest⟩, hcut⟩ := Option.ne_none_iff_exists'.1 hcut
    exact h ⟨before, rest, (eq_append_of_cut? hcut).symm⟩

theorem not_infix_of_cut? {pat s before rest : Text} (hne : pat ≠ [])
    (h : cut? pat s = some (before, rest)) : ¬pat <:+: before := by
  rintro ⟨lead, gap, hbefore⟩
  have hoccurs : OccursAt pat s lead (gap ++ pat ++ rest) := by
    rw [OccursAt, eq_append_of_cut? h, ← hbefore]
    simp
  have hle := isFirst_cut? h lead _ hoccurs
  have hpos := List.length_pos_of_ne_nil hne
  rw [← hbefore, List.length_append, List.length_append] at hle
  omega

theorem not_infix_of_includes {s pat : Text} (h : s.includes pat = false) : ¬pat <:+: s := by
  rintro ⟨before, rest, hs⟩
  exact cut?_ne_none hs.symm (includes_eq_false_iff.1 h)

theorem OccursAt.unique {pat s before other rest rest' : Text} (h : OccursAt pat s before rest)
    (h' : OccursAt pat s other rest') (hl : before.length = other.length) :
    before = other ∧ rest = rest' := by
  rw [OccursAt] at h h'
  rw [h, List.append_assoc, List.append_assoc] at h'
  obtain ⟨hb, hr⟩ := List.append_inj h' hl
  exact ⟨hb, List.append_cancel_left hr⟩

theorem cut?_eq_some_iff {pat s before rest : Text} :
    cut? pat s = some (before, rest) ↔ OccursAt pat s before rest ∧ IsFirst pat s before := by
  constructor
  · exact fun h => ⟨occursAt_cut? h, isFirst_cut? h⟩
  · rintro ⟨ho, hf⟩
    obtain ⟨⟨b, r⟩, hc⟩ := Option.ne_none_iff_exists'.1 (cut?_ne_none ho)
    have hl : b.length = before.length :=
      Nat.le_antisymm (isFirst_cut? hc before rest ho) (hf b r (occursAt_cut? hc))
    obtain ⟨rfl, rfl⟩ := (occursAt_cut? hc).unique ho hl
    exact hc

theorem replaceFirst?_eq_some_iff {pat new s t : Text} :
    replaceFirst? pat new s = some t ↔
      ∃ before rest, OccursAt pat s before rest ∧ IsFirst pat s before ∧
        t = before ++ new ++ rest := by
  simp only [replaceFirst?, Option.map_eq_some_iff, Prod.exists, cut?_eq_some_iff, and_assoc,
    eq_comm (b := t)]

theorem occurrences_cons (pat : Text) (c : Char) (s : Text) :
    occurrences pat (c :: s) = occurrences pat s + if startsWith (c :: s) pat then 1 else 0 := by
  simp [occurrences, List.tails, List.countP_cons]

theorem startsWith_of_occursAt_nil {pat s rest : Text} (h : OccursAt pat s [] rest) :
    startsWith s pat = true := startsWith_iff.2 ⟨rest, h⟩

theorem occurrences_pos {pat s before rest : Text} (h : OccursAt pat s before rest) :
    0 < occurrences pat s := by
  induction before generalizing s with
  | nil => cases s <;> simp [occurrences, List.tails, startsWith_of_occursAt_nil h]
  | cons d before ih =>
      cases s with
      | nil => cases h
      | cons c s =>
          have hs : OccursAt pat s before rest := (List.cons.inj h).2
          rw [occurrences_cons]
          exact Nat.add_pos_left (ih hs) _

theorem two_le_occurrences {pat s before other rest rest' : Text} (h : OccursAt pat s before rest)
    (h' : OccursAt pat s other rest') (hl : other.length < before.length) :
    2 ≤ occurrences pat s := by
  induction before generalizing s other with
  | nil => simp at hl
  | cons d before ih =>
      cases s with
      | nil => cases h
      | cons c s =>
          have hs : OccursAt pat s before rest := (List.cons.inj h).2
          rw [occurrences_cons]
          cases other with
          | nil =>
              have := occurrences_pos hs
              simp only [startsWith_of_occursAt_nil h', if_true]
              omega
          | cons e other =>
              have := ih hs (List.cons.inj h').2 (by simpa using hl)
              omega

theorem isFirst_of_occurrences {pat s before rest : Text} (h : OccursAt pat s before rest)
    (hone : occurrences pat s = 1) : IsFirst pat s before := by
  intro other rest' h'
  by_contra hl
  have := two_le_occurrences h h' (by omega)
  omega

/-- Both texts can be moved past `gap`: what then follows them is the same for both. -/
def SlidesAlike (gap old new : Text) : Prop := ∃ x, gap ++ old = old ++ x ∧ gap ++ new = new ++ x

/-- Of two occurrences the right one is the left one moved past what stands between them. -/
theorem OccursAt.exists_slide {old s before rest leading trailing : Text}
    (h : OccursAt old s before rest) (h' : OccursAt old s leading trailing)
    (hle : before.length ≤ leading.length) :
    ∃ gap x, leading = before ++ gap ∧ rest = x ++ trailing ∧ gap ++ old = old ++ x := by
  obtain ⟨gap, rfl⟩ : ∃ gap, leading = before ++ gap := by
    have hbefore : before <+: s := ⟨old ++ rest, by rw [h, List.append_assoc]⟩
    have hleading : leading <+: s := ⟨old ++ trailing, by rw [h', List.append_assoc]⟩
    obtain ⟨gap, hgap⟩ := List.prefix_of_prefix_length_le hbefore hleading hle
    exact ⟨gap, hgap.symm⟩
  have hsame : old ++ rest = gap ++ old ++ trailing := by
    rw [OccursAt] at h h'
    rw [h] at h'
    simpa using h'
  obtain ⟨x, rfl⟩ : ∃ x, rest = x ++ trailing := by
    have hlen : trailing.length ≤ rest.length := by
      have := congrArg List.length hsame
      simp only [List.length_append] at this
      omega
    have htrailing : trailing <:+ old ++ rest := ⟨gap ++ old, hsame.symm⟩
    obtain ⟨x, hx⟩ :=
      List.suffix_of_suffix_length_le htrailing (List.suffix_append ..) hlen
    exact ⟨x, hx.symm⟩
  refine ⟨gap, x, rfl, rfl, ?_⟩
  rw [← List.append_assoc] at hsame
  exact (List.append_cancel_right hsame).symm

theorem OccursAt.slide {old s before gap x trailing : Text}
    (h : OccursAt old s (before ++ gap) trailing) (hslide : gap ++ old = old ++ x) :
    OccursAt old s before (x ++ trailing) := by
  rw [OccursAt] at *
  rw [h, List.append_assoc before gap old, hslide, List.append_assoc, List.append_assoc,
    List.append_assoc]

/-- Whether an occurrence is the leftmost one is settled by the text up to its end. -/
theorem IsFirst.congr_rest {pat before rest : Text} (h : IsFirst pat (before ++ pat ++ rest) before)
    (rest' : Text) : IsFirst pat (before ++ pat ++ rest') before := by
  intro other after ho
  by_contra hlt
  have hother : other ++ pat <+: before ++ pat ++ rest' := ⟨after, ho.symm⟩
  have hlen : (other ++ pat).length ≤ (before ++ pat).length := by
    rw [List.length_append, List.length_append]
    omega
  obtain ⟨after', hafter⟩ :=
    List.prefix_of_prefix_length_le hother (List.prefix_append (before ++ pat) rest') hlen
  have ho' : OccursAt pat (before ++ pat ++ rest) other (after' ++ rest) := by
    rw [OccursAt, ← hafter, List.append_assoc]
  exact hlt (h other (after' ++ rest) ho')

/-- Replacing the leftmost occurrence does the same as replacing a given one exactly when the old
and the new text slide from the one to the other alike. -/
theorem replace_first_eq_iff {old new s before rest leading trailing : Text}
    (h : OccursAt old s before rest) (hfirst : IsFirst old s before)
    (h' : OccursAt old s leading trailing) :
    before ++ new ++ rest = leading ++ new ++ trailing ↔
      ∃ gap, leading = before ++ gap ∧ SlidesAlike gap old new := by
  obtain ⟨gap, x, rfl, rfl, hold⟩ := h.exists_slide h' (hfirst leading trailing h')
  constructor
  · intro heq
    refine ⟨gap, rfl, x, hold, ?_⟩
    rw [List.append_assoc, List.append_assoc, List.append_assoc] at heq
    have hsplit := List.append_cancel_left heq
    rw [← List.append_assoc, ← List.append_assoc] at hsplit
    exact (List.append_cancel_right hsplit).symm
  · rintro ⟨gap', hgap, x', hold', hnew⟩
    obtain rfl : gap = gap' := List.append_cancel_left hgap
    obtain rfl : x = x' := List.append_cancel_left (hold.symm.trans hold')
    rw [List.append_assoc before gap new, hnew]
    simp

end Emend.Text
