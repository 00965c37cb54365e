import Emend.Text.Basic
import Mathlib.Data.List.Basic
import Mathlib.Data.List.Infix
import Mathlib.Data.List.TakeWhile

namespace Emend.Text

variable {s t : Text}

theorem blank_append (s t : Text) : (s ++ t).blank = (s.blank && t.blank) := by
  simp [blank]

theorem head?_dropWhile {p : Char → Bool} {c : Char} (hc : (s.dropWhile p).head? = some c) :
    p c = false := by
  have hhead := List.head?_dropWhile_not p s
  rw [hc] at hhead
  simpa using hhead

theorem getLast?_dropEndWhile {p : Char → Bool} {c : Char}
    (hc : (s.dropEndWhile p).getLast? = some c) : p c = false := by
  rw [dropEndWhile, List.getLast?_reverse] at hc
  exact head?_dropWhile hc

theorem exists_append_of_dropEndWhile (p : Char → Bool) (s : Text) :
    ∃ t : Text, (∀ c ∈ t, p c = true) ∧ s = s.dropEndWhile p ++ t := by
  refine ⟨(s.reverse.takeWhile p).reverse, ?_, ?_⟩
  · intro c hc
    exact List.all_eq_true.1 List.all_takeWhile c (List.mem_reverse.1 hc)
  · rw [dropEndWhile, ← List.reverse_append, List.takeWhile_append_dropWhile, List.reverse_reverse]

theorem trimEnd_append_of_blank (h : t.blank = true) : trimEnd (s ++ t) = trimEnd s := by
  rw [trimEnd, trimEnd, dropEndWhile, dropEndWhile, List.reverse_append,
    List.dropWhile_append_of_pos]
  intro c hc
  exact List.all_eq_true.1 h c (List.mem_reverse.1 hc)

theorem trimEnd_eq_self (h : ∀ c, s.getLast? = some c → isBlank c = false) : s.trimEnd = s := by
  rw [trimEnd, dropEndWhile]
  cases hs : s.reverse with
  | nil => rw [← List.reverse_reverse s, hs]; rfl
  | cons c r =>
      have hc : s.getLast? = some c := by rw [← List.head?_reverse, hs]; rfl
      rw [List.dropWhile_cons_of_neg (by simp [h c hc]), ← hs, List.reverse_reverse]

theorem trimEnd_trimEnd (s : Text) : s.trimEnd.trimEnd = s.trimEnd :=
  trimEnd_eq_self fun _ => getLast?_dropEndWhile

theorem trimEnd_eq_nil_of_blank (h : s.trimEnd.blank = true) : s.trimEnd = [] := by
  rw [trimEnd, dropEndWhile] at *
  cases hs : s.reverse.dropWhile isBlank with
  | nil => rfl
  | cons c r =>
      have hc := List.head_dropWhile_not (p := isBlank) (l := s.reverse) (by simp [hs])
      simp only [hs, List.head_cons] at hc
      simp [hs, blank, hc] at h

theorem getLast?_not_blank (h : s.trim = s) {c : Char} (hc : s.getLast? = some c) :
    isBlank c = false := by
  rw [← h] at hc
  exact getLast?_dropEndWhile hc

theorem blank_eq_false_of_trim (h : s.trim = s) (hne : s ≠ []) : s.blank = false := by
  have hlast := getLast?_not_blank h (List.getLast?_eq_some_getLast hne)
  rw [blank, List.all_eq_false]
  exact ⟨_, List.getLast_mem hne, by simp [hlast]⟩

theorem exists_append_of_trim (s : Text) :
    ∃ lead trail : Text, lead.blank = true ∧ trail.blank = true ∧ s = lead ++ s.trim ++ trail := by
  obtain ⟨trail, htrail, hs⟩ := exists_append_of_dropEndWhile isBlank s.trimStart
  refine ⟨s.takeWhile isBlank, trail, List.all_takeWhile, List.all_eq_true.2 htrail, ?_⟩
  rw [List.append_assoc, trim, trimEnd, ← hs, trimStart, List.takeWhile_append_dropWhile]

theorem blank_append_trimStart (s : Text) :
    ∃ lead : Text, lead.blank = true ∧ s = lead ++ s.trimStart :=
  ⟨s.takeWhile isBlank, List.all_takeWhile, List.takeWhile_append_dropWhile.symm⟩

theorem dropEndWhile_isPrefix (p : Char → Bool) (s : Text) : s.dropEndWhile p <+: s := by
  obtain ⟨t, -, hs⟩ := s.exists_append_of_dropEndWhile p
  exact ⟨t, hs.symm⟩

theorem trim_isInfix (s : Text) : s.trim <:+: s :=
  (dropEndWhile_isPrefix isBlank _).isInfix.trans (List.dropWhile_suffix isBlank).isInfix

theorem mem_of_mem_trimStart {c : Char} (h : c ∈ s.trimStart) : c ∈ s :=
  (List.dropWhile_sublist _).subset h

theorem mem_of_mem_trimEnd {c : Char} (h : c ∈ s.trimEnd) : c ∈ s := by
  rw [trimEnd, dropEndWhile, List.mem_reverse] at h
  exact List.mem_reverse.1 ((List.dropWhile_sublist _).subset h)

theorem dropWhile_append {p : Char → Bool} (h : ∀ c, t.head? = some c → p c = false) (s : Text) :
    (s ++ t).dropWhile p = s.dropWhile p ++ t := by
  rw [List.dropWhile_append]
  split
  · rename_i hnil
    rw [List.isEmpty_iff.1 hnil, List.nil_append]
    cases t with
    | nil => rfl
    | cons c t => exact List.dropWhile_cons_of_neg (by simp [h c rfl])
  · rfl

theorem dropEndWhile_append {p : Char → Bool} (h : ∀ c, s.getLast? = some c → p c = false)
    (t : Text) : dropEndWhile p (s ++ t) = s ++ t.dropEndWhile p := by
  have hstart := dropWhile_append (p := p) (t := s.reverse) (by simpa using h) t.reverse
  rw [dropEndWhile, List.reverse_append, hstart]
  simp [dropEndWhile]

theorem trimStart_append (h : ∀ c, t.head? = some c → isBlank c = false) (s : Text) :
    trimStart (s ++ t) = s.trimStart ++ t := dropWhile_append h s

/-- What is dropped in front of a text that starts otherwise does not depend on what follows it. -/
theorem dropWhile_append_append {p : Char → Bool} (before after : Text) (hne : s ≠ [])
    (hhead : ∀ c, s.head? = some c → p c = false) :
    (before ++ s ++ after).dropWhile p = before.dropWhile p ++ s ++ after := by
  rw [List.append_assoc, dropWhile_append, ← List.append_assoc]
  rw [List.head?_append_of_ne_nil _ hne]
  exact hhead

theorem dropEndWhile_append_append {p : Char → Bool} (before after : Text) (hne : s ≠ [])
    (hlast : ∀ c, s.getLast? = some c → p c = false) :
    (before ++ s ++ after).dropEndWhile p = before ++ s ++ after.dropEndWhile p := by
  rw [dropEndWhile_append]
  rw [List.getLast?_append_of_ne_nil _ hne]
  exact hlast

/-- A text with no blank at its ends is kept as it is, whatever stands around it. -/
theorem trim_append_append (before after : Text) (hne : s ≠ [])
    (hhead : ∀ c, s.head? = some c → isBlank c = false)
    (hlast : ∀ c, s.getLast? = some c → isBlank c = false) :
    (before ++ s ++ after).trim = before.trimStart ++ s ++ after.trimEnd := by
  rw [trim, trimStart, dropWhile_append_append before after hne hhead]
  exact dropEndWhile_append_append _ after hne hlast

end Emend.Text
