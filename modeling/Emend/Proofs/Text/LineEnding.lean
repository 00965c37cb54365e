import Emend.Proofs.Text.Lines
import Mathlib.Data.List.Infix

namespace Emend.Text

/-- Every line feed of `s` has a carriage return before it when `s` follows `lead`. -/
def CrlfAfter (lead s : Text) : Prop :=
  ∀ before rest, s = before ++ '\n' :: rest → (lead ++ before).getLast? = some '\r'

def IsCrlf (s : Text) : Prop := CrlfAfter [] s

section

variable {lead s t : Text} {c : Char}

theorem crlfAfter_nil : CrlfAfter lead [] := fun _ _ h => by simp at h

theorem crlfAfter_cons :
    CrlfAfter lead (c :: s) ↔
      (c = '\n' → lead.getLast? = some '\r') ∧ CrlfAfter (lead ++ [c]) s := by
  constructor
  · intro h
    refine ⟨?_, fun before rest hs => ?_⟩
    · rintro rfl
      simpa using h [] s rfl
    · simpa using h (c :: before) rest (by rw [hs, List.cons_append])
  · rintro ⟨hc, hs⟩ before rest h
    cases before with
    | nil =>
        obtain ⟨rfl, -⟩ := List.cons.inj h
        simpa using hc rfl
    | cons d before =>
        obtain ⟨rfl, htail⟩ := List.cons.inj h
        simpa using hs before rest htail

theorem crlfAfter_append :
    CrlfAfter lead (s ++ t) ↔ CrlfAfter lead s ∧ CrlfAfter (lead ++ s) t := by
  induction s generalizing lead with
  | nil => simp [crlfAfter_nil]
  | cons c s ih =>
      rw [List.cons_append, crlfAfter_cons, crlfAfter_cons, ih, and_assoc, List.append_assoc,
        List.singleton_append]

theorem crlfAfter_congr {lead' : Text} (h : lead.getLast? = lead'.getLast?) :
    CrlfAfter lead s ↔ CrlfAfter lead' s := by
  have hlast (a : Text) : (lead ++ a).getLast? = (lead' ++ a).getLast? := by
    rw [List.getLast?_append, List.getLast?_append, h]
  simp only [CrlfAfter, hlast]

end

instance decidableCrlfAfter : (lead s : Text) → Decidable (CrlfAfter lead s)
  | _, [] => isTrue crlfAfter_nil
  | lead, c :: s =>
      have := decidableCrlfAfter (lead ++ [c]) s
      decidable_of_iff _ crlfAfter_cons.symm

instance (s : Text) : Decidable (IsCrlf s) := decidableCrlfAfter [] s

section

variable {before old new rest : Text}

/-- What is written, with the one character behind it, decides about the whole. -/
theorem isCrlf_replace_iff (h : IsCrlf (before ++ old ++ rest)) :
    IsCrlf (before ++ new ++ rest) ↔ CrlfAfter before (new ++ rest.take 1) := by
  rw [IsCrlf, crlfAfter_append, crlfAfter_append, List.nil_append] at h ⊢
  obtain ⟨⟨hbefore, -⟩, hrest⟩ := h
  cases rest with
  | nil => simp [hbefore, crlfAfter_nil]
  | cons c rest =>
      have hrest' : CrlfAfter (before ++ new ++ [c]) rest :=
        (crlfAfter_congr (by simp)).1 (crlfAfter_cons.1 hrest).2
      rw [crlfAfter_cons, List.take_succ_cons, List.take_zero, crlfAfter_append, crlfAfter_cons]
      simp only [hbefore, hrest', crlfAfter_nil, true_and, and_true, List.nil_append]

theorem bare_feed_of_replace (h : IsCrlf (before ++ old ++ rest)) {a b : Text}
    (ha : before ++ new ++ rest = a ++ '\n' :: b) :
    a.getLast? = some '\r' ∨
      before.length ≤ a.length ∧ a.length ≤ before.length + new.length := by
  rw [IsCrlf, crlfAfter_append, crlfAfter_append, List.nil_append] at h
  obtain ⟨⟨hbefore, -⟩, hrest⟩ := h
  rcases lt_or_ge a.length before.length with hlt | hge
  · -- The line feed is one of the text in front.
    obtain ⟨x, hx⟩ : a ++ ['\n'] <+: before := by
      have hfront : before <+: a ++ '\n' :: b := ⟨new ++ rest, by rw [← ha, List.append_assoc]⟩
      exact List.prefix_of_prefix_length_le ⟨b, by simp⟩ hfront (by simpa)
    exact .inl (hbefore a x (by simp [← hx]))
  rcases Nat.lt_or_ge (before.length + new.length) a.length with hgt | hle
  · -- It is one of the text behind, and so is the character before it.
    obtain ⟨x, rfl⟩ : before ++ new <+: a :=
      List.prefix_of_prefix_length_le ⟨rest, ha⟩ (List.prefix_append a ('\n' :: b))
        (by simp only [List.length_append]; omega)
    rw [List.append_assoc _ x, List.append_right_inj] at ha
    have hlast := hrest x b ha
    have hne : x ≠ [] := by
      rintro rfl
      simp at hgt
    rw [List.getLast?_append_of_ne_nil _ hne] at hlast ⊢
    exact .inl hlast
  · exact .inr ⟨hge, hle⟩

theorem crlfAfter_iff_of_not_infix {lead s : Text} (h : ¬['\r', '\n'] <:+: s) :
    CrlfAfter lead s ↔
      ∀ a b, s = a ++ '\n' :: b → a = [] ∧ lead.getLast? = some '\r' := by
  constructor
  · intro hcrlf a b hs
    have hlast := hcrlf a b hs
    rcases List.eq_nil_or_concat a with rfl | ⟨init, last, rfl⟩
    · exact ⟨rfl, by simpa using hlast⟩
    · obtain rfl : last = '\r' := by simpa using hlast
      exact absurd ⟨init, b, by simp [hs]⟩ h
  · intro hfirst a b hs
    obtain ⟨rfl, hlast⟩ := hfirst a b hs
    rwa [List.append_nil]

theorem not_infix_append_take {s : Text} (h : ¬['\r', '\n'] <:+: s ++ ['\n']) (rest : Text) :
    ¬['\r', '\n'] <:+: s ++ rest.take 1 := by
  cases rest with
  | nil => exact fun hs => h (hs.trans ⟨[], ['\n'], by simp⟩)
  | cons c rest =>
      rintro ⟨x, y, hxy⟩
      rw [List.take_succ_cons, List.take_zero] at hxy
      rcases List.eq_nil_or_concat y with rfl | ⟨y, d, rfl⟩
      · have hends : (x ++ ['\r']) ++ ['\n'] = s ++ [c] := by simpa using hxy
        obtain ⟨hs, -⟩ := List.append_inj' hends rfl
        exact h ⟨x, [], by simp [← hs]⟩
      · have hends : (x ++ ['\r', '\n'] ++ y) ++ [d] = s ++ [c] := by simpa using hxy
        obtain ⟨hs, -⟩ := List.append_inj' hends rfl
        exact h ⟨x, y ++ ['\n'], by simp [← hs]⟩

end

theorem infix_of_mem_pieces {s l : Text} (h : l ∈ pieces s) : l <:+: s := by
  obtain ⟨as, bs, hs⟩ := List.append_of_mem h
  refine ⟨terminated as, preceded bs, ?_⟩
  rw [← unlines_append_cons, ← hs, unlines_pieces]

theorem start_dropReturn (l : Text) : dropReturn l <+: l := by
  rw [dropReturn]
  split
  · exact List.dropLast_prefix l
  · exact List.prefix_rfl

theorem exists_prefix_of_mem_linesOfPieces {ps : List Text} {l : Text}
    (h : l ∈ linesOfPieces ps) : ∃ m ∈ ps, l <+: m := by
  fun_induction linesOfPieces ps with
  | case1 => cases h
  | case2 => cases h
  | case3 m hne =>
      obtain rfl := List.mem_singleton.1 h
      exact ⟨l, h, List.prefix_rfl⟩
  | case4 m ms hms ih =>
      rcases List.mem_cons.1 h with rfl | h
      · exact ⟨m, List.mem_cons_self, start_dropReturn m⟩
      · obtain ⟨k, hk, hl⟩ := ih h
        exact ⟨k, List.mem_cons_of_mem m hk, hl⟩

theorem exists_piece_of_mem_lines {s l : Text} (h : l ∈ lines s) :
    '\n' ∉ l ∧ l <:+: s := by
  obtain ⟨m, hm, hl⟩ := exists_prefix_of_mem_linesOfPieces h
  exact ⟨fun hfeed => no_feed_of_mem_pieces hm (hl.subset hfeed),
    hl.isInfix.trans (infix_of_mem_pieces hm)⟩

theorem linesOfPieces_append_nil (ls : List Text) :
    linesOfPieces (ls ++ [[]]) = ls.map dropReturn := by
  induction ls with
  | nil => rfl
  | cons l ls ih =>
      rw [List.cons_append, linesOfPieces, ih, List.map_cons]
      simp

theorem pieces_terminated {ls : List Text} (h : ∀ l ∈ ls, '\n' ∉ l) :
    pieces (terminated ls) = ls ++ [[]] := by
  simpa [pieces] using pieces_terminated_append h []

theorem lines_terminated_eq_map {ls : List Text} (h : ∀ l ∈ ls, '\n' ∉ l) :
    lines (terminated ls) = ls.map dropReturn := by
  rw [lines, pieces_terminated h, linesOfPieces_append_nil]

theorem getLast?_dropReturn {l : Text} (h : ¬['\r', '\r'] <:+: l) :
    (dropReturn l).getLast? ≠ some '\r' := by
  rw [dropReturn]
  split
  · rename_i hlast
    intro hinit
    obtain ⟨init, rfl⟩ := List.getLast?_eq_some_iff.1 hlast
    rw [List.dropLast_concat] at hinit
    obtain ⟨start, rfl⟩ := List.getLast?_eq_some_iff.1 hinit
    exact h ⟨start, [], by simp⟩
  · assumption

theorem not_infix_terminated {ls : List Text} (h : ∀ l ∈ ls, IsLine l) :
    ¬['\r', '\n'] <:+: terminated ls := by
  rintro ⟨x, y, hxy⟩
  have hpieces : pieces (x ++ ['\r']) ++ pieces y = ls ++ [[]] := by
    rw [← pieces_append_feed, ← pieces_terminated fun l hl => (h l hl).no_feed, ← hxy]
    simp
  obtain ⟨m, hm, hreturn⟩ :=
    exists_suffix_of_mem_pieces (t := ['\r']) (l := ['\r']) (by simp [pieces]) x
  obtain ⟨init, rfl⟩ := hreturn
  have hline : init ++ ['\r'] ∈ ls ++ [[]] := hpieces ▸ List.mem_append_left _ hm
  rcases List.mem_append.1 hline with hline | hline
  · exact (h _ hline).no_return (by simp)
  · simp at hline

end Emend.Text
