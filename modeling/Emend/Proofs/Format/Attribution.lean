import Emend.Format.Hunk
import Emend.Proofs.Text.Lines
import Mathlib.Data.List.Basic
import Mathlib.Data.List.Induction

namespace Emend

def isDivider (l : Text) : Bool :=
  l.trimStart.startsWith ['+', '+', '+'] || l.trimStart.startsWith ['@', '@']

def isBodyLine (l : Text) : Bool := !l.startsWith ['-', '-', '-'] && !isDivider l

/-- The name that a line gives to what comes after it. -/
def statedName? (l : Text) : Option Text :=
  if l.startsWith ['-', '-', '-'] then none
  else (Text.after? ['+', '+', '+'] l.trimStart).map Text.trim

/-- The file that a line belongs to: the last name stated before it. -/
def owner (before : List Text) : Text := (before.filterMap statedName?).getLast?.getD []

def owned (ls : List Text) (i : Nat) : Bool := ls[i]?.any isBodyLine && owner (ls.take i) != []

/-- The line at place `i` stands behind the last divider and has no file. -/
def stray (ls : List Text) (i : Nat) : Bool :=
  ls[i]?.any isBodyLine && owner (ls.take i) == [] && (ls.drop (i + 1)).all (!isDivider ·)

def linesWhere (ls : List Text) (pick : Nat → Bool) : List Text :=
  (ls.zipIdx.filter fun p => pick p.2).map Prod.fst

def linesAt (ls : List Text) (home : Nat → Nat) (k : Nat) : List Text :=
  linesWhere ls fun i => owned ls i && home i == k

theorem not_isDivider_of_oldFile {l : Text} (h : l.startsWith ['-', '-', '-'] = true) :
    isDivider l = false := by
  cases l with
  | nil => cases h
  | cons c l =>
      by_cases hc : '-' = c
      · subst hc
        rfl
      · simp [Text.startsWith, Text.after?, hc] at h

theorem owner_concat (ls : List Text) (l : Text) :
    owner (ls ++ [l]) = (statedName? l).getD (owner ls) := by
  rw [owner, List.filterMap_append, List.getLast?_append]
  cases hl : statedName? l with
  | none =>
      rw [List.filterMap_cons_none hl]
      rfl
  | some name =>
      rw [List.filterMap_cons_some hl]
      rfl

section

variable {ls : List Text} {l : Text} {i : Nat}

theorem lt_length_of_owned (h : owned ls i = true) : i < ls.length := by
  by_contra hi
  rw [owned, List.getElem?_eq_none (by omega)] at h
  cases h

theorem owner_ne_nil_of_owned (h : owned ls i = true) : owner (ls.take i) ≠ [] := by
  rw [owned, Bool.and_eq_true, bne_iff_ne] at h
  exact h.2

theorem owned_concat_of_lt (h : i < ls.length) : owned (ls ++ [l]) i = owned ls i := by
  rw [owned, owned, List.getElem?_append_left h, List.take_append_of_le_length (by omega)]

theorem owned_concat_length : owned (ls ++ [l]) ls.length = (isBodyLine l && owner ls != []) := by
  rw [owned, List.getElem?_concat_length, List.take_left]
  rfl

theorem owned_concat (h : owned (ls ++ [l]) i = true) :
    i < ls.length ∧ owned ls i = true ∨
      i = ls.length ∧ isBodyLine l = true ∧ owner ls ≠ [] := by
  have hlt := lt_length_of_owned h
  rw [List.length_append, List.length_singleton] at hlt
  by_cases hi : i < ls.length
  · exact .inl ⟨hi, owned_concat_of_lt hi ▸ h⟩
  · obtain rfl : i = ls.length := by omega
    rw [owned_concat_length, Bool.and_eq_true, bne_iff_ne] at h
    exact .inr ⟨rfl, h⟩

theorem linesWhere_concat {pick pick' : Nat → Bool} (h : ∀ i < ls.length, pick' i = pick i) :
    linesWhere (ls ++ [l]) pick' =
      linesWhere ls pick ++ if pick' ls.length then [l] else [] := by
  have hkeep : ls.zipIdx.filter (fun p => pick' p.2) = ls.zipIdx.filter fun p => pick p.2 := by
    apply List.filter_congr
    rintro ⟨m, i⟩ hmem
    have hi := (List.mem_zipIdx hmem).2.1
    exact h i (by omega)
  rw [linesWhere, List.zipIdx_append, List.filter_append, hkeep, List.map_append, linesWhere]
  congr 1
  rw [Nat.zero_add, List.zipIdx_singleton, List.filter_cons, List.filter_nil]
  split <;> rfl

theorem linesWhere_eq_nil {pick : Nat → Bool} (h : ∀ i, pick i = false) :
    linesWhere ls pick = [] := by
  rw [linesWhere, List.map_eq_nil_iff, List.filter_eq_nil_iff]
  exact fun p _ => by rw [h]; exact Bool.false_ne_true

theorem linesAt_concat {home home' : Nat → Nat} (h : ∀ i < ls.length, home' i = home i) (k : Nat) :
    linesAt (ls ++ [l]) home' k =
      linesAt ls home k ++
        if (isBodyLine l && owner ls != []) && home' ls.length == k then [l] else [] := by
  have hkeep : ∀ i < ls.length,
      (owned (ls ++ [l]) i && home' i == k) = (owned ls i && home i == k) := by
    intro i hi
    rw [owned_concat_of_lt hi, h i hi]
  rw [linesAt, linesWhere_concat hkeep, owned_concat_length]
  rfl

theorem linesWhere_stray_concat :
    linesWhere (ls ++ [l]) (stray (ls ++ [l])) =
      if isDivider l then []
      else linesWhere ls (stray ls) ++ if isBodyLine l && owner ls == [] then [l] else [] := by
  have hpick : ∀ i < ls.length, stray (ls ++ [l]) i = (!isDivider l && stray ls i) := by
    intro i hi
    rw [stray, stray, List.getElem?_append_left hi, List.take_append_of_le_length (by omega),
      List.drop_append_of_le_length (by omega), List.all_append, ← Bool.and_assoc, Bool.and_comm]
    simp
  have hlast : stray (ls ++ [l]) ls.length = (isBodyLine l && owner ls == []) := by
    rw [stray, List.getElem?_concat_length, List.take_left, List.drop_eq_nil_of_le (by simp)]
    exact Bool.and_true _
  rw [linesWhere_concat hpick, hlast]
  cases hdivider : isDivider l with
  | true => simp [isBodyLine, hdivider, linesWhere_eq_nil]
  | false => rfl

end

namespace Hunk

structure Reading where
  ended : List Hunk
  path : Text
  text : Text

namespace Reading

def next (r : Reading) (l : Text) : Reading :=
  match DiffMark.ofLine l with
  | .oldFile => r
  | .newFile name => ⟨r.ended ++ closed r.path r.text, name, []⟩
  | .section => ⟨r.ended ++ closed r.path r.text, r.path, []⟩
  | .body => ⟨r.ended, r.path, r.text ++ l ++ ['\n']⟩

def hunks (r : Reading) : List Hunk := r.ended ++ [⟨r.path, r.text⟩]

theorem next_cases (r : Reading) (l : Text) :
    (isBodyLine l = false ∧ isDivider l = false ∧ statedName? l = none ∧ r.next l = r) ∨
    (isBodyLine l = true ∧ isDivider l = false ∧ statedName? l = none ∧
      r.next l = ⟨r.ended, r.path, r.text ++ l ++ ['\n']⟩) ∨
    (isBodyLine l = false ∧ isDivider l = true ∧
      r.next l = ⟨r.ended ++ closed r.path r.text, (statedName? l).getD r.path, []⟩) := by
  by_cases hold : l.startsWith ['-', '-', '-'] = true
  · have hdivider := not_isDivider_of_oldFile hold
    left
    simp [isBodyLine, hdivider, statedName?, next, DiffMark.ofLine, hold]
  · rw [Bool.not_eq_true] at hold
    right
    cases hname : Text.after? ['+', '+', '+'] l.trimStart with
    | some name =>
        have hplus : l.trimStart.startsWith ['+', '+', '+'] = true := by simp [Text.startsWith, hname]
        right
        simp [isBodyLine, isDivider, hplus, statedName?, next, DiffMark.ofLine, hold, hname]
    | none =>
        have hplus : l.trimStart.startsWith ['+', '+', '+'] = false := by
          simp [Text.startsWith, hname]
        by_cases hsection : l.trimStart.startsWith ['@', '@'] = true
        · right
          simp [isBodyLine, isDivider, hplus, statedName?, next, DiffMark.ofLine, hold, hname, hsection]
        · rw [Bool.not_eq_true] at hsection
          left
          simp [isBodyLine, isDivider, hplus, statedName?, next, DiffMark.ofLine, hold, hname, hsection]

theorem hunks_foldl (r : Reading) (ls : List Text) :
    (ls.foldl next r).hunks = r.ended ++ ofLines r.path r.text ls := by
  induction ls generalizing r with
  | nil => rfl
  | cons l ls ih =>
      rw [List.foldl_cons, ih, ofLines, next]
      cases DiffMark.ofLine l with
      | oldFile => rfl
      | newFile name => exact List.append_assoc ..
      | «section» => exact List.append_assoc ..
      | body => rfl

theorem ended_next (r : Reading) (l : Text) :
    (r.next l).ended = if isDivider l then r.ended ++ closed r.path r.text else r.ended := by
  obtain ⟨-, hdivider, -, hnext⟩ | ⟨-, hdivider, -, hnext⟩ | ⟨-, hdivider, hnext⟩ := r.next_cases l
  all_goals rw [hnext, hdivider]; rfl

theorem getElem?_hunks {r : Reading} {k : Nat} {hunk : Hunk} :
    r.hunks[k]? = some hunk ↔
      r.ended[k]? = some hunk ∨ k = r.ended.length ∧ hunk = ⟨r.path, r.text⟩ := by
  rw [hunks]
  by_cases hk : k < r.ended.length
  · rw [List.getElem?_append_left hk]
    exact (or_iff_left fun h => absurd h.1 (by omega)).symm
  · rw [List.getElem?_append_right (by omega), List.getElem?_eq_none (l := r.ended) (by omega),
      List.getElem?_singleton]
    by_cases hlast : k = r.ended.length
    · simp [hlast, eq_comm]
    · simp [hlast, show k - r.ended.length ≠ 0 by omega]

theorem exists_hunk_next {r : Reading} {k : Nat} {hunk : Hunk} (h : r.hunks[k]? = some hunk)
    (hpath : hunk.path ≠ []) (l : Text) :
    ∃ hunk', (r.next l).hunks[k]? = some hunk' ∧ hunk'.path = hunk.path := by
  simp only [getElem?_hunks] at h ⊢
  obtain ⟨-, -, -, hnext⟩ | ⟨-, -, -, hnext⟩ | ⟨-, -, hnext⟩ := r.next_cases l
  · rw [hnext]
    exact ⟨hunk, h, rfl⟩
  · rw [hnext]
    rcases h with h | ⟨rfl, rfl⟩
    · exact ⟨hunk, .inl h, rfl⟩
    · exact ⟨_, .inr ⟨rfl, rfl⟩, rfl⟩
  · rw [hnext]
    rcases h with h | ⟨rfl, rfl⟩
    · obtain ⟨hk, -⟩ := List.getElem?_eq_some_iff.1 h
      exact ⟨hunk, .inl (by rw [List.getElem?_append_left hk, h]), rfl⟩
    · refine ⟨⟨r.path, r.text⟩, .inl ?_, rfl⟩
      rw [closed, if_neg hpath, List.getElem?_concat_length]

theorem getElem?_hunks_of_ended {r : Reading} {k : Nat} {hunk : Hunk}
    (h : (r.ended ++ closed r.path r.text)[k]? = some hunk) : r.hunks[k]? = some hunk := by
  by_cases hpath : r.path = []
  · rw [closed, if_pos hpath, List.append_nil] at h
    exact getElem?_hunks.2 (.inl h)
  · rwa [closed, if_neg hpath] at h

theorem path_eq_nil_of_getElem? {r : Reading} {hunk : Hunk}
    (h : r.hunks[(r.ended ++ closed r.path r.text).length]? = some hunk) : hunk.path = [] := by
  by_cases hpath : r.path = []
  · rw [closed, if_pos hpath, List.append_nil, hunks, List.getElem?_concat_length] at h
    rw [← Option.some.inj h, hpath]
  · rw [closed, if_neg hpath, hunks, List.getElem?_eq_none (Nat.le_refl _)] at h
    cases h

theorem length_ended_le (r : Reading) (ls : List Text) :
    r.ended.length ≤ (ls.foldl next r).ended.length := by
  induction ls generalizing r with
  | nil => exact Nat.le_refl _
  | cons l ls ih =>
      refine Nat.le_trans ?_ (ih (r.next l))
      rw [ended_next]
      split
      · rw [List.length_append]
        exact Nat.le_add_right ..
      · exact Nat.le_refl _

theorem length_ended_eq_iff {r : Reading} (hpath : r.path ≠ []) (ls : List Text) :
    r.ended.length = (ls.foldl next r).ended.length ↔ ∀ l ∈ ls, isDivider l = false := by
  induction ls generalizing r with
  | nil => simp
  | cons l ls ih =>
      rw [List.foldl_cons, List.forall_mem_cons]
      obtain ⟨-, hdivider, -, hnext⟩ | ⟨-, hdivider, -, hnext⟩ | ⟨-, hdivider, hnext⟩ :=
        r.next_cases l
      · rw [hnext, hdivider, ih hpath]
        simp
      · rw [← ih (r := r.next l) (by rw [hnext]; exact hpath), hnext, hdivider]
        simp
      · have hle := length_ended_le (r.next l) ls
        have hmore : (r.next l).ended.length = r.ended.length + 1 := by
          rw [hnext, closed, if_neg hpath, List.length_append, List.length_singleton]
        rw [hdivider]
        exact iff_of_false (by omega) (by simp)

end Reading

def read (ls : List Text) : Reading := ls.foldl Reading.next ⟨[], [], []⟩

theorem ofDiff_eq (diff : Text) : ofDiff diff = (read diff.lines).hunks :=
  (Reading.hunks_foldl ⟨[], [], []⟩ diff.lines).symm

theorem read_append (ls ms : List Text) : read (ls ++ ms) = ms.foldl Reading.next (read ls) :=
  List.foldl_append

theorem read_concat (ls : List Text) (l : Text) : read (ls ++ [l]) = (read ls).next l :=
  List.foldl_concat ..

theorem path_read (ls : List Text) : (read ls).path = owner ls := by
  induction ls using List.reverseRecOn with
  | nil => rfl
  | append_singleton ls l ih =>
      rw [read_concat, owner_concat, ← ih]
      obtain ⟨-, -, hname, hnext⟩ | ⟨-, -, hname, hnext⟩ | ⟨-, -, hnext⟩ := (read ls).next_cases l
      · rw [hnext, hname]
        rfl
      · rw [hnext, hname]
        rfl
      · rw [hnext]

/-- The hunk that a line goes into: as many are ended before it. -/
def homeIn (ls : List Text) (i : Nat) : Nat := (read (ls.take i)).ended.length

theorem homeIn_concat {ls : List Text} {i : Nat} (h : i ≤ ls.length) (l : Text) :
    homeIn (ls ++ [l]) i = homeIn ls i := by
  rw [homeIn, homeIn, List.take_append_of_le_length h]

theorem homeIn_length (ls : List Text) : homeIn ls ls.length = (read ls).ended.length := by
  rw [homeIn, List.take_length]

theorem read_take {i j : Nat} (h : i ≤ j) (ls : List Text) :
    read (ls.take j) = ((ls.take j).drop i).foldl Reading.next (read (ls.take i)) := by
  have hsplit := List.take_append_drop i (ls.take j)
  rw [List.take_take, Nat.min_eq_left h] at hsplit
  rw [← read_append, hsplit]

theorem homeIn_mono {i j : Nat} (h : i ≤ j) (ls : List Text) : homeIn ls i ≤ homeIn ls j := by
  rw [homeIn, homeIn, read_take h]
  exact Reading.length_ended_le _ _

theorem homeIn_eq_iff {ls : List Text} {i j : Nat} (h : i < j) (hi : owned ls i = true) :
    homeIn ls i = homeIn ls j ↔ ∀ l ∈ (ls.take j).drop (i + 1), isDivider l = false := by
  have hlt := lt_length_of_owned hi
  have hpath : (read (ls.take i)).path ≠ [] := by
    rw [path_read]
    exact owner_ne_nil_of_owned hi
  have hbody : isDivider ls[i] = false := by
    simp only [owned, List.getElem?_eq_getElem hlt, Option.any_some, isBodyLine, Bool.and_eq_true,
      Bool.not_eq_true'] at hi
    exact hi.1.2
  have hdrop : (ls.take j).drop i = ls[i] :: (ls.take j).drop (i + 1) := by
    rw [List.drop_eq_getElem_cons (by rw [List.length_take]; omega), List.getElem_take]
  rw [homeIn, homeIn, read_take (Nat.le_of_lt h), Reading.length_ended_eq_iff hpath, hdrop,
    List.forall_mem_cons]
  exact and_iff_right hbody

/-- Every line that is some file's own has its home in a hunk of that file, and a file's hunks hold
the lines that have their home there. -/
structure Sorted (ls : List Text) (hunks : List Hunk) (home : Nat → Nat) : Prop where
  placed : ∀ i, owned ls i = true →
    ∃ hunk, hunks[home i]? = some hunk ∧ hunk.path = owner (ls.take i)
  gathered : ∀ k hunk, hunks[k]? = some hunk → hunk.path ≠ [] →
    hunk.text = Text.terminated (linesAt ls home k)

theorem path_ne_nil_of_mem_ended (ls : List Text) : ∀ hunk ∈ (read ls).ended, hunk.path ≠ [] := by
  induction ls using List.reverseRecOn with
  | nil => exact List.forall_mem_nil _
  | append_singleton ls l ih =>
      rw [read_concat, Reading.ended_next]
      split
      · rw [List.forall_mem_append]
        refine ⟨ih, fun hunk hmem => ?_⟩
        by_cases hpath : (read ls).path = []
        · rw [closed, if_pos hpath] at hmem
          cases hmem
        · rw [closed, if_neg hpath, List.mem_singleton] at hmem
          rw [hmem]
          exact hpath
      · exact ih

theorem linesAt_homeIn_concat (ls : List Text) (l : Text) (k : Nat) :
    linesAt (ls ++ [l]) (homeIn (ls ++ [l])) k =
      linesAt ls (homeIn ls) k ++
        if (isBodyLine l && owner ls != []) && (read ls).ended.length == k then [l] else [] := by
  rw [linesAt_concat fun i hi => homeIn_concat (Nat.le_of_lt hi) l,
    homeIn_concat (Nat.le_refl _), homeIn_length]

theorem Sorted.linesAt_eq_nil {ls : List Text} (h : Sorted ls (read ls).hunks (homeIn ls)) {k : Nat}
    (hk : ∀ hunk, (read ls).hunks[k]? = some hunk → hunk.path = []) :
    linesAt ls (homeIn ls) k = [] := by
  apply linesWhere_eq_nil
  intro i
  by_contra hpick
  rw [Bool.not_eq_false, Bool.and_eq_true, beq_iff_eq] at hpick
  obtain ⟨howned, rfl⟩ := hpick
  obtain ⟨hunk, hget, hpath⟩ := h.placed i howned
  exact owner_ne_nil_of_owned howned (hpath.symm.trans (hk hunk hget))

section

variable {ls : List Text} (h : Sorted ls (read ls).hunks (homeIn ls)) (l : Text)

include h

theorem Sorted.placed_concat {i : Nat} (hi : owned (ls ++ [l]) i = true) :
    ∃ hunk, (read (ls ++ [l])).hunks[homeIn (ls ++ [l]) i]? = some hunk ∧
      hunk.path = owner ((ls ++ [l]).take i) := by
  rcases owned_concat hi with ⟨hlt, hi⟩ | ⟨rfl, hbody, -⟩
  · obtain ⟨hunk, hget, hpath⟩ := h.placed i hi
    have hne : hunk.path ≠ [] := hpath ▸ owner_ne_nil_of_owned hi
    obtain ⟨hunk', hget', hpath'⟩ := Reading.exists_hunk_next hget hne l
    rw [read_concat, homeIn_concat (Nat.le_of_lt hlt),
      List.take_append_of_le_length (Nat.le_of_lt hlt)]
    exact ⟨hunk', hget', hpath'.trans hpath⟩
  · rw [read_concat, homeIn_concat (Nat.le_refl _), homeIn_length, List.take_left]
    obtain ⟨hother, -⟩ | ⟨-, -, -, hnext⟩ | ⟨hother, -⟩ := (read ls).next_cases l
    · rw [hbody] at hother
      cases hother
    · refine ⟨⟨(read ls).path, (read ls).text ++ l ++ ['\n']⟩, ?_, path_read ls⟩
      rw [hnext]
      exact Reading.getElem?_hunks.2 (.inr ⟨rfl, rfl⟩)
    · rw [hbody] at hother
      cases hother

theorem Sorted.gathered_concat {k : Nat} {hunk : Hunk}
    (hk : (read (ls ++ [l])).hunks[k]? = some hunk) (hpath : hunk.path ≠ []) :
    hunk.text = Text.terminated (linesAt (ls ++ [l]) (homeIn (ls ++ [l])) k) := by
  rw [read_concat] at hk
  rw [linesAt_homeIn_concat]
  obtain ⟨hbody, -, -, hnext⟩ | ⟨hbody, -, -, hnext⟩ | ⟨hbody, -, hnext⟩ := (read ls).next_cases l
  · rw [hnext] at hk
    rw [hbody, h.gathered k hunk hk hpath]
    simp
  · rw [hnext] at hk
    rcases Reading.getElem?_hunks.1 hk with hk | ⟨rfl, rfl⟩
    · obtain ⟨hlt, -⟩ := List.getElem?_eq_some_iff.1 hk
      have hother : ((read ls).ended.length == k) = false := by
        rw [beq_eq_false_iff_ne]
        exact Nat.ne_of_gt hlt
      rw [hother, h.gathered k hunk (Reading.getElem?_hunks.2 (.inl hk)) hpath]
      simp
    · have hlast := h.gathered _ _ (Reading.getElem?_hunks.2 (.inr ⟨rfl, rfl⟩)) hpath
      have howner : (owner ls != []) = true := by
        rw [bne_iff_ne, ← path_read]
        exact hpath
      dsimp only at hlast ⊢
      rw [hbody, howner, hlast, Text.terminated_append]
      simp [Text.terminated]
  · rw [hnext] at hk
    rw [hbody, Bool.false_and, Bool.false_and, if_neg Bool.false_ne_true, List.append_nil]
    rcases Reading.getElem?_hunks.1 hk with hk | ⟨rfl, rfl⟩
    · exact h.gathered k hunk (Reading.getElem?_hunks_of_ended hk) hpath
    · rw [h.linesAt_eq_nil fun hunk => Reading.path_eq_nil_of_getElem?]
      rfl

end

theorem sorted_read (ls : List Text) : Sorted ls (read ls).hunks (homeIn ls) := by
  induction ls using List.reverseRecOn with
  | nil =>
      refine ⟨fun i hi => absurd (lt_length_of_owned hi) (Nat.not_lt_zero i), ?_⟩
      rintro k hunk hk hpath
      rcases Reading.getElem?_hunks.1 hk with hk | ⟨-, rfl⟩
      · cases hk
      · exact absurd rfl hpath
  | append_singleton ls l ih => exact ⟨fun _ => ih.placed_concat l, fun _ _ => ih.gathered_concat l⟩

/-- As long as no file is named, what has been gathered are the lines behind the last divider. -/
theorem text_read {ls : List Text} (h : (read ls).path = []) :
    (read ls).text = Text.terminated (linesWhere ls (stray ls)) := by
  induction ls using List.reverseRecOn with
  | nil => rfl
  | append_singleton ls l ih =>
      rw [linesWhere_stray_concat]
      rw [read_concat] at h ⊢
      obtain ⟨hbody, hdivider, -, hnext⟩ | ⟨hbody, hdivider, -, hnext⟩ | ⟨-, hdivider, hnext⟩ :=
        (read ls).next_cases l
      · rw [hnext] at h ⊢
        rw [hdivider, hbody, ih h]
        simp
      · rw [hnext] at h ⊢
        have howner : owner ls = [] := (path_read ls).symm.trans h
        rw [hdivider, hbody, howner, ih h]
        simp [Text.terminated]
      · rw [hnext, hdivider]
        rfl

/-- What reading makes of the lines: hunks, and for each line that is some file's own its home among
them. -/
structure Attribution (ls : List Text) (hunks : List Hunk) (home : Nat → Nat) : Prop where
  sorted : Sorted ls hunks home
  inOrder : ∀ i j, i ≤ j → home i ≤ home j
  /-- Two lines share a hunk when no divider stands between them. -/
  together : ∀ i j, i < j → owned ls i = true → owned ls j = true →
    (home i = home j ↔ ∀ l ∈ (ls.take j).drop (i + 1), isDivider l = false)
  unnamed : ∀ k hunk, hunks[k]? = some hunk → hunk.path = [] →
    k + 1 = hunks.length ∧ hunk.text = Text.terminated (linesWhere ls (stray ls))
  ne_nil : hunks ≠ []

/-- Whatever a diff's lines are, each line of a file's own goes into one hunk, which is that file's,
and no other line goes into a file's hunk. Dividers and nothing else part the lines of a file. Only
the last hunk, which is always there, may have no file. -/
theorem ofDiff_attributes (diff : Text) :
    ∃ home, Attribution diff.lines (ofDiff diff) home := by
  rw [ofDiff_eq]
  refine ⟨homeIn diff.lines, sorted_read diff.lines, fun i j h => homeIn_mono h _,
    fun i j h hi _ => homeIn_eq_iff h hi, fun k hunk hk hpath => ?_, List.concat_ne_nil _ _⟩
  rcases Reading.getElem?_hunks.1 hk with hk | ⟨rfl, rfl⟩
  · exact absurd hpath (path_ne_nil_of_mem_ended _ hunk (List.mem_of_getElem? hk))
  · exact ⟨by rw [Reading.hunks, List.length_append, List.length_singleton], text_read hpath⟩

end Hunk

end Emend
