import Emend.Format.Fence
import Emend.Text.Basic
import Emend.Text.Search

namespace Emend

structure MarkerBlock where
  header : Text
  search : Text
  replacement : Text
deriving DecidableEq

namespace MarkerBlock

def run? (c : Char) (s : Text) : Option Text :=
  let n := (s.takeWhile (· == c)).length
  if 5 ≤ n ∧ n ≤ 7 then some (s.drop n) else none

def dropSpace : Text → Text
  | ' ' :: s => s
  | s => s

def dropFeed : Text → Text
  | '\n' :: s => s
  | s => s

def opener? (s : Text) : Option Text :=
  (run? '<' s).bind fun s => Text.after? "SEARCH\n".toList (dropSpace s)

def separator? (s : Text) : Option Text := (run? '=' s).bind (Text.after? ['\n'])

def closer? (s : Text) : Option Text :=
  (run? '>' s).bind fun s => Text.after? "REPLACE".toList (dropSpace s)

/-- The text up to the first place where the marker fits, and what follows the marker. -/
def upTo? (marker? : Text → Option Text) : Text → Option (Text × Text)
  | [] => (marker? []).map ([], ·)
  | c :: s =>
      match marker? (dropFeed (c :: s)) with
      | some rest => some ([], rest)
      | none => (upTo? marker? s).map fun (t, rest) => (c :: t, rest)

def nextLine? : Text → Option Text
  | [] => none
  | c :: s => if c = '\n' then some s else nextLine? s

/-- A fence line may stand between the header and the first marker. -/
def dropFenceLine (s : Text) : Text :=
  match Text.after? fence s with
  | none => s
  | some rest => (nextLine? rest).getD s

def texts? (s : Text) : Option ((Text × Text) × Text) :=
  match opener? s with
  | none => none
  | some s =>
      match upTo? separator? s with
      | none => none
      | some (search, s) => (upTo? closer? s).map fun (replacement, s) => ((search, replacement), s)

def at? (s : Text) : Option (MarkerBlock × Text) :=
  let header := s.takeWhile (· != '\n')
  if header = [] then none
  else match nextLine? s with
    | none => none
    | some s => (texts? (dropFenceLine s)).map fun ((search, replacement), s) =>
        (⟨header, search, replacement⟩, s)

theorem length_after? {pat s rest : Text} (h : Text.after? pat s = some rest) :
    rest.length ≤ s.length := by
  rw [Text.eq_append_of_after? h, List.length_append]
  omega

theorem length_nextLine? {s rest : Text} (h : nextLine? s = some rest) :
    rest.length < s.length := by
  induction s with
  | nil => simp [nextLine?] at h
  | cons c s ih =>
      by_cases hc : c = '\n'
      · simp only [nextLine?, hc, if_true, Option.some.injEq] at h
        simp [h]
      · simp only [nextLine?, hc, if_false] at h
        have := ih h
        simp only [List.length_cons]
        omega

theorem length_run? {c : Char} {s rest : Text} (h : run? c s = some rest) :
    rest.length ≤ s.length := by
  simp only [run?] at h
  split at h
  · cases h
    simp
  · cases h

theorem length_dropSpace (s : Text) : (dropSpace s).length ≤ s.length := by
  unfold dropSpace
  split <;> simp

theorem length_dropFeed (s : Text) : (dropFeed s).length ≤ s.length := by
  unfold dropFeed
  split <;> simp

theorem length_opener? {s rest : Text} (h : opener? s = some rest) : rest.length ≤ s.length := by
  obtain ⟨t, ht, h⟩ := Option.bind_eq_some_iff.1 h
  exact Nat.le_trans (length_after? h) (Nat.le_trans (length_dropSpace t) (length_run? ht))

theorem length_separator? {s rest : Text} (h : separator? s = some rest) :
    rest.length ≤ s.length := by
  obtain ⟨t, ht, h⟩ := Option.bind_eq_some_iff.1 h
  exact Nat.le_trans (length_after? h) (length_run? ht)

theorem length_closer? {s rest : Text} (h : closer? s = some rest) : rest.length ≤ s.length := by
  obtain ⟨t, ht, h⟩ := Option.bind_eq_some_iff.1 h
  exact Nat.le_trans (length_after? h) (Nat.le_trans (length_dropSpace t) (length_run? ht))

theorem length_upTo? {marker? : Text → Option Text}
    (hm : ∀ {s rest}, marker? s = some rest → rest.length ≤ s.length) {s t rest : Text}
    (h : upTo? marker? s = some (t, rest)) : rest.length ≤ s.length := by
  induction s generalizing t with
  | nil =>
      obtain ⟨r, hr, he⟩ := Option.map_eq_some_iff.1 h
      cases he
      exact hm hr
  | cons c s ih =>
      cases hc : marker? (dropFeed (c :: s)) with
      | some r =>
          simp only [upTo?, hc, Option.some.injEq, Prod.mk.injEq] at h
          rw [← h.2]
          exact Nat.le_trans (hm hc) (length_dropFeed _)
      | none =>
          simp only [upTo?, hc] at h
          obtain ⟨⟨u, r⟩, hr, he⟩ := Option.map_eq_some_iff.1 h
          cases he
          exact Nat.le_trans (ih hr) (Nat.le_succ _)

theorem length_texts? {s rest : Text} {p : Text × Text} (h : texts? s = some (p, rest)) :
    rest.length ≤ s.length := by
  unfold texts? at h
  split at h
  · cases h
  · rename_i t ht
    split at h
    · cases h
    · rename_i u v hv
      obtain ⟨⟨w, r⟩, hr, he⟩ := Option.map_eq_some_iff.1 h
      cases he
      exact Nat.le_trans (length_upTo? length_closer? hr)
        (Nat.le_trans (length_upTo? length_separator? hv) (length_opener? ht))

theorem length_dropFenceLine (s : Text) : (dropFenceLine s).length ≤ s.length := by
  unfold dropFenceLine
  split
  · exact Nat.le_refl _
  · rename_i rest h
    cases hn : nextLine? rest with
    | none => exact Nat.le_refl _
    | some t => exact Nat.le_trans (Nat.le_of_lt (length_nextLine? hn)) (length_after? h)

theorem length_at? {s rest : Text} {b : MarkerBlock} (h : at? s = some (b, rest)) :
    rest.length < s.length := by
  simp only [at?] at h
  split at h
  · cases h
  · split at h
    · cases h
    · rename_i t ht
      obtain ⟨⟨p, r⟩, hr, he⟩ := Option.map_eq_some_iff.1 h
      cases he
      exact Nat.lt_of_le_of_lt (Nat.le_trans (length_texts? hr) (length_dropFenceLine t))
        (length_nextLine? ht)

/-- Where the search for the next block goes on: after the line that a block ends in, or after a
line that heads no block. -/
def resume (s : Text) : Text := ((at? s).map Prod.snd).getD s

theorem length_resume (s : Text) : (resume s).length ≤ s.length := by
  unfold resume
  cases h : at? s with
  | none => exact Nat.le_refl _
  | some p => exact Nat.le_of_lt (length_at? h)

def all (s : Text) : List MarkerBlock :=
  ((at? s).map Prod.fst).toList ++
    match h : nextLine? (resume s) with
    | none => []
    | some rest =>
        have : rest.length < s.length :=
          Nat.lt_of_lt_of_le (length_nextLine? h) (length_resume s)
        all rest
termination_by s.length

end MarkerBlock

end Emend
