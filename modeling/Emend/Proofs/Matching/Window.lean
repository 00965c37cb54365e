import Emend.Matching.Match
import Emend.Proofs.Text.Lines
import Emend.Proofs.Text.Occurrence
import Mathlib.Data.List.Range
import Mathlib.Tactic.Common

namespace Emend.Window

variable {β : Type}

theorem mem_candidates {k n t : Nat} {w : Window} :
    w ∈ candidates k n t ↔
      w.start < n ∧ lowest k n t w.start ≤ w.last ∧ w.last < highest k n t w.start := by
  obtain ⟨start, last⟩ := w
  simp only [candidates, List.mem_flatMap, List.mem_range, List.mem_map, List.mem_range'_1,
    Window.mk.injEq]
  constructor
  · rintro ⟨s, hs, l, hl, rfl, rfl⟩
    omega
  · rintro ⟨hs, hlow, hhigh⟩
    exact ⟨start, hs, last, by omega, rfl, rfl⟩

theorem fits_of_mem_candidates {k n t : Nat} {w : Window} (h : w ∈ candidates k n t) : w.Fits n := by
  obtain ⟨hs, hlow, hhigh⟩ := mem_candidates.1 h
  rw [lowest] at hlow
  rw [highest] at hhigh
  constructor <;> omega

theorem word_eq : word = 18446744073709551616 := rfl

/-- A run of as many lines as the query is a candidate unless the tolerance is 0 or the sum that
bounds its last line wraps. -/
theorem run_mem_candidates_iff {k n t s : Nat} (hk : 0 < k) (hn : n < word) (ht : t < word)
    (hsk : s + k ≤ n) : ⟨s, s + k - 1⟩ ∈ candidates k n t ↔ 0 < t ∧ s + k + t < word := by
  rw [mem_candidates, lowest, highest, word_eq] at *
  dsimp only
  omega

theorem mem_candidates_of_length {k n t s : Nat} (hk : 0 < k) (hsk : s + k ≤ n) (ht : 0 < t)
    (hword : n + t < word) : ⟨s, s + k - 1⟩ ∈ candidates k n t :=
  (run_mem_candidates_iff hk (by omega) (by omega) hsk).2 ⟨ht, by omega⟩

theorem before_iff {v w : Window} :
    v.before w = true ↔ v.start < w.start ∨ v.start = w.start ∧ v.last < w.last := by
  simp [before]

theorem not_before_self (w : Window) : ¬w.before w = true := by
  simp [before_iff]

theorem before_trans {u v w : Window} (h : u.before v = true) (h' : v.before w = true) :
    u.before w = true := by
  rw [before_iff] at *
  omega

theorem before_or_eq_or_before (v w : Window) : v.before w = true ∨ v = w ∨ w.before v = true := by
  obtain ⟨s, l⟩ := v
  obtain ⟨s', l'⟩ := w
  simp only [before_iff, Window.mk.injEq]
  omega

theorem pairwise_candidates (k n t : Nat) :
    (candidates k n t).Pairwise fun v w => v.before w = true := by
  refine List.pairwise_flatMap.2 ⟨fun s _ => ?_, ?_⟩
  · rw [List.pairwise_map]
    exact (List.pairwise_lt_range' 1 (by omega)).imp fun h => by simpa [before_iff] using h
  · refine List.pairwise_lt_range.imp fun hs v hv w hw => ?_
    obtain ⟨_, -, rfl⟩ := List.mem_map.1 hv
    obtain ⟨_, -, rfl⟩ := List.mem_map.1 hw
    exact before_iff.2 (.inl hs)

variable {w : Window} {lines : List β}

theorem take_append_slice_append_drop (h : w.Fits lines.length) :
    lines.take w.start ++ w.slice lines ++ lines.drop (w.last + 1) = lines := by
  have hd : lines.drop (w.last + 1) = (lines.drop w.start).drop (w.last + 1 - w.start) := by
    rw [List.drop_drop]
    congr 1
    have := h.1
    omega
  rw [slice, hd, List.append_assoc, List.take_append_drop, List.take_append_drop]

theorem length_slice (h : w.Fits lines.length) : (w.slice lines).length = w.last + 1 - w.start := by
  have := h.2
  simp only [slice, List.length_take, List.length_drop]
  omega

theorem slice_ne_nil (h : w.Fits lines.length) : w.slice lines ≠ [] := by
  have hl := length_slice h
  have := h.1
  exact List.ne_nil_of_length_pos (by omega)

theorem slice_map {γ : Type} (f : β → γ) (w : Window) (lines : List β) :
    w.slice (lines.map f) = (w.slice lines).map f := by
  simp [slice]

theorem head?_slice (h : w.Fits lines.length) : (w.slice lines).head? = lines[w.start]? := by
  have := h.1
  rw [slice, List.head?_take, if_neg (by omega), List.head?_drop]

theorem getLast?_slice (h : w.Fits lines.length) : (w.slice lines).getLast? = lines[w.last]? := by
  have := h.1
  have hl := length_slice h
  rw [List.getLast?_eq_getElem?, hl, slice, List.getElem?_take_of_lt (by omega), List.getElem?_drop]
  congr 1
  omega

theorem slice_eq_singleton_iff {x : β} (h : w.Fits lines.length) :
    w.slice lines = [x] ↔ w.start = w.last ∧ lines[w.start]? = some x := by
  have hl := length_slice h
  have := h.1
  constructor
  · intro hs
    have hh := head?_slice h
    rw [hs] at hl hh
    rw [List.length_singleton] at hl
    exact ⟨by omega, hh.symm⟩
  · rintro ⟨he, hx⟩
    obtain ⟨y, hy⟩ : ∃ y, w.slice lines = [y] := List.length_eq_one_iff.1 (by omega)
    have hh := head?_slice h
    rw [hy, hx] at hh
    rw [hy, ← Option.some.inj hh]

/-- The document with the window's lines replaced by a text. -/
def splice (w : Window) (lines : List Text) (new : Text) : Text :=
  Text.unlines (lines.take w.start ++ new :: lines.drop (w.last + 1))

def leading (w : Window) (lines : List Text) : Text := Text.terminated (lines.take w.start)

def trailing (w : Window) (lines : List Text) : Text := Text.preceded (lines.drop (w.last + 1))

theorem splice_eq (w : Window) (lines : List Text) (new : Text) :
    w.splice lines new = w.leading lines ++ new ++ w.trailing lines :=
  Text.unlines_append_cons _ _ _

def without (w : Window) (lines : List Text) : Text :=
  Text.unlines (lines.take w.start ++ lines.drop (w.last + 1))

theorem length_splice_nil {w : Window} {lines : List Text} (h : w.last + 1 < lines.length) :
    (w.splice lines []).length = (w.without lines).length + 1 := by
  rw [splice_eq, without, leading, trailing, List.drop_eq_getElem_cons h, Text.unlines_append_cons,
    Text.preceded_cons]
  simp only [List.append_nil, List.length_append, List.length_cons]
  omega

theorem occursAt_slice {w : Window} {lines : List Text} (h : w.Fits lines.length) :
    Text.OccursAt (Text.unlines (w.slice lines)) (Text.unlines lines) (w.leading lines)
      (w.trailing lines) := by
  have hs := Text.unlines_append_append (lines.take w.start) (slice_ne_nil h)
    (lines.drop (w.last + 1))
  rwa [take_append_slice_append_drop h] at hs

end Emend.Window
