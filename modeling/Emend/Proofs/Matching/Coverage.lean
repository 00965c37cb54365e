import Emend.Proofs.Matching.Window

namespace Emend.Window

variable {k n t : Nat}

def count (w : Window) : Nat := w.last + 1 - w.start

/-- The window has at most `t` lines more or fewer than a query of `k` lines. -/
def Near (k t : Nat) (w : Window) : Prop := w.count ≤ k + t ∧ k ≤ w.count + t

/-- No sum that bounds a window of a document of `n` lines wraps. -/
def Counted (k n t : Nat) : Prop := ∀ start < n, start + k + t < word

/-- What the candidate windows of a query of `k` lines in a document of `n` lines are for. -/
structure Covers (k n t : Nat) : Prop where
  ordered : (candidates k n t).Pairwise fun v w => v.before w = true
  distinct : (candidates k n t).Nodup
  inside : ∀ w ∈ candidates k n t, w.Fits n
  near : ∀ w ∈ candidates k n t, w.Near k t
  runs : ∀ start, start + k ≤ n → ⟨start, start + k - 1⟩ ∈ candidates k n t
  counted : Counted k n t

theorem nodup_candidates (k n t : Nat) : (candidates k n t).Nodup := by
  refine (pairwise_candidates k n t).imp fun hbefore heq => ?_
  subst heq
  exact not_before_self _ hbefore

theorem counted_iff : Counted k n t ↔ n = 0 ∨ n + k + t ≤ word := by
  constructor
  · intro h
    by_contra! hn
    have hlast := h (n - 1) (by omega)
    omega
  · intro h start hstart
    omega

/-- When no sum wraps, the candidates are the windows with more than `k - t` and at most `k + t`
lines: the shortest length within the tolerance is left out. -/
theorem mem_candidates_of_counted (h : Counted k n t) {w : Window} :
    w ∈ candidates k n t ↔ w.Fits n ∧ k < w.count + t ∧ w.count ≤ k + t := by
  rw [mem_candidates, Fits, count, lowest, highest]
  constructor
  · rintro ⟨hs, hlow, hhigh⟩
    have hsum := h w.start hs
    rw [Nat.mod_eq_of_lt (by omega)] at hlow hhigh
    omega
  · rintro ⟨⟨hle, hlast⟩, hshort, hlong⟩
    have hsum := h w.start (by omega)
    rw [Nat.mod_eq_of_lt (by omega), Nat.mod_eq_of_lt (by omega)]
    omega

theorem forall_near_iff (hk : k < word) (hn : n < word) (ht : t < word) :
    (∀ w ∈ candidates k n t, w.Near k t) ↔ n + k ≤ word ∨ k + t ≤ word ∨ k ≤ t + 1 := by
  constructor
  · intro h
    by_contra! hcon
    -- At the first line where the sum with the query's length wraps, a single line is a candidate.
    have hmem : ⟨word - k, word - k⟩ ∈ candidates k n t := by
      rw [mem_candidates, lowest, highest, word_eq] at *
      dsimp only
      omega
    have hnear := (h _ hmem).2
    rw [count] at hnear
    dsimp only at hnear
    omega
  · intro h w hw
    rw [mem_candidates, lowest, highest] at hw
    rw [Near, count]
    rw [word_eq] at *
    omega

theorem forall_run_mem_iff (hk : 0 < k) (hn : n < word) (ht : t < word) :
    (∀ start, start + k ≤ n → ⟨start, start + k - 1⟩ ∈ candidates k n t) ↔
      n < k ∨ 0 < t ∧ n + t < word := by
  constructor
  · intro h
    by_contra! hcon
    -- The last run has the largest sum.
    have hlast := (run_mem_candidates_iff hk hn ht (s := n - k) (by omega)).1
      (h (n - k) (by omega))
    omega
  · intro h start hrun
    exact (run_mem_candidates_iff hk hn ht hrun).2 (by omega)

/-- The windows cover the document just when the tolerance is not 0, or no run is as long as the
query, and the last sum still is a word. Order and place need neither; lengths and runs can be told
from the numbers alone, and all windows as long as no sum wraps. -/
theorem covers_iff (hk : 0 < k) (hword : k < word) (hn : n < word) (ht : t < word) :
    (Covers k n t ↔ (n < k ∨ 0 < t) ∧ (n = 0 ∨ n + k + t ≤ word)) ∧
      ((candidates k n t).Pairwise (fun v w => v.before w = true) ∧ (candidates k n t).Nodup ∧
        ∀ w ∈ candidates k n t, w.Fits n) ∧
      ((∀ w ∈ candidates k n t, w.Near k t) ↔ n + k ≤ word ∨ k + t ≤ word ∨ k ≤ t + 1) ∧
      ((∀ start, start + k ≤ n → ⟨start, start + k - 1⟩ ∈ candidates k n t) ↔
        n < k ∨ 0 < t ∧ n + t < word) ∧
      (Counted k n t → ∀ w,
        w ∈ candidates k n t ↔ w.Fits n ∧ k < w.count + t ∧ w.count ≤ k + t) := by
  have hordered := pairwise_candidates k n t
  have hdistinct := nodup_candidates k n t
  have hinside : ∀ w ∈ candidates k n t, w.Fits n := fun w => fits_of_mem_candidates
  have hnear := forall_near_iff hword hn ht
  have hruns := forall_run_mem_iff hk hn ht
  refine ⟨⟨fun h => ?_, fun ⟨hsome, hsum⟩ => ?_⟩, ⟨hordered, hdistinct, hinside⟩, hnear, hruns,
    fun h w => mem_candidates_of_counted h⟩
  · have htolerance := hruns.1 h.runs
    exact ⟨htolerance.imp_right And.left, counted_iff.1 h.counted⟩
  · exact ⟨hordered, hdistinct, hinside, hnear.2 (by omega), hruns.2 (by omega),
      counted_iff.2 hsum⟩

theorem covers_threeOfSix : 0 < 3 ∧ 3 < word ∧ 6 < word ∧ 5 < word ∧ Covers 3 6 5 := by
  have hk : 3 < word := by decide
  have hn : 6 < word := by decide
  have ht : 5 < word := by decide
  refine ⟨by decide, hk, hn, ht, (covers_iff (by decide) hk hn ht).1.2 ⟨.inr (by decide), .inr ?_⟩⟩
  decide

theorem not_forall_covers :
    ¬∀ k n t, 0 < k → k < word → n < word → t < word → Covers k n t := by
  intro h
  have hline := (h 1 1 0 (by decide) (by decide) (by decide) (by decide)).runs 0 (by decide)
  exact absurd hline (by decide)

/-- With the largest tolerance the sums wrap, and only shorter windows are left. -/
example : candidates 2 3 (word - 1) = [⟨0, 0⟩, ⟨1, 1⟩, ⟨2, 2⟩] := by decide

end Emend.Window
