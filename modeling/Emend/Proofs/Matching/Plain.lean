import Emend.Proofs.Score.Double
import Emend.Proofs.Score.Rounded

namespace Emend

open Score

variable {α : Type} [Score α]

def Best.IsFirst (score : Window → α) (seen : List Window) (b : Best α) : Prop :=
  (b = .start ∧ ∀ v ∈ seen, ¬noScore < score v) ∨
    ∃ w, b = ⟨score w, some w⟩ ∧ Wins score seen w ∧ noScore < score w

section

variable [LawfulScore α] {score : Window → α} (hscore : ∀ w, Comparable (score w))

theorem wins_concat_of_lt {seen : List Window} {w : Window}
    (h : ∀ v ∈ seen, score v < score w) : Wins score (seen ++ [w]) w := by
  refine ⟨List.mem_append_right seen (List.mem_singleton_self w), ?_⟩
  intro v hv
  rcases List.mem_append.1 hv with hv | hv
  · exact ⟨not_lt_of_lt (h v hv), fun _ => h v hv⟩
  · obtain rfl := List.mem_singleton.1 hv
    exact ⟨LawfulScore.lt_irrefl _, fun hbefore => absurd hbefore (Window.not_before_self v)⟩

omit [LawfulScore α] in
theorem Wins.concat {seen : List Window} {u w : Window} (hu : Wins score seen u)
    (hbefore : u.before w = true) (hle : ¬score u < score w) : Wins score (seen ++ [w]) u := by
  refine ⟨List.mem_append_left [w] hu.1, ?_⟩
  intro v hv
  rcases List.mem_append.1 hv with hv | hv
  · exact hu.2 v hv
  · obtain rfl := List.mem_singleton.1 hv
    refine ⟨hle, ?_⟩
    intro hbefore'
    exact absurd (Window.before_trans hbefore hbefore') (Window.not_before_self u)

include hscore

theorem Best.IsFirst.raise {seen : List Window} {b : Best α} (h : b.IsFirst score seen)
    {w : Window} (hw : ∀ v ∈ seen, v.before w = true) :
    (b.raise w (score w)).IsFirst score (seen ++ [w]) := by
  rw [Best.raise]
  by_cases hlt : b.score < score w
  · rw [if_pos hlt]
    rcases h with ⟨rfl, hseen⟩ | ⟨u, rfl, hu, hno⟩
    · refine .inr ⟨w, rfl, wins_concat_of_lt ?_, hlt⟩
      intro v hv
      exact lt_of_not_lt_of_lt (hscore v) (hseen v hv) hlt
    · refine .inr ⟨w, rfl, wins_concat_of_lt ?_, LawfulScore.lt_trans hno hlt⟩
      intro v hv
      exact lt_of_not_lt_of_lt (hscore v) (hu.2 v hv).1 hlt
  · rw [if_neg hlt]
    rcases h with ⟨rfl, hseen⟩ | ⟨u, rfl, hu, hno⟩
    · refine .inl ⟨rfl, ?_⟩
      intro v hv
      rcases List.mem_append.1 hv with hv | hv
      · exact hseen v hv
      · obtain rfl := List.mem_singleton.1 hv
        exact hlt
    · exact .inr ⟨u, rfl, hu.concat (hw u hu.1) hlt, hno⟩

theorem Best.IsFirst.foldl {ws seen : List Window} {b : Best α} (h : b.IsFirst score seen)
    (hws : (seen ++ ws).Pairwise fun v w => v.before w = true) :
    (ws.foldl (fun b w => b.raise w (score w)) b).IsFirst score (seen ++ ws) := by
  induction ws generalizing seen b with
  | nil =>
      rw [List.append_nil]
      exact h
  | cons w ws ih =>
      have hw : ∀ v ∈ seen, v.before w = true := by
        intro v hv
        exact (List.pairwise_append.1 hws).2.2 v hv w (List.mem_cons_self ..)
      rw [List.append_cons] at hws ⊢
      exact ih (h.raise hscore hw) hws

end

theorem bestOf_isFirst [LawfulScore α] {p : MatchPolicy α} {query lines : List Text}
    (h : Prunable p query lines) :
    (bestOf p query lines).IsFirst (scoreOf p query lines) (windows p query lines) := by
  have hstart : Best.start.IsFirst (scoreOf p query lines) [] := .inl ⟨rfl, nofun⟩
  exact hstart.foldl h.score (Window.pairwise_candidates _ _ _)

/-- No other score ties with that of a search without windows. -/
class SharpScore (α : Type) [Score α] : Prop where
  eq_noScore {a : α} : Comparable a → ¬a < noScore → ¬noScore < a → a = noScore

instance {r : Rounding} : SharpScore (Rounded r) where
  eq_noScore _ := Rounded.eq_of_not_lt

instance : SharpScore Float where
  eq_noScore {a} ha hlow hhigh := by
    have hno : Double.IsFinite noScore := rfl
    have hval : Double.val noScore = -1 := by
      have hunpacked : Double.unpacked noScore =
          .finite .negative (2 ^ 52) (-52) (by decide) := rfl
      rw [Double.val, hunpacked, Double.value, Double.signed]
      norm_num
    rw [Double.comparable_iff] at ha
    rw [Double.not_lt_iff ha hno.isNumber] at hlow
    rw [Double.not_lt_iff hno.isNumber ha] at hhigh
    refine Double.eq_of_val_eq ha hno.isNumber ?_ (le_antisymm hhigh hlow)
    rw [hval]
    norm_num

section

variable [LawfulScore α] [SharpScore α] {p : MatchPolicy α} {query lines : List Text}

theorem prunedBest_eq_or (h : Prunable p query lines) :
    prunedBest p query lines = bestOf p query lines ∨
      (prunedBest p query lines).score = noScore ∧ bestOf p query lines = .start := by
  have hpruned := prunedBest_optimal h
  rcases bestOf_isFirst h with ⟨hplain, hseen⟩ | ⟨w, hplain, hw, hno⟩
  · -- The pruned search may still hold a window, one that ties with a search without windows.
    rw [hplain]
    rcases hpruned.isFrom with hstart | ⟨u, hu, hbest⟩
    · exact .inl hstart
    · refine .inr ⟨?_, rfl⟩
      have hle := hpruned.noScore_le
      rw [hbest] at hle ⊢
      exact SharpScore.eq_noScore (h.score u) hle (hseen u hu)
  · left
    have hwindow := hpruned.window_eq_some_iff.2 ⟨hw, not_lt_of_lt hno⟩
    rcases hpruned.isFrom with hstart | ⟨u, -, hbest⟩
    · rw [hstart] at hwindow
      cases hwindow
    · rw [hbest] at hwindow
      obtain rfl : u = w := Option.some.inj hwindow
      rw [hplain, hbest]

/-- The same score, found alike, and the same block when found. -/
structure Match.Agrees (m m' : Match α) : Prop where
  score : m.score = m'.score
  isFound : m.isFound = m'.isFound
  block : m.isFound = true → m.block = m'.block

omit [SharpScore α] in
theorem Match.not_isFound_of_noScore (m : Match α) (h : m.score = noScore) :
    m.isFound = false := by
  rw [isFound, h, decide_eq_false (LawfulScore.lt_irrefl noScore)]
  rfl

omit [SharpScore α] in
theorem Match.Agrees.of_noScore {m m' : Match α} (h : m.score = noScore)
    (h' : m'.score = noScore) : m.Agrees m' := by
  have hm := m.not_isFound_of_noScore h
  refine ⟨h.trans h'.symm, hm.trans (m'.not_isFound_of_noScore h').symm, ?_⟩
  intro hfound
  rw [hm] at hfound
  cases hfound

theorem Prunable.agrees {search content : Text}
    (h : Prunable p (queryLines search) content.pieces) :
    (bestMatch p search content).Agrees (plainMatch p search content) := by
  rw [bestMatch, plainMatch]
  cases hq : queryLines search with
  | nil => exact ⟨rfl, rfl, fun _ => rfl⟩
  | cons q qs =>
      rw [hq] at h
      dsimp only
      rcases prunedBest_eq_or h with heq | ⟨hscore, hplain⟩
      · rw [heq]
        exact ⟨rfl, rfl, fun _ => rfl⟩
      · rw [hplain]
        exact .of_noScore hscore rfl

end

/-- The pruned search agrees with the plain scan: in exact arithmetic, with any rounding that keeps
the order, and on doubles. -/
theorem bestMatch_agrees_plainMatch :
    (∀ (r : Rounding) (p : MatchPolicy (Rounded r)) (search content : Text),
      (bestMatch p search content).Agrees (plainMatch p search content)) ∧
    ∀ p : MatchPolicy Float, p.IsFinite → ∀ search content : Text, search.length < word →
      content.length < word → (bestMatch p search content).Agrees (plainMatch p search content) := by
  constructor
  · intro r p search content
    exact (Rounded.prunable p _ _).agrees
  · intro p hp search content hs hc
    exact ((counted_pieces hs hc).prunable hp).agrees

/-- The standard policy finds a line: exactly, in whole hundredths, and on doubles. -/
theorem block_bestMatch_line :
    (bestMatch (.standard : MatchPolicy (Rounded .exact)) "b".toList "a\nb".toList).block =
        "b".toList ∧
      (bestMatch (.standard : MatchPolicy (Rounded (.toParts 100 (by decide)))) "b".toList
          "a\nb".toList).block = "b".toList ∧
      (bestMatch (.standard : MatchPolicy Float) "b".toList "a\nb".toList).block = "b".toList := by
  obtain ⟨hrounded, hdouble⟩ := bestMatch_agrees_plainMatch
  have hexact := hrounded .exact .standard "b".toList "a\nb".toList
  have hparts := hrounded (.toParts 100 (by decide)) .standard "b".toList "a\nb".toList
  have hfloat := hdouble .standard ⟨Double.finite_iff.2 rfl, Double.finite_iff.2 rfl⟩ "b".toList
    "a\nb".toList (by decide) (by decide)
  refine ⟨?_, ?_, ?_⟩
  · rw [hexact.block (hexact.isFound.trans (by decide +kernel))]
    decide +kernel
  · rw [hparts.block (hparts.isFound.trans (by decide +kernel))]
    decide +kernel
  · rw [hfloat.block (hfloat.isFound.trans (by decide +kernel))]
    decide +kernel

end Emend
