import Emend.Proofs.Matching.Length
import Emend.Proofs.Matching.Scan

namespace Emend

open Score

/-- The window has the highest score, and every earlier window a lower one. -/
def Wins {α : Type} [LT α] (score : Window → α) (ws : List Window) (w : Window) : Prop :=
  w ∈ ws ∧ ∀ v ∈ ws, ¬score w < score v ∧ (v.before w = true → score v < score w)

instance {α : Type} [Score α] (score : Window → α) (ws : List Window) (w : Window) :
    Decidable (Wins score ws w) := inferInstanceAs (Decidable (_ ∧ _))

structure MatchPolicy.IsFinite {α : Type} [Score α] (p : MatchPolicy α) : Prop where
  body : Finite p.bodyWeight
  endpoint : Finite p.endpointWeight

/-- A word counts the characters of the query and of the lines, with a line feed for each. -/
structure Counted (query lines : List Text) : Prop where
  query : (Text.terminated query).length ≤ word
  lines : (Text.terminated lines).length ≤ word

theorem counted_pieces {search content : Text} (hs : search.length < word)
    (hc : content.length < word) : Counted (queryLines search) content.pieces where
  query := Nat.le_trans (length_queryLines_le search) hs
  lines := by
    rw [Text.length_terminated_pieces]
    exact hc

variable {α : Type} [Score α]

theorem Wins.unique {score : Window → α} {ws : List Window} {v w : Window} (hv : Wins score ws v)
    (hw : Wins score ws w) : v = w := by
  rcases Window.before_or_eq_or_before v w with h | h | h
  · exact absurd ((hw.2 v hv.1).2 h) (hv.2 w hw.1).1
  · exact h
  · exact absurd ((hv.2 w hw.1).2 h) (hw.2 v hv.1).1

variable [LawfulScore α]

open LawfulScore

section

variable {p : MatchPolicy α} {query lines : List Text} (hp : p.IsFinite) (hc : Counted query lines)
  (w : Window)

include hc

omit [Score α] [LawfulScore α] in
theorem length_slice_lt {n : Nat} (h : n ≤ (Text.terminated (w.slice lines)).length - 1) :
    n < word := by
  have hslice := length_terminated_slice_le w lines
  have hlines := hc.lines
  have hword : 0 < word := by decide
  omega

omit [Score α] [LawfulScore α] in
theorem length_query_lt {n : Nat} (h : n ≤ (Text.terminated query).length - 1) : n < word := by
  have hquery := hc.query
  have hword : 0 < word := by decide
  omega

include hp

theorem finite_bodyOf : Finite (bodyOf p query lines w) :=
  finite_mul_similarity (length_slice_lt hc w (length_collapse_le _))
    (length_query_lt hc (length_collapse_le _)) hp.body

theorem comparable_endpointsOf : Comparable (endpointsOf p query lines w) :=
  comparable_add
    (finite_mul_similarity (length_slice_lt hc w (length_headD_le _))
      (length_query_lt hc (length_headD_le _)) hp.endpoint)
    (finite_mul_similarity (length_slice_lt hc w (length_getLastD_le _))
      (length_query_lt hc (length_getLastD_le _)) hp.endpoint).comparable

theorem comparable_scoreOf : Comparable (scoreOf p query lines w) :=
  comparable_add (finite_bodyOf hp hc w) (comparable_endpointsOf hp hc w)

omit hc in
theorem finite_bodyBound : Finite (bodyBound p) := by
  rw [bodyBound, Score.larger_eq hp.body.comparable finite_zero.comparable]
  split
  · exact hp.body
  · exact finite_zero

theorem bodyOf_le_bodyBound : ¬bodyBound p < bodyOf p query lines w := by
  rw [bodyBound, Score.larger_eq hp.body.comparable finite_zero.comparable]
  split
  · exact mul_similarity_le (length_slice_lt hc w (length_collapse_le _))
      (length_query_lt hc (length_collapse_le _)) hp.body (not_lt_of_lt ‹_›)
  · exact mul_similarity_nonpos (length_slice_lt hc w (length_collapse_le _))
      (length_query_lt hc (length_collapse_le _)) hp.body ‹_›

end

/-- What pruning relies on: no window reaches the bound of a window with no lower endpoint score. -/
structure Prunable (p : MatchPolicy α) (query lines : List Text) : Prop where
  score (w : Window) : Comparable (scoreOf p query lines w)
  bound (w : Window) : Comparable (endpointsOf p query lines w + bodyBound p)
  score_le {v w : Window} : ¬endpointsOf p query lines w < endpointsOf p query lines v →
    ¬endpointsOf p query lines w + bodyBound p < scoreOf p query lines v

theorem Counted.prunable {p : MatchPolicy α} {query lines : List Text} (hc : Counted query lines)
    (hp : p.IsFinite) : Prunable p query lines where
  score := comparable_scoreOf hp hc
  bound w := by
    rw [LawfulScore.add_comm]
    exact comparable_add (finite_bodyBound hp) (comparable_endpointsOf hp hc w)
  score_le {v w} hfall := by
    rw [LawfulScore.add_comm, scoreOf_eq]
    exact LawfulScore.add_le_add (finite_bodyOf hp hc v) (finite_bodyBound hp)
      (comparable_endpointsOf hp hc v) (comparable_endpointsOf hp hc w)
      (bodyOf_le_bodyBound hp hc v) hfall

instance : Std.TransCmp (Ranked.order (α := α)) := by
  have : Std.TransOrd α := transOrd
  have : Std.TransCmp (compareOn (Ranked.endpoints (α := α))) := inferInstance
  have : Std.TransCmp fun a b : Ranked α => compare b.endpoints a.endpoints :=
    inferInstanceAs (Std.TransCmp fun a b => compareOn Ranked.endpoints b a)
  have : Std.TransOrd Window :=
    inferInstanceAs (Std.TransCmp (compareLex (compareOn Window.start) (compareOn Window.last)))
  exact inferInstanceAs (Std.TransCmp (compareLex _ _))

theorem Ranked.le_total (a b : Ranked α) : (Ranked.le a b || Ranked.le b a) = true := by
  rw [Ranked.le, Ranked.le, (Std.OrientedCmp.eq_swap : Ranked.order b a = _)]
  cases Ranked.order a b <;> rfl

theorem Ranked.not_lt_of_le {a b : Ranked α} (h : Ranked.le a b = true) :
    ¬a.endpoints < b.endpoints := by
  have : Std.TransOrd α := transOrd
  intro hlt
  have hgt : compare b.endpoints a.endpoints = .gt :=
    Std.OrientedCmp.gt_of_lt (compare_of_lt hlt)
  rw [Ranked.le, Ranked.order, compareLex, hgt] at h
  cases h

theorem pairwise_ranked (p : MatchPolicy α) (query lines : List Text) :
    (ranked p query lines).Pairwise fun a b => ¬a.endpoints < b.endpoints := by
  have htrans (a b c : Ranked α) (hab : Ranked.le a b = true) (hbc : Ranked.le b c = true) :
      Ranked.le a c = true := Std.TransCmp.isLE_trans hab hbc
  rw [ranked_eq]
  exact (List.pairwise_mergeSort htrans Ranked.le_total _).imp Ranked.not_lt_of_le

def Best.Keeps (b : Best α) (w : Window) (score : α) : Prop :=
  ¬b.score < score ∧ (b.earlier w = true → score < b.score)

theorem Best.Keeps.of_lt {b : Best α} {w : Window} {score : α} (h : score < b.score) :
    b.Keeps w score := ⟨not_lt_of_lt h, fun _ => h⟩

theorem Best.displaces_iff {b : Best α} {w : Window} {score : α} (hb : Comparable b.score)
    (hscore : Comparable score) :
    (b.score < score ∨ (score == b.score) = true ∧ b.earlier w = true) ↔ ¬b.Keeps w score := by
  rw [beq_iff hscore hb, Best.Keeps]
  tauto

theorem Best.keeps_offer_self {b : Best α} {w : Window} {score : α} (hb : Comparable b.score)
    (hscore : Comparable score) : (b.offer w score).Keeps w score := by
  rw [Best.offer]
  split
  · refine ⟨LawfulScore.lt_irrefl _, fun hearlier => ?_⟩
    exact absurd (by simpa [Best.earlier] using hearlier) (Window.not_before_self w)
  · rename_i hkept
    rwa [displaces_iff hb hscore, not_not] at hkept

theorem Best.Keeps.offer {b : Best α} {v : Window} {s : α} (hb : Comparable b.score)
    (hs : Comparable s) (h : b.Keeps v s) {w : Window} {score : α} (hw : Comparable score) :
    (b.offer w score).Keeps v s := by
  rw [Best.offer]
  split
  · rename_i hdisplaced
    rw [beq_iff hw hb] at hdisplaced
    rcases hdisplaced with hlt | ⟨⟨hle, hge⟩, hearlier⟩
    · exact .of_lt (lt_of_not_lt_of_lt hs h.1 hlt)
    · -- A tie: what the best window kept back, the earlier window with its score keeps back.
      refine ⟨not_lt_trans hb hle h.1, fun hbefore => lt_of_lt_of_not_lt hw (h.2 ?_) hle⟩
      rw [Best.earlier] at *
      cases hu : b.window with
      | none => rfl
      | some u =>
          rw [hu] at hearlier
          exact Window.before_trans (by simpa using hbefore) (by simpa using hearlier)
  · exact h

theorem Best.offer_not_lt {b : Best α} (hb : Comparable b.score) {a : α} (h : ¬b.score < a)
    (w : Window) {score : α} (hscore : Comparable score) : ¬(b.offer w score).score < a := by
  rw [Best.offer]
  split
  · rename_i hdisplaced
    rw [beq_iff hscore hb] at hdisplaced
    rcases hdisplaced with hlt | ⟨⟨hle, -⟩, -⟩
    · exact not_lt_trans hb (not_lt_of_lt hlt) h
    · exact not_lt_trans hb hle h
  · exact h

/-- What the search has seen so far does not displace the best window, and the best window is one
of those seen, if there is one. -/
structure Best.Optimal (score : Window → α) (seen : List Window) (b : Best α) : Prop where
  isFrom : b.IsFrom score seen
  keeps : ∀ v ∈ seen, b.Keeps v (score v)
  noScore_le : ¬b.score < noScore

theorem Best.Optimal.start (score : Window → α) : Best.start.Optimal score [] :=
  ⟨.inl rfl, nofun, LawfulScore.lt_irrefl _⟩

variable {score : Window → α}

theorem Best.Optimal.comparable {seen : List Window} {b : Best α} (h : b.Optimal score seen)
    (hscore : ∀ w, Comparable (score w)) : Comparable b.score := by
  rcases h.isFrom with rfl | ⟨w, -, rfl⟩
  · exact comparable_noScore
  · exact hscore w

theorem Best.Optimal.offer {seen : List Window} {b : Best α} (h : b.Optimal score seen)
    (hscore : ∀ w, Comparable (score w)) (w : Window) :
    (b.offer w (score w)).Optimal score (w :: seen) where
  isFrom := by
    refine Best.IsFrom.offer ?_ (List.mem_cons_self ..)
    rcases h.isFrom with hb | ⟨u, hu, hb⟩
    · exact .inl hb
    · exact .inr ⟨u, List.mem_cons_of_mem _ hu, hb⟩
  keeps v hv := by
    rcases List.mem_cons.1 hv with rfl | hv
    · exact Best.keeps_offer_self (h.comparable hscore) (hscore v)
    · exact (h.keeps v hv).offer (h.comparable hscore) (hscore v) (hscore w)
  noScore_le := Best.offer_not_lt (h.comparable hscore) h.noScore_le w (hscore w)

omit [LawfulScore α] in
theorem Best.Optimal.of_subset {seen ws : List Window} {b : Best α} (h : b.Optimal score seen)
    (hsub : seen ⊆ ws) (hkeeps : ∀ v ∈ ws, v ∈ seen ∨ b.Keeps v (score v)) :
    b.Optimal score ws where
  isFrom := h.isFrom.imp_right fun ⟨w, hw, hb⟩ => ⟨w, hsub hw, hb⟩
  keeps v hv := (hkeeps v hv).elim (h.keeps v) id
  noScore_le := h.noScore_le

variable {p : MatchPolicy α} {query lines : List Text}

theorem Prunable.lt_of_stop (h : Prunable p query lines) {v w : Window} {best : α}
    (hfall : ¬endpointsOf p query lines w < endpointsOf p query lines v)
    (hstop : endpointsOf p query lines w + bodyBound p + slack < best) :
    scoreOf p query lines v < best :=
  lt_of_not_lt_of_lt (h.score v)
    (not_lt_trans (h.bound w) (le_add_slack (h.bound w)) (h.score_le hfall)) hstop

theorem Best.Optimal.pruned (h : Prunable p query lines) {rs : List (Ranked α)}
    (hfall : rs.Pairwise fun a b => ¬a.endpoints < b.endpoints)
    (hend : ∀ r ∈ rs, r.endpoints = endpointsOf p query lines r.window) {seen : List Window}
    {b : Best α} (hb : b.Optimal (scoreOf p query lines) seen) :
    (pruned (bodyBound p) (bodyOf p query lines) rs b).Optimal (scoreOf p query lines)
      ((rs.map (·.window)).reverse ++ seen) := by
  induction rs generalizing seen b with
  | nil => exact hb
  | cons r rs ih =>
      rw [List.pairwise_cons] at hfall
      simp only [List.mem_cons, forall_eq_or_imp] at hend
      rw [Emend.pruned]
      split
      · -- The search stops here; this window and those after it score lower than the best.
        rename_i hstop
        rw [hend.1] at hstop hfall
        refine hb.of_subset (List.subset_append_right _ _) fun v hv => ?_
        rw [List.mem_append, List.mem_reverse, List.map_cons, List.mem_cons, List.mem_map] at hv
        rcases hv with (rfl | ⟨r', hr', rfl⟩) | hv
        · exact .inr (.of_lt (h.lt_of_stop (LawfulScore.lt_irrefl _) hstop))
        · have hfall' := hfall.1 r' hr'
          rw [hend.2 r' hr'] at hfall'
          exact .inr (.of_lt (h.lt_of_stop hfall' hstop))
        · exact .inl hv
      · rw [hend.1, ← scoreOf_eq, List.map_cons, List.reverse_cons, List.append_assoc]
        exact ih hfall.2 hend.2 (hb.offer h.score r.window)

theorem prunedBest_optimal (h : Prunable p query lines) :
    (prunedBest p query lines).Optimal (scoreOf p query lines) (windows p query lines) := by
  have hranked : ∀ r ∈ ranked p query lines, r.window ∈ windows p query lines ∧
      r.endpoints = endpointsOf p query lines r.window := by
    intro r hr
    obtain ⟨w, hw, rfl⟩ := (mem_ranked p query lines).1 hr
    exact ⟨hw, rfl⟩
  have hbest := (Best.Optimal.start (scoreOf p query lines)).pruned h (pairwise_ranked p query lines)
    fun r hr => (hranked r hr).2
  rw [List.append_nil, ← prunedBest_eq] at hbest
  refine hbest.of_subset (fun v hv => ?_) fun v hv => .inl ?_
  · obtain ⟨r, hr, rfl⟩ := List.mem_map.1 (List.mem_reverse.1 hv)
    exact (hranked r hr).1
  · exact List.mem_reverse.2
      (List.mem_map.2 ⟨rank p query lines v, (mem_ranked p query lines).2 ⟨v, hv, rfl⟩, rfl⟩)

omit [LawfulScore α] in
theorem Best.Optimal.window_eq_some_iff {ws : List Window} {b : Best α} (h : b.Optimal score ws)
    {w : Window} : b.window = some w ↔ Wins score ws w ∧ ¬score w < noScore := by
  rcases h.isFrom with rfl | ⟨u, hu, rfl⟩
  · exact ⟨nofun, fun ⟨hw, hscore⟩ => absurd ((h.keeps w hw.1).2 rfl) hscore⟩
  · have hwins : Wins score ws u := by
      exact ⟨hu, fun v hv => h.keeps v hv⟩
    constructor
    · rintro ⟨⟩
      exact ⟨hwins, h.noScore_le⟩
    · rintro ⟨hw, -⟩
      rw [hwins.unique hw]

/-- A window is found exactly when it wins and scores no less than a search without windows. -/
theorem window_prunedBest_eq_some_iff (hp : p.IsFinite) (hc : Counted query lines) {w : Window} :
    (prunedBest p query lines).window = some w ↔
      Wins (scoreOf p query lines) (windows p query lines) w ∧
        ¬scoreOf p query lines w < noScore :=
  (prunedBest_optimal (hc.prunable hp)).window_eq_some_iff

end Emend
